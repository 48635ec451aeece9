import Stylesheet.Proofs.Encoded.Charset
import Stylesheet.Proofs.Encoded.Portions

/-!
# How an encoding is found out

What decides about the encoding of bytes, and in which order: a byte order mark, a label from
elsewhere, a `@charset` rule. Finding it out answers just that, and a limited number of bytes in
front decide.
-/

namespace Stylesheet

namespace Encoding

/-- No byte order mark stands in front. -/
def Unmarked (bytes : Bytes) : Prop := ∀ e : Encoding, e.mark <+: bytes → e.mark = []

/-- The encoding whose byte order mark stands in front. -/
theorem ofMark?_eq_some_iff {bytes : Bytes} {e : Encoding} :
    ofMark? bytes = some e ↔ e.mark <+: bytes ∧ e.mark ≠ [] := by
  constructor
  · intro h
    unfold ofMark? at h
    split at h
    · cases h
      exact ⟨⟨_, rfl⟩, by decide⟩
    · cases h
      exact ⟨⟨_, rfl⟩, by decide⟩
    · cases h
      exact ⟨⟨_, rfl⟩, by decide⟩
    · cases h
  · rintro ⟨⟨rest, rfl⟩, some⟩
    fun_cases mark e with
    | case1 => rfl
    | case2 => rfl
    | case3 => rfl
    | case4 _ plain wide wide' => exact absurd (mark_eq_nil plain wide wide') some

theorem ofMark?_eq_none_iff {bytes : Bytes} : ofMark? bytes = none ↔ Unmarked bytes := by
  constructor
  · intro h e front
    refine Classical.byContradiction fun marked => ?_
    rw [ofMark?_eq_some_iff.mpr ⟨front, marked⟩] at h
    cases h
  · intro h
    cases found : ofMark? bytes with
    | none => rfl
    | some e =>
      obtain ⟨front, marked⟩ := ofMark?_eq_some_iff.mp found
      exact absurd (h e front) marked

end Encoding

/-- The encoding that is meant where nothing else tells. -/
def SniffOptions.fallback? (options : SniffOptions) : Option Encoding :=
  match options.defaultLabel with
  | none => some .utf8
  | some label => Encoding.ofLabel? label

open Encoding in
/-- The encoding of bytes and what it is known from. -/
inductive SniffedAs (bytes : Bytes) (options : SniffOptions) (fallback : Encoding) : Sniffed → Prop
  | mark {e} (front : e.mark <+: bytes) (marked : e.mark ≠ []) :
    SniffedAs bytes options fallback ⟨e, .bom⟩
  | transport {label e} (unmarked : Unmarked bytes)
    (given : options.transportLabel = some label) (known : ofLabel? label = some e) :
    SniffedAs bytes options fallback ⟨e, .transport⟩
  | charset {label e} (unmarked : Unmarked bytes)
    (unlabelled : ∀ label ∈ options.transportLabel, ofLabel? label = none)
    (rule : HasCharset (bytes.take options.maxPrescan) (utf8Bytes label))
    (known : ofLabel? label = some e) :
    SniffedAs bytes options fallback
      ⟨if e = utf16be ∨ e = utf16le then utf8 else e, .charset⟩
  | default (unmarked : Unmarked bytes)
    (unlabelled : ∀ label ∈ options.transportLabel, ofLabel? label = none)
    (unruled : ∀ label, HasCharset (bytes.take options.maxPrescan) (utf8Bytes label) →
      ofLabel? label = none) :
    SniffedAs bytes options fallback ⟨fallback, .default⟩

section

variable {bytes : Bytes} {options : SniffOptions} {fallback : Encoding}

open Encoding

theorem sniff_of_fallback (known : options.fallback? = some fallback) :
    sniff bytes options =
      match ofMark? bytes with
      | some e => .ok ⟨e, .bom⟩
      | none =>
        match options.transportLabel.bind ofLabel? with
        | some e => .ok ⟨e, .transport⟩
        | none =>
          match ofCharset? (bytes.take options.maxPrescan) with
          | some e => .ok ⟨e, .charset⟩
          | none => .ok ⟨fallback, .default⟩ := by
  cases given : options.defaultLabel with
  | none =>
    rw [SniffOptions.fallback?, given] at known
    cases known
    unfold sniff
    rw [given]
    rfl
  | some label =>
    rw [SniffOptions.fallback?, given] at known
    have known : ofLabel? label = some fallback := known
    unfold sniff
    rw [given]
    simp only [known]
    rfl

theorem SniffedAs.sniff_eq {s : Sniffed} (known : options.fallback? = some fallback)
    (h : SniffedAs bytes options fallback s) : sniff bytes options = .ok s := by
  rw [sniff_of_fallback known]
  cases h with
  | mark front marked => rw [ofMark?_eq_some_iff.mpr ⟨front, marked⟩]
  | transport unmarked given named =>
    rw [ofMark?_eq_none_iff.mpr unmarked, Option.bind_eq_some_iff.mpr ⟨_, given, named⟩]
  | charset unmarked unlabelled rule named =>
    rw [ofMark?_eq_none_iff.mpr unmarked, Option.bind_eq_none_iff.mpr unlabelled,
      ofCharset?_eq_some_iff.mpr ⟨_, _, rule, named, rfl⟩]
  | default unmarked unlabelled unruled =>
    rw [ofMark?_eq_none_iff.mpr unmarked, Option.bind_eq_none_iff.mpr unlabelled,
      ofCharset?_eq_none_iff.mpr unruled]

theorem exists_sniffedAs (bytes : Bytes) (options : SniffOptions) (fallback : Encoding) :
    ∃ s, SniffedAs bytes options fallback s := by
  cases marked : ofMark? bytes with
  | some e =>
    obtain ⟨front, marked⟩ := ofMark?_eq_some_iff.mp marked
    exact ⟨_, .mark front marked⟩
  | none =>
    have unmarked := ofMark?_eq_none_iff.mp marked
    cases labelled : options.transportLabel.bind ofLabel? with
    | some e =>
      obtain ⟨label, given, named⟩ := Option.bind_eq_some_iff.mp labelled
      exact ⟨_, .transport unmarked given named⟩
    | none =>
      have unlabelled := Option.bind_eq_none_iff.mp labelled
      cases ruled : ofCharset? (bytes.take options.maxPrescan) with
      | some e =>
        obtain ⟨label, named, rule, known, -⟩ := ofCharset?_eq_some_iff.mp ruled
        exact ⟨_, .charset unmarked unlabelled rule known⟩
      | none => exact ⟨_, .default unmarked unlabelled (ofCharset?_eq_none_iff.mp ruled)⟩

/-- Where the default label, if there is one, names an encoding, finding out the encoding answers
what the bytes are known as, and looks at no more than the bytes in which a rule is looked for, and
three for the mark. -/
theorem sniff_sniffedAs (known : options.fallback? = some fallback) :
    ({} : SniffOptions).maxPrescan = 1024 ∧
    (∀ bytes, ∃ s, sniff bytes options = .ok s ∧
      ∀ s', SniffedAs bytes options fallback s' ↔ s' = s) ∧
    ∀ u w, max 3 options.maxPrescan ≤ u.length → sniff (u ++ w) options = sniff u options := by
  refine ⟨rfl, ?_, ?_⟩
  · intro bytes
    obtain ⟨s, h⟩ := exists_sniffedAs bytes options fallback
    refine ⟨s, h.sniff_eq known, fun s' => ⟨fun h' => ?_, fun same => same ▸ h⟩⟩
    have same := (h'.sniff_eq known).symm.trans (h.sniff_eq known)
    injection same
  · intro u w long
    exact sniff_append options (Nat.le_trans (Nat.le_max_left ..) long)
      (Nat.le_trans (Nat.le_max_right ..) long)

/-- A rule that just fits: its keyword is in capitals, and a blank stands in front of the semicolon.
What follows does not count. -/
theorem sniff_sniffedAs_latin1 :
    ({ maxPrescan := 21 } : SniffOptions).fallback? = some .utf8 ∧
      SniffedAs (utf8Bytes "  @CHARSET 'latin1' ;") { maxPrescan := 21 } .utf8
        ⟨.windows1252, .charset⟩ ∧
      max 3 21 ≤ (utf8Bytes "  @CHARSET 'latin1' ;").length ∧
      sniff (utf8Bytes "  @CHARSET 'latin1' ;" ++ utf8Bytes "a\x7b\x7d") { maxPrescan := 21 } =
        .ok ⟨.windows1252, .charset⟩ := by
  have known : ({ maxPrescan := 21 } : SniffOptions).fallback? = some .utf8 := rfl
  have long : max 3 21 ≤ (utf8Bytes "  @CHARSET 'latin1' ;").length := by decide
  have found : sniff (utf8Bytes "  @CHARSET 'latin1' ;") { maxPrescan := 21 } =
      .ok ⟨.windows1252, .charset⟩ := by decide +kernel
  obtain ⟨-, grammar, front⟩ := sniff_sniffedAs known
  obtain ⟨s, answer, all⟩ := grammar (utf8Bytes "  @CHARSET 'latin1' ;")
  refine ⟨known, (all _).mpr ?_, long, (front _ _ long).trans found⟩
  injection found.symm.trans answer

end

end Stylesheet
