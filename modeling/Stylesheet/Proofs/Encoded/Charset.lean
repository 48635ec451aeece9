import Mathlib.Data.List.TakeWhile
import Stylesheet.Encoding.Sniff
import Stylesheet.Proofs.Encoded.Utf8

/-!
# The grammar of a `@charset` rule

A `@charset` rule is said on bytes as a whole: which parts they consist of. The label is found, part
by part from the front, exactly where there is such a rule, and it is read as text exactly if it is
well-formed UTF-8.
-/

namespace Stylesheet.Encoding

/-- The bytes of a text in UTF-8. -/
def utf8Bytes (s : String) : Bytes := s.toList.flatMap String.utf8EncodeChar

/-- Bytes start with a `@charset` rule that gives a label: the keyword with letters of either case,
blanks, the label in quotes of either sort (34 or 39), and a semicolon (59). -/
inductive HasCharset : Bytes → Bytes → Prop
  | rule {indent keyword gap after rest label : Bytes} {quote : UInt8}
    (blank : ∀ b ∈ indent ++ gap ++ after, isBlankByte b)
    (spelt : keyword.map lowerByte = utf8Bytes "@charset")
    (apart : gap ≠ [])
    (quoted : quote = 34 ∨ quote = 39)
    (named : label ≠ []) (closed : quote ∉ label) :
    HasCharset (indent ++ (keyword ++ (gap ++ quote :: (label ++ quote :: (after ++ 59 :: rest)))))
      label

/-! ### Labels -/

theorem charsetKeyword_eq : charsetKeyword = utf8Bytes "@charset" := by decide

theorem mapM_id_eq_some {read : List (Option Char)} {cs : List Char} :
    read.mapM id = some cs ↔ read = cs.map some := by
  induction read generalizing cs with
  | nil => cases cs with
    | nil => simp
    | cons => simp
  | cons c read ih =>
    rw [List.mapM_cons]
    constructor
    · intro h
      simp only [Option.bind_eq_bind, Option.bind_eq_some_iff, Option.pure_def, Option.some.injEq,
        id] at h
      obtain ⟨a, rfl, as, all, rfl⟩ := h
      rw [ih.mp all, List.map_cons]
    · intro h
      obtain ⟨a, as, rfl, rfl, rfl⟩ := List.map_eq_cons_iff.mp h.symm
      rw [ih.mpr rfl]
      rfl

/-- Bytes that are well-formed UTF-8 are those of their text. -/
theorem utf8Text?_eq_some_iff {bytes : Bytes} {s : String} :
    utf8Text? bytes = some s ↔ bytes = utf8Bytes s := by
  have whole : utf8Text? bytes =
      (((Unfinished.utf8 .start : Unfinished .ascii).output bytes).mapM id).map String.ofList := rfl
  rw [whole, Option.map_eq_some_iff]
  constructor
  · rintro ⟨cs, all, rfl⟩
    rw [utf8Bytes, String.toList_ofList]
    exact (Utf8.reads_iff.mpr (mapM_id_eq_some.mp all).symm).eq_flatMap cs rfl
  · rintro rfl
    refine ⟨s.toList, mapM_id_eq_some.mpr ?_, String.ofList_toList⟩
    exact (Utf8.reads_iff.mp (Utf8.form.reads_flatMap s.toList)).symm

/-! ### The rule -/

section

variable {bytes rest front : Bytes} {b : UInt8}

theorem dropWhile_front {p : UInt8 → Bool} (all : ∀ b ∈ front, p b) (stop : p b = false) :
    (front ++ b :: rest).dropWhile p = b :: rest := by
  rw [List.dropWhile_append_of_pos all, List.dropWhile_cons_of_neg (Bool.eq_false_iff.mp stop)]

theorem exists_front {p : UInt8 → Bool} (h : bytes.dropWhile p = rest) :
    ∃ front, (∀ b ∈ front, p b) ∧ bytes = front ++ rest :=
  ⟨bytes.takeWhile p, fun _ => List.mem_takeWhile_imp, by rw [← h, List.takeWhile_append_dropWhile]⟩

theorem afterCharset?_eq_some_iff :
    afterCharset? bytes = some rest ↔
      ∃ keyword, keyword.map lowerByte = charsetKeyword ∧ bytes = keyword ++ rest := by
  unfold afterCharset?
  constructor
  · intro h
    dsimp only at h
    split at h
    · rename_i spelt
      cases h
      exact ⟨_, spelt, (List.take_append_drop _ _).symm⟩
    · cases h
  · rintro ⟨keyword, spelt, rfl⟩
    have length : keyword.length = charsetKeyword.length := by
      rw [← spelt, List.length_map]
    simp only [← length, List.take_left, List.drop_left, if_pos spelt]

/-- The keyword does not start with a blank. -/
theorem keyword_eq_cons {keyword : Bytes} (spelt : keyword.map lowerByte = charsetKeyword) :
    ∃ k, keyword = 64 :: k := by
  obtain ⟨b, k, rfl, first, -⟩ := List.map_eq_cons_iff.mp spelt
  refine ⟨k, congrArg (· :: k) (UInt8.toNat_inj.mp ?_)⟩
  unfold lowerByte at first
  split at first
  · rename_i upper
    simp only [Bool.and_eq_true, decide_eq_true_eq, UInt8.le_iff_toNat_le] at upper
    have sum := congrArg UInt8.toNat first
    simp only [UInt8.toNat_add, UInt8.reduceToNat] at sum upper
    omega
  · rw [first]

end

theorem guard_bind_eq_some {α : Type} {p : Prop} [Decidable p] {x : Option α} {a : α} :
    (do guard p; x) = some a ↔ p ∧ x = some a := by
  by_cases h : p
  · have passes : (guard p : Option Unit) = some () := if_pos h
    rw [passes]
    exact (and_iff_right h).symm
  · have stops : (guard p : Option Unit) = none := if_neg h
    rw [stops]
    exact iff_of_false (Option.some_ne_none a).symm fun both => h both.1

theorem quote_not_blank {quote : UInt8} (h : quote = 34 ∨ quote = 39) :
    isBlankByte quote = false := by
  obtain rfl | rfl := h <;> rfl

/-- What a quote closes is what stands in front of the first one. -/
theorem takeWhile_quote {quote b : UInt8} {body label rest : Bytes} :
    body.takeWhile (· ≠ quote) = label ∧ body.drop label.length = b :: rest ↔
      b = quote ∧ quote ∉ label ∧ body = label ++ b :: rest := by
  have all {label : Bytes} (inside : quote ∉ label) : ∀ b ∈ label, decide (b ≠ quote) :=
    fun b hb => decide_eq_true fun same => inside (same ▸ hb)
  constructor
  · rintro ⟨taken, closing⟩
    have inside : quote ∉ label := by
      rintro inside
      rw [← taken] at inside
      simpa using List.mem_takeWhile_imp inside
    have front : label <+: body := taken ▸ List.takeWhile_prefix _
    have whole : body = label ++ b :: rest := by
      rw [← closing, List.prefix_iff_eq_append.mp front]
    refine ⟨?_, inside, whole⟩
    rw [whole, List.takeWhile_append_of_pos (all inside), List.append_right_eq_self] at taken
    simpa using taken
  · rintro ⟨rfl, inside, rfl⟩
    rw [List.takeWhile_append_of_pos (all inside), List.takeWhile_cons_of_neg (by simp),
      List.append_nil, List.drop_left]
    exact ⟨rfl, rfl⟩

/-- A label is found only where a `@charset` rule gives it. -/
theorem HasCharset.of_charsetLabel? {bytes label : Bytes} (h : charsetLabel? bytes = some label) :
    HasCharset bytes label := by
  obtain ⟨rest, spelt, h⟩ := Option.bind_eq_some_iff.mp h
  split at h
  · rename_i blank gap quote body gapped
    obtain ⟨isBlank, h⟩ := guard_bind_eq_some.mp h
    obtain ⟨quoted, h⟩ := guard_bind_eq_some.mp h
    obtain ⟨parts, h⟩ := guard_bind_eq_some.mp h
    obtain ⟨semicolon, h⟩ := guard_bind_eq_some.mp h
    have found := Option.some.inj h
    rw [found] at parts semicolon
    simp only [Bool.and_eq_true, Bool.not_eq_true', List.isEmpty_eq_false_iff] at parts
    simp only [Bool.or_eq_true, decide_eq_true_eq] at quoted
    -- The parts are taken off from the end to the front.
    obtain ⟨b, behind, closing⟩ := List.exists_cons_of_ne_nil parts.2
    obtain ⟨rfl, inside, rfl⟩ := takeWhile_quote.mp ⟨found, closing⟩
    rw [closing, List.tail_cons] at semicolon
    obtain ⟨rest, ends⟩ := List.head?_eq_some_iff.mp semicolon
    obtain ⟨after, blankAfter, rfl⟩ := exists_front ends
    obtain ⟨front, blankGap, gapEq⟩ := exists_front gapped
    obtain ⟨keyword, spelt, keyed⟩ := afterCharset?_eq_some_iff.mp spelt
    obtain ⟨indent, blankIndent, whole⟩ := exists_front keyed
    rw [whole, gapEq]
    refine .rule ?_ (spelt.trans charsetKeyword_eq) ?_ quoted parts.1 inside
    · simp only [List.forall_mem_append]
      exact ⟨⟨blankIndent, blankGap⟩, blankAfter⟩
    · rintro rfl
      cases gapEq
      rw [quote_not_blank quoted] at isBlank
      exact Bool.false_ne_true isBlank
  · cases h

/-- The label of a `@charset` rule is found. -/
theorem HasCharset.charsetLabel?_eq {bytes label : Bytes} (h : HasCharset bytes label) :
    charsetLabel? bytes = some label := by
  cases h with
  | @rule indent keyword gap after rest _ quote blank spelt apart quoted named closed =>
    simp only [List.forall_mem_append] at blank
    rw [← charsetKeyword_eq] at spelt
    obtain ⟨b, gap, rfl⟩ := List.exists_cons_of_ne_nil apart
    obtain ⟨k, first⟩ := keyword_eq_cons spelt
    obtain ⟨taken, closing⟩ := takeWhile_quote.mpr
      ⟨rfl, closed, (rfl : label ++ quote :: (after ++ 59 :: rest) = _)⟩
    generalize label ++ quote :: (after ++ 59 :: rest) = body at taken closing ⊢
    have indented : (indent ++ (keyword ++ (b :: gap ++ quote :: body))).dropWhile isBlankByte =
        keyword ++ (b :: gap ++ quote :: body) := by
      rw [first]
      exact dropWhile_front blank.1.1 rfl
    have gapped : (b :: (gap ++ quote :: body)).dropWhile isBlankByte = quote :: body :=
      dropWhile_front blank.1.2 (quote_not_blank quoted)
    refine Option.bind_eq_some_iff.mpr ⟨b :: gap ++ quote :: body, ?_, ?_⟩
    · rw [indented]
      exact afterCharset?_eq_some_iff.mpr ⟨keyword, spelt, rfl⟩
    · rw [List.cons_append, gapped]
      have ended : (after ++ 59 :: rest).dropWhile isBlankByte = 59 :: rest :=
        dropWhile_front blank.2 rfl
      refine guard_bind_eq_some.mpr ⟨blank.1.2 b (List.mem_cons_self ..), ?_⟩
      refine guard_bind_eq_some.mpr ⟨?_, ?_⟩
      · simpa only [Bool.or_eq_true, decide_eq_true_eq] using quoted
      rw [taken]
      dsimp only
      rw [closing]
      refine guard_bind_eq_some.mpr ⟨?_, ?_⟩
      · simpa only [List.isEmpty_cons, Bool.not_false, Bool.and_true, Bool.not_eq_true',
          List.isEmpty_eq_false_iff] using named
      refine guard_bind_eq_some.mpr ⟨?_, rfl⟩
      rw [List.tail_cons, ended, List.head?_cons]

/-- The encoding that a `@charset` rule names. -/
theorem ofCharset?_eq_some_iff {bytes : Bytes} {e : Encoding} :
    ofCharset? bytes = some e ↔ ∃ label named, HasCharset bytes (utf8Bytes label) ∧
      ofLabel? label = some named ∧
        e = if named = utf16be ∨ named = utf16le then utf8 else named := by
  have meant (named : Encoding) : (if named.isWide then utf8 else named) =
      if named = utf16be ∨ named = utf16le then utf8 else named := by
    cases named <;> rfl
  simp only [ofCharset?, Option.bind_eq_bind, Option.bind_eq_some_iff, utf8Text?_eq_some_iff,
    Option.some.injEq, meant]
  constructor
  · rintro ⟨_, found, label, rfl, named, known, rfl⟩
    exact ⟨label, named, .of_charsetLabel? found, known, rfl⟩
  · rintro ⟨label, named, rule, known, rfl⟩
    exact ⟨_, rule.charsetLabel?_eq, label, rfl, named, known, rfl⟩

theorem ofCharset?_eq_none_iff {bytes : Bytes} :
    ofCharset? bytes = none ↔
      ∀ label, HasCharset bytes (utf8Bytes label) → ofLabel? label = none := by
  rw [Option.eq_none_iff_forall_ne_some]
  constructor
  · intro h label rule
    rw [Option.eq_none_iff_forall_ne_some]
    intro named known
    exact h _ (ofCharset?_eq_some_iff.mpr ⟨label, named, rule, known, rfl⟩)
  · intro h e found
    obtain ⟨label, named, rule, known, -⟩ := ofCharset?_eq_some_iff.mp found
    rw [h label rule] at known
    cases known

end Stylesheet.Encoding
