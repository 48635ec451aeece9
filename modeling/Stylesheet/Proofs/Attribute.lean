import Mathlib.Data.List.Infix
import Stylesheet.Query
import Stylesheet.Proofs.Folding

/-!
# Matchers of attributes

What it means that a value matches another, as Selectors defines it, and what is tested. The two
agree on most values. Where they do not, a test holds that should not, or the other way round: no
value at all is found in every text, words are cut at any white space of Unicode, and the flag `i`
lowers letters beyond ASCII as well.
-/

namespace Stylesheet

namespace Text

/-! ### Words -/

/-- One of the longest pieces of a text without characters of a class. -/
structure IsWord (p : Char → Bool) (w cs : List Char) : Prop where
  nonempty : w ≠ []
  solid : ∀ c ∈ w, p c = false
  stands : ∃ before after, cs = before ++ (w ++ after) ∧
    (∀ c ∈ before.getLast?, p c = true) ∧ ∀ c ∈ after.head?, p c = true

section

variable {p : Char → Bool} {w held cs : List Char} {c : Char}

/-- Nothing stands before a piece if what does has no characters of the class. -/
theorem eq_nil_of_getLast? (edge : ∀ d ∈ cs.getLast?, p d = true) (solid : ∀ d ∈ cs, p d = false) :
    cs = [] := by
  refine List.getLast?_eq_none_iff.mp (Option.eq_none_iff_forall_not_mem.mpr fun d hd => ?_)
  have other := solid d (List.mem_of_getLast? hd)
  rw [edge d hd] at other
  cases other

theorem eq_nil_of_head? (edge : ∀ d ∈ cs.head?, p d = true) (solid : ∀ d ∈ cs, p d = false) :
    cs = [] := by
  refine List.head?_eq_none_iff.mp (Option.eq_none_iff_forall_not_mem.mpr fun d hd => ?_)
  have other := solid d (List.mem_of_head? hd)
  rw [edge d hd] at other
  cases other

/-- A piece without characters of the class, as far as one of them or the end, is a word. -/
theorem isWord_front (nonempty : held ≠ []) (solid : ∀ d ∈ held, p d = false)
    (edge : ∀ d ∈ cs.head?, p d = true) : IsWord p held (held ++ cs) :=
  ⟨nonempty, solid, [], cs, rfl, nofun, edge⟩

/-- The words behind a character of the class are words of the whole. -/
theorem IsWord.append_cons (h : IsWord p w cs) (blank : p c = true) :
    IsWord p w (held ++ c :: cs) := by
  obtain ⟨nonempty, solid, before, after, rfl, left, right⟩ := h
  refine ⟨nonempty, solid, held ++ c :: before, after, by simp, ?_, right⟩
  cases before with
  | nil => simpa using blank
  | cons d before => simpa [List.getLast?_append, List.getLast?_cons_cons] using left

/-- A text without characters of the class is its only word, unless it is empty. -/
theorem isWord_of_solid (solid : ∀ d ∈ held, p d = false) :
    IsWord p w held ↔ held ≠ [] ∧ w = held := by
  constructor
  · rintro ⟨nonempty, -, before, after, rfl, left, right⟩
    obtain rfl : before = [] := eq_nil_of_getLast? left fun d hd =>
      solid d (List.mem_append_left _ hd)
    obtain rfl : after = [] := eq_nil_of_head? right fun d hd =>
      solid d (List.mem_append_right _ (List.mem_append_right _ hd))
    rw [List.nil_append, List.append_nil]
    exact ⟨nonempty, rfl⟩
  · rintro ⟨nonempty, rfl⟩
    have word : IsWord p w (w ++ []) := isWord_front nonempty solid (by simp)
    rwa [List.append_nil] at word

/-- The first word is what stands in front of the first character of the class, and the others are
words of what follows that. -/
theorem isWord_append_cons (solid : ∀ d ∈ held, p d = false) (blank : p c = true) :
    IsWord p w (held ++ c :: cs) ↔ (held ≠ [] ∧ w = held) ∨ IsWord p w cs := by
  constructor
  · rintro ⟨nonempty, own, before, after, same, left, right⟩
    obtain ⟨gap, rfl, rest⟩ | ⟨gap, rfl, rest⟩ := List.append_eq_append_iff.mp same
    · -- the word starts behind what is held, and the character is none of its own
      obtain _ | ⟨d, gap⟩ := gap
      · obtain ⟨d, w, rfl⟩ := List.exists_cons_of_ne_nil nonempty
        obtain rfl : c = d := (List.cons.inj rest).1
        rw [own c List.mem_cons_self] at blank
        cases blank
      · obtain ⟨rfl, rfl⟩ := List.cons.inj rest
        refine .inr ⟨nonempty, own, gap, after, rfl, fun e he => left e ?_, right⟩
        rw [List.getLast?_append, List.getLast?_cons, he]
        rfl
    · -- it starts within, so it is the word of what is held and the character
      obtain rfl : before = [] := eq_nil_of_getLast? left fun d hd =>
        solid d (List.mem_append_left _ hd)
      rw [List.nil_append] at solid ⊢
      obtain ⟨more, rfl, rfl⟩ | ⟨more, rfl, more_eq⟩ := List.append_eq_append_iff.mp rest
      · refine .inl ((isWord_of_solid solid).mp ?_)
        exact isWord_front nonempty own fun d hd => right d (by rw [List.head?_append, hd]; rfl)
      · obtain _ | ⟨d, more⟩ := more
        · exact .inl ⟨by rwa [List.append_nil] at nonempty, List.append_nil gap⟩
        · obtain rfl : c = d := (List.cons.inj more_eq).1
          have mem : c ∈ gap ++ c :: more := List.mem_append_right _ List.mem_cons_self
          rw [own c mem] at blank
          cases blank
  · rintro (⟨nonempty, rfl⟩ | word)
    · exact isWord_front nonempty solid (by simpa using blank)
    · exact word.append_cons blank

/-- The words of a text depend on which of its characters are of the class. -/
theorem IsWord.congr {q : Char → Bool} (h : IsWord p w cs) (same : ∀ d ∈ cs, p d = q d) :
    IsWord q w cs := by
  obtain ⟨nonempty, solid, before, after, rfl, left, right⟩ := h
  refine ⟨nonempty, fun d hd => ?_, before, after, rfl, fun d hd => ?_, fun d hd => ?_⟩
  · rw [← same d (by simp [hd])]
    exact solid d hd
  · rw [← same d (List.mem_append_left _ (List.mem_of_getLast? hd))]
    exact left d hd
  · rw [← same d (by simp [List.mem_of_head? hd])]
    exact right d hd

theorem isWord_congr {q : Char → Bool} (same : ∀ d ∈ cs, p d = q d) :
    IsWord p w cs ↔ IsWord q w cs :=
  ⟨fun h => h.congr same, fun h => h.congr fun d hd => (same d hd).symm⟩

end

/-- What is held is the front of the word that is being read. -/
theorem mem_words_go {held cs w : List Char} (solid : ∀ c ∈ held, isWhiteSpace c = false) :
    w ∈ words.go held cs ↔ IsWord isWhiteSpace w (held.reverse ++ cs) := by
  induction cs generalizing held with
  | nil =>
    rw [List.append_nil, isWord_of_solid fun c hc => solid c (List.mem_reverse.mp hc), words.go]
    cases held <;> simp
  | cons c cs ih =>
    rw [words.go]
    split
    · rename_i blank
      rw [isWord_append_cons (fun c hc => solid c (List.mem_reverse.mp hc)) blank,
        ← List.nil_append cs, ← List.reverse_nil, ← ih (by simp)]
      cases held <;> simp
    · rename_i other
      rw [ih (List.forall_mem_cons.mpr ⟨Bool.eq_false_iff.mpr other, solid⟩),
        List.reverse_cons, List.append_assoc]
      rfl

/-- The words of a text are those between its white space. -/
theorem mem_words_iff {w : List Char} {s : String} :
    String.ofList w ∈ words s ↔ IsWord isWhiteSpace w s.toList := by
  have mem : w ∈ words.go [] s.toList ↔ IsWord isWhiteSpace w ([].reverse ++ s.toList) :=
    mem_words_go (by simp)
  rw [List.reverse_nil, List.nil_append] at mem
  rw [words, ← mem]
  exact List.mem_map_of_injective fun _ _ => String.ofList_injective

/-! ### Lower case and white space -/

theorem isWhiteSpace_toLower (c : Char) : isWhiteSpace c.toLower = isWhiteSpace c :=
  eq_toLower isWhiteSpace (by decide +kernel) c

theorem isBlank_toLower (c : Char) : isBlank c.toLower = isBlank c :=
  eq_toLower isBlank (by decide +kernel) c

theorem lowerChar_ne_nil (c : Char) : lowerChar c ≠ [] := by
  unfold lowerChar
  split
  · exact List.cons_ne_nil _ _
  · split
    · exact List.cons_ne_nil _ _
    · split <;> exact List.cons_ne_nil _ _

theorem lower_eq_empty_iff {s : String} : lower s = "" ↔ s = "" := by
  rw [lower, ← String.ofList_nil, String.ofList_inj, ← String.toList_eq_nil_iff]
  cases s.toList with
  | nil => simp [lowerFrom]
  | cons c cs =>
    rw [lowerFrom]
    split <;> simp [lowerChar_ne_nil]

end Text

open Text

namespace Matcher

/-- What matchers mean, as Selectors defines it: that a value `a` is compared with `v` like this.
Words are those between characters of a class of blanks. -/
def Means (blank : Char → Bool) (a v : List Char) : Matcher → Prop
  | equals => a = v
  | includes => IsWord blank v a
  | dashMatch => a = v ∨ v ++ ['-'] <+: a
  | startsWith => v ≠ [] ∧ v <+: a
  | endsWith => v ≠ [] ∧ v <:+ a
  | contains => v ≠ [] ∧ v <:+: a

/-- The matchers that look for a piece of the value. -/
def seeksPiece : Matcher → Bool
  | startsWith | endsWith | contains => true
  | equals | includes | dashMatch => false

/-- The values that a matcher compares as it should: a piece that is looked for is not empty, and
words stand between white space of ASCII only. -/
def Regular (a v : List Char) : Matcher → Prop
  | includes => ∀ c ∈ a, isWhiteSpace c = true → isBlank c = true
  | startsWith | endsWith | contains => v ≠ []
  | equals | dashMatch => True

section

variable {m : Matcher} {a v : String}

/-- Some characters occur in others if they are a piece of them. -/
theorem occursIn_iff {part cs : List Char} : occursIn part cs = true ↔ part <:+: cs := by
  induction cs with
  | nil => simp [occursIn]
  | cons c cs ih =>
    rw [occursIn, Bool.or_eq_true, List.isPrefixOf_iff_prefix, ih, List.infix_cons_iff]

/-- What is tested is what a matcher means, with any white space between words, and that nothing is
a piece of every value. -/
theorem test_iff : m.test a v = true ↔
    m.Means isWhiteSpace a.toList v.toList ∨ (m.seeksPiece = true ∧ v = "") := by
  have included : v ∈ Text.words a ↔ IsWord isWhiteSpace v.toList a.toList := by
    rw [← mem_words_iff, String.ofList_toList]
  have empty : v = "" → v.toList = [] := fun none => by rw [none]; rfl
  have same : a = v ↔ a.toList = v.toList := String.toList_inj.symm
  cases m with
  | equals => simp [test, Means, seeksPiece, same]
  | includes => simp [test, Means, seeksPiece, included]
  | dashMatch => simp [test, Means, seeksPiece, same]
  | startsWith =>
    by_cases none : v = "" <;> simp [test, Means, seeksPiece, none]
  | endsWith =>
    by_cases none : v = "" <;> simp [test, Means, seeksPiece, none]
  | contains =>
    by_cases none : v = "" <;> simp [test, Means, seeksPiece, none, occursIn_iff]

/-- On regular values the test is what the matcher means. -/
theorem test_iff_means (regular : m.Regular a.toList v.toList) :
    m.test a v = true ↔ m.Means isBlank a.toList v.toList := by
  rw [test_iff]
  cases m with
  | equals | dashMatch => simp [Means, seeksPiece]
  | includes =>
    have same : ∀ c ∈ a.toList, isWhiteSpace c = isBlank c := fun c hc =>
      Bool.eq_iff_iff.mpr ⟨regular c hc, isWhiteSpace_of_isBlank⟩
    simp [Means, seeksPiece, isWord_congr same]
  | startsWith | endsWith | contains =>
    have some : v ≠ "" := fun none => regular (by rw [none]; rfl)
    simp [Means, seeksPiece, some]

end

end Matcher

/-! ### Flags -/

/-- A text as the flags say that it is to be compared: in ASCII lower case, or as it is. -/
def foldedAscii (flags : Option String) (s : String) : String :=
  if ignoresCase flags then lowerAscii s else s

/-- A text as it is compared. -/
def folded (flags : Option String) (s : String) : String :=
  if ignoresCase flags then lower s else s

/-- Case is not ignored, or only that of ASCII letters. -/
def FoldsAsciiWith (flags : Option String) (s : String) : Prop :=
  ignoresCase flags = true → FoldsAscii s.toList

section

variable {m : Matcher} {a v s : String} {flags : Option String}

theorem folded_eq_empty_iff : folded flags s = "" ↔ s = "" := by
  rw [folded]
  split
  · exact lower_eq_empty_iff
  · rfl

theorem folded_eq (ascii : FoldsAsciiWith flags s) : folded flags s = foldedAscii flags s := by
  rw [folded, foldedAscii]
  split
  · rename_i ignored
    exact (ascii ignored).lower_eq
  · rfl

/-- The values that are compared are regular if those that are given are. -/
theorem Matcher.Regular.foldedAscii (regular : m.Regular a.toList v.toList) :
    m.Regular (foldedAscii flags a).toList (foldedAscii flags v).toList := by
  rw [Stylesheet.foldedAscii, Stylesheet.foldedAscii]
  split
  · rw [lowerAscii, lowerAscii, String.toList_ofList, String.toList_ofList]
    cases m with
    | equals | dashMatch => trivial
    | includes =>
      refine List.forall_mem_map.mpr fun c hc => ?_
      rw [isWhiteSpace_toLower, isBlank_toLower]
      exact regular c hc
    | startsWith | endsWith | contains => exact fun none => regular (List.map_eq_nil_iff.mp none)
  · exact regular

theorem testAttribute_eq : testAttribute a (some m) (some v) flags =
    m.test (folded flags a) (folded flags v) := by
  rw [testAttribute, folded, folded]
  split <;> rfl

/-- A value passes a test if the matcher means that it does, of both values in the lower case of
Unicode if there is the flag `i` and with words between any white space; or if it is searched for
nothing. So the test is as Selectors defines it on regular values that have, if there is the flag, no
case beyond ASCII. -/
theorem testAttribute_iff (m : Matcher) (a v : String) (flags : Option String) :
    (testAttribute a (some m) (some v) flags = true ↔
      m.Means isWhiteSpace (folded flags a).toList (folded flags v).toList ∨
        (m.seeksPiece = true ∧ v = "")) ∧
    (m.Regular a.toList v.toList → FoldsAsciiWith flags a → FoldsAsciiWith flags v →
      (testAttribute a (some m) (some v) flags = true ↔
        m.Means isBlank (foldedAscii flags a).toList (foldedAscii flags v).toList)) := by
  rw [testAttribute_eq]
  constructor
  · rw [Matcher.test_iff, folded_eq_empty_iff]
  · intro regular actual expected
    rw [folded_eq actual, folded_eq expected]
    exact Matcher.test_iff_means regular.foldedAscii

example : ignoresCase (some "i") = true ∧ ignoresCase none = false := by decide +kernel

/-- A word is found whatever the case of its letters. -/
theorem testAttribute_word :
    testAttribute "a Note\tb" (some .includes) (some "nOTE") (some "i") = true ∧
      Matcher.includes.Means isBlank (foldedAscii (some "i") "a Note\tb").toList
        (foldedAscii (some "i") "nOTE").toList := by
  have tested : testAttribute "a Note\tb" (some .includes) (some "nOTE") (some "i") = true := by
    decide +kernel
  have regular : Matcher.includes.Regular "a Note\tb".toList "nOTE".toList := by
    have ascii : ("a Note\tb".toList.all fun c => !isWhiteSpace c || isBlank c) = true := by
      decide +kernel
    intro c hc white
    have blank := List.all_eq_true.mp ascii c hc
    rwa [white, Bool.not_true, Bool.false_or] at blank
  refine ⟨tested, ((testAttribute_iff .includes "a Note\tb" "nOTE" (some "i")).2 regular
    (fun _ => ?_) (fun _ => ?_)).mp tested⟩
  all_goals decide +kernel

/-- Every value starts with nothing, a no-break space ends a word, and `É` is the capital of `é`; by
the definitions none of it is so. -/
theorem testAttribute_not_means :
    (testAttribute "x" (some .startsWith) (some "") none = true ∧
      ¬Matcher.startsWith.Means isBlank "x".toList "".toList) ∧
    (testAttribute "x\u00a0y" (some .includes) (some "x") none = true ∧
      ¬Matcher.includes.Means isBlank "x\u00a0y".toList "x".toList) ∧
    (testAttribute "É" (some .equals) (some "é") (some "i") = true ∧
      ¬Matcher.equals.Means isBlank (foldedAscii (some "i") "É").toList
        (foldedAscii (some "i") "é").toList) := by
  refine ⟨⟨by decide +kernel, fun h => h.1 rfl⟩, ⟨by decide +kernel, fun word => ?_⟩,
    by decide +kernel, by simp only [Matcher.Means]; decide +kernel⟩
  have all : ("x\u00a0y".toList.all fun c => !isBlank c) = true := by decide +kernel
  have solid : ∀ c ∈ "x\u00a0y".toList, isBlank c = false := fun c hc =>
    (Bool.not_eq_true' _).mp (List.all_eq_true.mp all c hc)
  exact absurd ((isWord_of_solid solid).mp word).2 (by decide +kernel)

end

end Stylesheet
