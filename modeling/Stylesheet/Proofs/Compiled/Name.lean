import Stylesheet.Proofs.Compiled.Identifier

/-!
# What may follow a name

A name is scanned as far as it goes, so what follows it decides whether it is scanned as it was
written. Three things matter: a character that goes on with it, a blank that its last escape takes,
and what makes something else of it, which is a parenthesis or, behind two hyphens, `>`. In front of
all other characters a name that was scanned once is scanned again.
-/

namespace Stylesheet.Token

open Text

/-- A character that neither goes on with a name nor is taken by an escape at its end. -/
def Closes (c : Char) : Prop := isNameChar c = false ∧ c ≠ '\\' ∧ isBlank c = false

instance : DecidablePred Closes := fun _ => inferInstanceAs (Decidable (_ ∧ _))

/-- A name ends in front of some characters, or the text does. -/
def Closing (rest : List Char) : Prop := ∀ c ∈ rest.head?, Closes c

/-! ### Escapes -/

section

variable {c : Char} {s rest rest' : List Char} (cs ds : List Char)

theorem isNameChar_of_isHex (hex : isHex c = true) : isNameChar c = true := by
  have range : ('0' ≤ c ∧ c ≤ '9') ∨ ('a' ≤ c ∧ c ≤ 'f') ∨ ('A' ≤ c ∧ c ≤ 'F') := by
    unfold isHex hexValue? at hex
    split at hex
    · exact .inl ‹_›
    · split at hex
      · exact .inr (.inl ‹_›)
      · split at hex
        · exact .inr (.inr ‹_›)
        · cases hex
  simp only [isNameChar, isNameStart]
  delta Char.isAlpha Char.isUpper Char.isLower
  simp only [Char.isDigit, Bool.or_eq_true, Bool.and_eq_true, decide_eq_true_eq]
  simp only [Char.le_def, UInt32.le_iff_toNat_le] at range ⊢
  have : 'Z'.val.toNat = 90 := rfl
  have : 'F'.val.toNat = 70 := rfl
  have : 'z'.val.toNat = 122 := rfl
  have : 'f'.val.toNat = 102 := rfl
  omega

theorem Closes.isHex (h : Closes c) : isHex c = false := by
  refine Bool.eq_false_iff.mpr fun hex => ?_
  have char := isNameChar_of_isHex hex
  rw [h.1] at char
  cases char

/-- More text lengthens the blank that ends an escape only if that took all there was. -/
theorem blankAfterHex_append : blankAfterHex (cs ++ ds) = blankAfterHex cs ∨
    (blankAfterHex cs = cs.length ∧ cs.length < blankAfterHex (cs ++ ds)) := by
  rcases cs with - | ⟨c, - | ⟨d, cs⟩⟩
  · cases Nat.eq_zero_or_pos (blankAfterHex ds) with
    | inl none => exact .inl none
    | inr some => exact .inr ⟨rfl, some⟩
  · by_cases pair : c = '\r' ∧ ds.head? = some '\n'
    · obtain ⟨rfl, feed⟩ := pair
      obtain ⟨ds, rfl⟩ := List.head?_eq_some_iff.mp feed
      exact .inr ⟨rfl, (Nat.lt_succ_self 1 : 1 < 2)⟩
    · refine .inl ?_
      rw [List.singleton_append]
      unfold blankAfterHex
      split
      · rename_i same
        obtain ⟨rfl, rfl⟩ := List.cons.inj same
        exact absurd ⟨rfl, rfl⟩ pair
      · rename_i same
        obtain ⟨rfl, rfl⟩ := List.cons.inj same
        simp
      · contradiction
  · refine .inl ?_
    by_cases return' : c = '\r' <;> by_cases feed : d = '\n' <;>
      simp [blankAfterHex, return', feed]

/-- More text lengthens an escape only if that took all there was. -/
theorem hexDigits_append :
    ((cs ++ ds).take 6).takeWhile Text.isHex = (cs.take 6).takeWhile Text.isHex ∨
      ((cs.take 6).takeWhile Text.isHex = cs ∧
        cs.length < (((cs ++ ds).take 6).takeWhile Text.isHex).length) := by
  rw [List.take_append, List.takeWhile_append]
  split
  · rename_i all
    have whole := List.IsPrefix.eq_of_length (List.takeWhile_prefix Text.isHex) all
    cases more : (ds.take (6 - cs.length)).takeWhile Text.isHex with
    | nil => exact .inl (by rw [List.append_nil, whole])
    | cons d more' =>
      have short : cs.length < 6 := by
        refine Nat.lt_of_not_le fun long => ?_
        rw [Nat.sub_eq_zero_of_le long] at more
        cases more
      rw [List.take_of_length_le (Nat.le_of_lt short)] at whole ⊢
      exact .inr ⟨whole, by simp⟩
  · exact .inl rfl

theorem escape_append (c : Char) : escape (c :: cs ++ ds) = escape (c :: cs) ∨
    ((escape (c :: cs)).1 = (c :: cs).length ∧
      (c :: cs).length < (escape (c :: cs ++ ds)).1) := by
  by_cases hex : Text.isHex c = true
  · have unfolded (front : List Char) : escape (c :: front) =
        let digits := ((c :: front).take 6).takeWhile Text.isHex
        (digits.length + blankAfterHex ((c :: front).drop digits.length),
          ofCode (hexNumber digits)) := by
      rw [escape, if_pos hex]
    rw [List.cons_append, unfolded, unfolded]
    have within := hexDigits_le (c :: cs)
    obtain same | ⟨all, longer⟩ := hexDigits_append (c :: cs) ds
    · rw [List.cons_append] at same
      simp only [same]
      rw [← List.cons_append, List.drop_append_of_le_length within]
      obtain blank | ⟨all, longer⟩ := blankAfterHex_append
        ((c :: cs).drop (((c :: cs).take 6).takeWhile Text.isHex).length) ds
      · exact .inl (by rw [blank])
      · rw [List.length_drop] at all longer
        exact .inr ⟨by omega, by omega⟩
    · rw [List.cons_append] at longer
      simp only [all, List.drop_length]
      exact .inr ⟨rfl, by omega⟩
  · refine .inl ?_
    rw [List.cons_append, escape, escape, if_neg hex, if_neg hex]

/-- An escape that ends within some characters does not depend on what follows them. -/
theorem escape_front {c : Char} (h : (escape (c :: cs ++ ds)).1 ≤ (c :: cs).length) :
    escape (c :: cs ++ ds) = escape (c :: cs) :=
  (escape_append cs ds c).resolve_right fun longer => absurd longer.2 (Nat.not_lt_of_le h)

theorem escape_closing {c : Char} (closing : Closing ds) :
    escape (c :: cs ++ ds) = escape (c :: cs) := by
  cases ds with
  | nil => rw [List.append_nil]
  | cons e ds =>
    have closes := closing e rfl
    exact escape_before cs ds closes.isHex closes.2.2 c

end

/-! ### Names -/

section

variable {c : Char} {s rest more : List Char}

theorem name_closing (closing : Closing rest) : (name rest).1 = 0 := by
  cases rest with
  | nil => rw [name]
  | cons c rest =>
    have closes := closing c rfl
    rw [name_stop closes.2.1 (by rw [closes.1]; exact Bool.false_ne_true)]

/-- A backslash takes the character behind it, or it is no part of a name. -/
theorem name_slash_ne (some : rest ≠ []) : (name ('\\' :: rest)).1 ≠ 1 := by
  by_cases line : atNewline rest = true
  · rw [name, if_pos rfl, if_pos line]
    exact Nat.zero_ne_one
  · have pos : 0 < (escape rest).1 := escape_pos some
    rw [name_escaped line]
    dsimp only
    omega

/-- A name that was scanned as a whole is scanned so in front of all that closes names, except that
at the end of a text an escape may have been missing. -/
theorem name_before (h : (name (s ++ rest)).1 = s.length) (whole : rest = [] → '\\' ∉ s)
    (closing : Closing more) : (name (s ++ more)).1 = s.length := by
  induction s using name.induct with
  | case1 => exact name_closing closing
  | case2 cs line =>
    have line' : atNewline (cs ++ rest) = true := by
      cases cs with
      | nil => cases line
      | cons d cs => exact line
    rw [List.cons_append, name, if_pos rfl, if_pos line'] at h
    cases h
  | case3 cs line used meant found _ _ _ ih =>
    obtain rfl : (escape cs).1 = used := congrArg Prod.fst found
    have some : rest ≠ [] := fun none => whole none List.mem_cons_self
    cases cs with
    | nil => exact absurd h (name_slash_ne some)
    | cons e cs =>
      have line' (after : List Char) : ¬atNewline (e :: cs ++ after) = true := line
      rw [List.cons_append, name_escaped (line' _), List.length_cons] at h
      dsimp only at h
      have same := escape_front cs rest (c := e) (by omega)
      rw [same, drop_escape] at h
      have left := escape_le (e :: cs)
      rw [List.cons_append, name_escaped (line' _), escape_closing cs more closing, drop_escape,
        List.length_cons]
      dsimp only
      rw [ih (by rw [List.length_drop]; omega) fun none => absurd none some, List.length_drop]
      omega
  | case4 c cs slash char _ _ _ ih =>
    rw [List.cons_append, name_char slash char, List.length_cons] at h
    rw [List.cons_append, name_char slash char, List.length_cons]
    dsimp only at h ⊢
    rw [ih (by omega) fun none => fun mem => whole none (List.mem_cons_of_mem _ mem), Nat.add_comm]
  | case5 c cs slash char =>
    rw [List.cons_append, name_stop slash char] at h
    cases h

theorem startsIdent_extend (some : s ≠ []) (more : List Char) :
    startsIdent (c :: s ++ more) = startsIdent (c :: s) := by
  obtain ⟨d, s, rfl⟩ := List.exists_cons_of_ne_nil some
  by_cases slash : c = '\\'
  · subst slash
    rfl
  · by_cases hyphen : c = '-'
    · subst hyphen
      rfl
    · simp [startsIdent, hyphen]

/-- Characters that start names are no blanks, no signs and no marks. -/
theorem isNameStart_ne {d : Char} (h : isNameStart c = true) (other : isNameStart d = false) :
    c ≠ d := by
  rintro rfl
  rw [h] at other
  cases other

theorem startsIdent_cons (slash : c ≠ '\\') (hyphen : c ≠ '-') :
    startsIdent (c :: s) = isNameStart c := by
  simp [startsIdent, hyphen]

/-- No number starts where an identifier does. -/
theorem starts_of_startsIdent (h : startsIdent (c :: s) = true) :
    Numeral.starts (c :: s) = false := by
  by_cases slash : c = '\\'
  · subst slash
    rfl
  by_cases hyphen : c = '-'
  · subst hyphen
    obtain _ | ⟨d, s⟩ := s
    · cases h
    · simp only [startsIdent, Bool.or_eq_true, decide_eq_true_eq] at h
      obtain (starts | rfl) | rfl := h
      · simp [Numeral.starts, Numeral.sign, isDigit_of_isNameStart starts,
          isNameStart_ne (d := '.') starts rfl]
      · rfl
      · rfl
  · rw [startsIdent_cons slash hyphen] at h
    simp [Numeral.starts, Numeral.sign, isDigit_of_isNameStart h, hyphen,
      isNameStart_ne (d := '.') h rfl, isNameStart_ne (d := '+') h rfl]

/-- An identifier is scanned where one starts, except that two hyphens and `>` are one token. -/
theorem scan_of_startsIdent (h : startsIdent (c :: s) = true)
    (arrow : ¬['-', '-', '>'] <+: c :: s) : Lexeme.scan c s = Lexeme.identLike (c :: s) := by
  have number : ¬Numeral.starts (c :: s) = true := by
    rw [starts_of_startsIdent h]
    exact Bool.false_ne_true
  by_cases slash : c = '\\'
  · subst slash
    rw [Lexeme.scan_other (by decide) number (by decide), if_pos h]
  by_cases hyphen : c = '-'
  · subst hyphen
    rw [Lexeme.scan_hyphen number, if_neg, if_pos h]
    intro bracket
    exact arrow ((List.prefix_cons_inj '-').mpr (List.isPrefixOf_iff_prefix.mp bracket))
  · have starts := (startsIdent_cons slash hyphen).symm.trans h
    have solid : ¬isBlank c = true := by
      intro blank
      simp only [isBlank, isNewline, Bool.or_eq_true, decide_eq_true_eq] at blank
      obtain (rfl | rfl) | (rfl | rfl) | rfl := blank <;> cases starts
    have mark : c ∉ Lexeme.marks := by
      intro mark
      simp only [Lexeme.marks, List.mem_cons, List.not_mem_nil, or_false] at mark
      obtain rfl | rfl | rfl | rfl | rfl | rfl | rfl | rfl | rfl | rfl | rfl | rfl | rfl | rfl |
        rfl | rfl := mark <;> cases starts
    rw [Lexeme.scan_other solid number mark, if_pos h]

end

namespace Word

variable {s rest more : List Char}

/-- When some characters are scanned as an identifier. -/
theorem fits_ident_iff : (ident s).Fits rest ↔
    startsIdent (s ++ rest) = true ∧ (name (s ++ rest)).1 = s.length ∧ rest.head? ≠ some '(' ∧
      ¬['-', '-', '>'] <+: s ++ rest := by
  constructor
  · intro h
    obtain ⟨starts, length⟩ := name_of_fits h
    obtain ⟨c, cs, text, scanned⟩ := h
    obtain rfl : s = c :: cs := text
    have kind : (Lexeme.scan c (cs ++ rest)).kind = .ident := congrArg Lexeme.kind scanned
    refine ⟨starts, length, fun paren => ?_, fun arrow => ?_⟩
    · obtain ⟨rest, rfl⟩ := List.head?_eq_some_iff.mp paren
      have drop : (c :: cs ++ '(' :: rest).drop (name (c :: cs ++ '(' :: rest)).1 = '(' :: rest := by
        rw [length, List.drop_left]
      rw [(Lexeme.scan_ident kind).2, ← List.cons_append, Lexeme.identLike_paren drop] at kind
      split at kind
      · exact absurd (kind ▸ Lexeme.kind_url_mem _ _) (by decide)
      · cases kind
    · obtain ⟨more, split⟩ := arrow
      obtain ⟨rfl, tail⟩ := List.cons.inj split
      have tail : '-' :: '>' :: more = cs ++ rest := tail
      rw [← tail] at kind
      cases kind
  · rintro ⟨starts, length, paren, arrow⟩
    obtain _ | ⟨c, cs⟩ := s
    · obtain _ | ⟨d, rest⟩ := rest
      · cases starts
      · exact absurd length (Nat.ne_of_gt (name_pos (.inl starts)))
    · refine ⟨c, cs, rfl, ?_⟩
      have drop : (c :: cs ++ rest).drop (name (c :: cs ++ rest)).1 = rest := by
        rw [length, List.drop_left]
      have scanned : Lexeme.scan c (cs ++ rest) = Lexeme.identLike (c :: cs ++ rest) :=
        scan_of_startsIdent starts arrow
      rw [scanned, Lexeme.identLike_plain drop paren, length]
      rfl

/-- Behind a name there is an arrow only if the name is made of the arrow's two hyphens. -/
theorem arrow_iff (length : (name (s ++ rest)).1 = s.length) :
    ['-', '-', '>'] <+: s ++ rest ↔ s = ['-', '-'] ∧ rest.head? = some '>' := by
  constructor
  · rintro ⟨more, split⟩
    have two : (name (s ++ rest)).1 = 2 := by
      rw [← split]
      simp only [List.cons_append, List.nil_append]
      rw [name_char (by decide) rfl, name_char (by decide) rfl, name_stop (by decide) (by decide)]
      rfl
    obtain ⟨a, b, rfl⟩ := List.length_eq_two.mp (length.symm.trans two)
    have split : '-' :: '-' :: '>' :: more = a :: b :: rest := split
    simp only [List.cons.injEq] at split
    obtain ⟨rfl, rfl, rfl⟩ := split
    exact ⟨rfl, rfl⟩
  · rintro ⟨rfl, bracket⟩
    obtain ⟨rest, rfl⟩ := List.head?_eq_some_iff.mp bracket
    exact ⟨rest, rfl⟩

/-- Where an identifier that is scanned as a whole starts, one starts whatever follows it, unless it is
a lone hyphen, which takes a backslash behind it. -/
theorem startsIdent_before (starts : startsIdent (s ++ rest) = true)
    (length : (name (s ++ rest)).1 = s.length) (whole : rest = [] → '\\' ∉ s) (some : s ≠ [])
    (other : s ≠ ['-']) : startsIdent (s ++ more) = true := by
  obtain ⟨c, cs, rfl⟩ := List.exists_cons_of_ne_nil some
  obtain _ | ⟨d, cs⟩ := cs
  · have hyphen : c ≠ '-' := fun same => other (congrArg (fun c => [c]) same)
    have slash : c ≠ '\\' := by
      rintro rfl
      exact name_slash_ne (fun none => whole none List.mem_cons_self) length
    rw [List.singleton_append, startsIdent_cons slash hyphen] at starts ⊢
    exact starts
  · rw [startsIdent_extend (List.cons_ne_nil d cs)] at starts ⊢
    exact starts

/-- An identifier stays one in front of all that closes names, other than a parenthesis and what
makes it an arrow. A lone hyphen is one only in front of a backslash. -/
theorem fits_ident_before (h : (ident s).Fits rest) (whole : rest = [] → '\\' ∉ s)
    (other : s ≠ ['-']) (closing : Closing more) (paren : more.head? ≠ some '(')
    (arrow : s = ['-', '-'] → more.head? ≠ some '>') : (ident s).Fits more := by
  obtain ⟨starts, length, -, -⟩ := fits_ident_iff.mp h
  have length' := name_before length whole closing
  refine fits_ident_iff.mpr ⟨?_, length', paren, fun both => ?_⟩
  · exact startsIdent_before starts length whole (ne_nil_of_fits h) other
  · obtain ⟨hyphens, bracket⟩ := (arrow_iff length').mp both
    exact arrow hyphens bracket

end Word

end Stylesheet.Token
