import Stylesheet.Proofs.Spelling.Scan

/-!
# Words

A word is a token as it is written: its kind, its characters and its value. Whether it is scanned
from the front of a text again depends on what follows it: `Word.Fits`. Words that fit one after the
other are the lexemes of their text.
-/

namespace Stylesheet.Token

open Text

/-- A token as it is written. -/
structure Word where
  kind : Kind
  text : List Char
  value : Option String := none
  deriving DecidableEq, Repr, Inhabited

namespace Word

variable {w : Word} {ws vs : List Word} {rest : List Char}

/-- The word and its characters as they are scanned. -/
def lexeme (w : Word) : Lexeme × List Char := (⟨w.kind, w.text.length - 1, w.value⟩, w.text)

/-- The word is what is scanned from a text where `rest` follows it. -/
def Fits (w : Word) (rest : List Char) : Prop :=
  ∃ c cs, w.text = c :: cs ∧ Lexeme.scan c (cs ++ rest) = ⟨w.kind, cs.length, w.value⟩

/-- The characters of some words. -/
def textOf (ws : List Word) : List Char := ws.flatMap text

/-- All words are scanned from a text where `rest` follows them. -/
def AllFit : List Word → List Char → Prop
  | [], _ => True
  | w :: ws, rest => w.Fits (textOf ws ++ rest) ∧ AllFit ws rest

@[simp] theorem textOf_nil : textOf [] = [] := rfl

@[simp] theorem textOf_append : textOf (ws ++ vs) = textOf ws ++ textOf vs := List.flatMap_append

@[simp] theorem textOf_cons : textOf (w :: ws) = w.text ++ textOf ws := List.flatMap_cons

theorem allFit_append :
    AllFit (ws ++ vs) rest ↔ AllFit ws (textOf vs ++ rest) ∧ AllFit vs rest := by
  induction ws with
  | nil => simp [AllFit]
  | cons w ws ih =>
    rw [List.cons_append, AllFit, ih, AllFit, textOf_append, List.append_assoc, and_assoc]

theorem allFit_singleton : AllFit [w] rest ↔ w.Fits rest := by
  simp [AllFit, textOf]

theorem Fits.lexemes_append (h : w.Fits rest) :
    lexemes (w.text ++ rest) = w.lexeme :: lexemes rest := by
  obtain ⟨c, cs, ht, hs⟩ := h
  rw [ht, List.cons_append, lexemes]
  simp only [hs, lexeme, ht, List.length_cons, Nat.add_one_sub_one, List.take_left',
    List.drop_left']

/-- Words that fit are the lexemes of their text. -/
theorem AllFit.lexemes_append (h : AllFit ws rest) :
    lexemes (textOf ws ++ rest) = ws.map lexeme ++ lexemes rest := by
  induction ws with
  | nil => rfl
  | cons w ws ih =>
    rw [textOf_cons, List.append_assoc, h.1.lexemes_append, ih h.2]
    rfl

end Word

/-! ### What ends a value -/

/-- Characters that may follow a component of a value. -/
def valueEnds : List Char := [' ', ',', '/', ')', ']', '!', ';', '\x7d']

/-- A character that may follow a component stands in front, or nothing. -/
def endsValue (rest : List Char) : Bool := rest.head?.all valueEnds.contains

theorem endsValue_cases {rest : List Char} (h : endsValue rest) :
    rest = [] ∨ ∃ c ∈ valueEnds, ∃ cs, rest = c :: cs := by
  cases rest with
  | nil => exact .inl rfl
  | cons c cs => exact .inr ⟨c, by simpa [endsValue] using h, cs, rfl⟩

theorem endsName_of_endsValue {rest : List Char} (h : endsValue rest) : endsName rest := by
  obtain rfl | ⟨c, hc, cs, rfl⟩ := endsValue_cases h
  · rfl
  · have all : valueEnds.all fun c => !isNameChar c && c ≠ '\\' && c ≠ '(' := by decide
    exact List.all_eq_true.mp all c hc

/-- Nothing that may follow a component goes on with a numeral or makes it a percentage or a
dimension. -/
theorem number_of_endsValue {rest : List Char} (h : endsValue rest) :
    Numeral.Ends rest ∧ Numeral.digits (rest.drop (Numeral.sign rest)) = 0 ∧
      startsIdent rest = false ∧ rest.head? ≠ some '%' := by
  obtain rfl | ⟨c, hc, cs, rfl⟩ := endsValue_cases h
  · exact ⟨⟨rfl, rfl, rfl⟩, rfl, rfl, by simp⟩
  · simp only [valueEnds, List.mem_cons, List.not_mem_nil, or_false] at hc
    rcases hc with rfl | rfl | rfl | rfl | rfl | rfl | rfl | rfl <;>
      exact ⟨⟨rfl, rfl, rfl⟩, rfl, rfl, by simp⟩

theorem digits_of_isAlpha {c : Char} (h : c.isAlpha) (cs : List Char) :
    Numeral.digits (c :: cs) = 0 := by
  rw [Numeral.digits, List.takeWhile_cons_of_neg (by rw [isDigit_of_isAlpha h]; decide)]
  rfl

/-- A unit is no part of the numeral before it, even if it starts like an exponent. -/
theorem ends_unit {unit rest : List Char} (nonempty : unit ≠ []) (letters : unit.all Char.isAlpha)
    (h : endsValue rest) : Numeral.Ends (unit ++ rest) := by
  obtain ⟨c, cs, rfl⟩ := List.exists_cons_of_ne_nil nonempty
  rw [List.all_cons, Bool.and_eq_true] at letters
  refine ⟨digits_of_isAlpha letters.1 _, ?_, ?_⟩
  · rw [List.cons_append]
    unfold Numeral.fraction
    split
    · rename_i heq
      cases heq
      exact absurd letters.1 (by decide)
    · rfl
  · have power : Numeral.digits ((cs ++ rest).drop (Numeral.sign (cs ++ rest))) = 0 := by
      cases cs with
      | nil => exact (number_of_endsValue h).2.1
      | cons d ds =>
        rw [List.all_cons, Bool.and_eq_true] at letters
        rw [List.cons_append, sign_of_isAlpha letters.2.1]
        exact digits_of_isAlpha letters.2.1 _
    rw [List.cons_append, Numeral.exponent]
    simp only [power, ↓reduceIte, ite_self]

namespace Word

variable {cs rest v : List Char}

/-- An identifier. -/
def ident (cs : List Char) : Word := ⟨.ident, cs, none⟩

/-- The opening of a function. -/
def function (cs : List Char) : Word := ⟨.function, cs ++ ['('], none⟩

/-- A token of one character. -/
def single (kind : Kind) (c : Char) : Word := ⟨kind, [c], none⟩

@[simp] theorem kind_single {kind : Kind} {c : Char} : (single kind c).kind = kind := rfl

/-- A hash. -/
def hash (cs : List Char) : Word := ⟨.hash, '#' :: cs, none⟩

/-- A string. -/
def string (v : List Char) : Word :=
  ⟨.string, '"' :: (v.flatMap Canonical.quotedChar ++ ['"']), some (String.ofList v)⟩

/-- A url without quotes. -/
def url (v : List Char) : Word :=
  ⟨.url, ['u', 'r', 'l'] ++ '(' :: (v.flatMap Canonical.urlChar ++ [')']), some (String.ofList v)⟩

/-- A number. -/
def number (n : Numeral.Plain) : Word := ⟨.number, n.chars, none⟩

/-- A percentage. -/
def percentage (n : Numeral.Plain) : Word := ⟨.percentage, n.chars ++ ['%'], none⟩

/-- A number with a unit. -/
def dimension (n : Numeral.Plain) (unit : List Char) : Word := ⟨.dimension, n.chars ++ unit, none⟩

theorem fits_single {kind : Kind} {c : Char} (h : Lexeme.scan c rest = ⟨kind, 0, none⟩) :
    (single kind c).Fits rest := ⟨c, [], rfl, h⟩

theorem fits_ident (h : isPlainName cs) (stop : endsName rest) : (ident cs).Fits rest := by
  obtain ⟨c, ds, rfl, alpha, all⟩ := exists_of_isPlainName h
  refine ⟨c, ds, rfl, ?_⟩
  rw [scan_of_isAlpha alpha, ← List.cons_append, identLike_ident all stop]
  rfl

theorem fits_function (h : isPlainName cs) (other : cs.map Char.toLower ≠ ['u', 'r', 'l']) :
    (function cs).Fits rest := by
  obtain ⟨c, ds, rfl, alpha, all⟩ := exists_of_isPlainName h
  refine ⟨c, ds ++ ['('], rfl, ?_⟩
  rw [scan_of_isAlpha alpha, List.append_assoc, ← List.cons_append, List.singleton_append,
    identLike_function all, if_neg other, List.length_append]
  rfl

theorem fits_hash (h : isPlainName cs) (stop : stopsName rest) :
    (hash cs).Fits rest := ⟨'#', cs, rfl, scan_hash h stop⟩

/-- What is written of any value is scanned as a string. -/
theorem fits_quoted (v rest : List Char) :
    { string v with value := some (String.ofList (v.map plain)) : Word }.Fits rest := by
  refine ⟨'"', v.flatMap Canonical.quotedChar ++ ['"'], rfl, ?_⟩
  have scan (cs : List Char) : Lexeme.scan '"' cs = Lexeme.string '"' cs := rfl
  rw [scan, Lexeme.string, List.append_assoc, List.singleton_append, quoted_written,
    List.length_append]
  rfl

theorem fits_string (h : '\x00' ∉ v) : (string v).Fits rest := by
  have fits := fits_quoted v rest
  rwa [map_plain_eq_iff.mpr h] at fits

/-- No blank and no quote stands in front of what is written of a url. -/
theorem head_urlChars (v rest : List Char) :
    ∃ c cs, v.flatMap Canonical.urlChar ++ ')' :: rest = c :: cs ∧ isBlank c = false ∧
      c ≠ '"' ∧ c ≠ '\'' := by
  cases v with
  | nil => exact ⟨')', rest, rfl, by decide, by decide, by decide⟩
  | cons c v =>
    rw [List.flatMap_cons, Canonical.urlChar]
    split
    · exact ⟨'\\', _, rfl, by decide, by decide, by decide⟩
    · rename_i special
      simp only [List.contains_eq_mem, List.mem_cons, List.not_mem_nil, or_false,
        decide_eq_true_eq, not_or] at special
      split
      · exact ⟨'\\', _, rfl, by decide, by decide, by decide⟩
      · rename_i other
        rw [Bool.or_eq_true, not_or] at other
        exact ⟨c, _, rfl, Bool.eq_false_iff.mpr fun h => other.2 (isWhiteSpace_of_isBlank h),
          special.2.2.1, special.2.2.2.1⟩

/-- What is written of any value is scanned as a url. -/
theorem fits_unquoted (v rest : List Char) :
    { url v with value := some (String.ofList (v.map plain)) : Word }.Fits rest := by
  refine ⟨'u', ['r', 'l'] ++ '(' :: (v.flatMap Canonical.urlChar ++ [')']), rfl, ?_⟩
  obtain ⟨c, cs, hc, blank, double, single⟩ := head_urlChars v rest
  have name : Lexeme.identLike (['u', 'r', 'l'] ++ '(' :: (c :: cs)) = Lexeme.url 3 (c :: cs) := by
    rw [identLike_function (by decide)]
    rfl
  have blanks : (c :: cs).takeWhile isBlank = [] :=
    List.takeWhile_cons_of_neg (by rw [blank]; decide)
  have body := urlBody_written v rest
  rw [hc] at body
  rw [scan_of_isAlpha (by decide)]
  simp only [List.cons_append, List.append_assoc, List.nil_append, hc] at name ⊢
  rw [name, Lexeme.url]
  simp only [blanks, List.length_nil, List.drop_zero]
  split
  · rename_i heq
    cases heq
    exact absurd rfl double
  · rename_i heq
    cases heq
    exact absurd rfl single
  · rw [body]
    simp [url]
    omega

theorem fits_url (h : '\x00' ∉ v) : (url v).Fits rest := by
  have fits := fits_unquoted v rest
  rwa [map_plain_eq_iff.mpr h] at fits

theorem scan_numeric (n : Numeral.Plain) (rest : List Char) :
    ∃ c cs, n.chars = c :: cs ∧ Lexeme.scan c (cs ++ rest) = Lexeme.numeric (n.chars ++ rest) := by
  have starts : Numeral.starts (n.chars ++ rest) = true := Numeral.starts_append n
  obtain ⟨c, cs, hn, blank, -⟩ := n.exists_head
  refine ⟨c, cs, hn, ?_⟩
  rw [hn, List.cons_append] at starts ⊢
  rw [Lexeme.scan.eq_def, blank, if_neg Bool.false_ne_true, if_pos starts]

theorem fits_number (n : Numeral.Plain) (h : endsValue rest) : (number n).Fits rest := by
  obtain ⟨c, cs, hn, scan⟩ := scan_numeric n rest
  obtain ⟨ends, -, ident, percent⟩ := number_of_endsValue h
  refine ⟨c, cs, hn, ?_⟩
  rw [scan, Lexeme.numeric, Numeral.length_append n ends]
  simp only [List.drop_left]
  split
  · simp at percent
  · rw [ident, hn]
    rfl

theorem fits_percentage (n : Numeral.Plain) : (percentage n).Fits rest := by
  obtain ⟨c, cs, hn, scan⟩ := scan_numeric n ('%' :: rest)
  refine ⟨c, cs ++ ['%'], by rw [percentage, hn]; rfl, ?_⟩
  rw [List.append_assoc, List.singleton_append, scan, Lexeme.numeric,
    Numeral.length_append n ⟨rfl, rfl, rfl⟩]
  simp only [List.drop_left]
  rw [hn, List.length_append]
  rfl

theorem fits_dimension (n : Numeral.Plain) {unit : List Char} (nonempty : unit ≠ [])
    (letters : unit.all Char.isAlpha) (h : endsValue rest) : (dimension n unit).Fits rest := by
  obtain ⟨c, cs, hn, scan⟩ := scan_numeric n (unit ++ rest)
  refine ⟨c, cs ++ unit, by rw [dimension, hn]; rfl, ?_⟩
  rw [List.append_assoc, scan, Lexeme.numeric,
    Numeral.length_append n (ends_unit nonempty letters h)]
  obtain ⟨d, ds, rfl⟩ := List.exists_cons_of_ne_nil nonempty
  have alpha : d.isAlpha := List.all_eq_true.mp letters d List.mem_cons_self
  have plain : (d :: ds).all isPlainChar := by
    rw [List.all_eq_true] at letters ⊢
    intro c hc
    rw [isPlainChar, Char.isAlphanum, letters c hc]
    rfl
  simp only [List.drop_left]
  split
  · rename_i heq
    cases heq
    exact absurd alpha (by decide)
  · rw [name_append plain (stopsName_of_endsName (endsName_of_endsValue h)), List.cons_append,
      if_pos (startsIdent_of_isAlpha alpha _), hn]
    simp [dimension]
    omega

end Word

end Stylesheet.Token
