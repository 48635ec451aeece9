import Stylesheet.Canonical
import Stylesheet.Token.Nesting

/-!
# Scanning what is written

Names, numerals, strings and urls are scanned again as they are written. A name or a numeral takes
as many characters as it can, so this holds in front of a character that does not go on with it; a
string or a url is scanned in front of anything, because its end is written.

Names here are plain, so they have no escapes. What strings and urls hold is written with escapes
where needed, and scanned back to the same text, except that scanning replaces U+0000.
-/

namespace Stylesheet.Token

open Text

/-! ### Names -/

/-- A letter, a digit, a hyphen or an underscore. -/
def isPlainChar (c : Char) : Bool := c.isAlphanum || c = '-' || c = '_'

/-- A letter, and then letters, digits, hyphens and underscores. -/
def isPlainName : List Char → Bool
  | [] => false
  | c :: cs => c.isAlpha && cs.all isPlainChar

/-- No character of a name stands in front. -/
def stopsName (rest : List Char) : Bool := rest.head?.all fun c => !isNameChar c && c ≠ '\\'

/-- Neither a character of a name stands in front nor the parenthesis that makes it a function. -/
def endsName (rest : List Char) : Bool :=
  rest.head?.all fun c => !isNameChar c && c ≠ '\\' && c ≠ '('

theorem stopsName_of_endsName {rest : List Char} (h : endsName rest) : stopsName rest := by
  cases rest with
  | nil => rfl
  | cons c rest => simp_all [endsName, stopsName]

section

variable {c : Char} (h : isPlainChar c)

include h

theorem isNameChar_of_isPlainChar : isNameChar c := by
  simp only [isPlainChar, Char.isAlphanum, Bool.or_eq_true, decide_eq_true_eq] at h
  rcases h with ((h | h) | h) | h <;> simp [isNameChar, isNameStart, h]

theorem ne_backslash_of_isPlainChar : c ≠ '\\' := by
  rintro rfl
  revert h
  decide

theorem plain_of_isPlainChar : plain c = c := by
  rw [plain, if_neg]
  intro zero
  obtain rfl : c = '\x00' := Char.ext (UInt32.toNat_inj.mp zero)
  revert h
  decide

end

theorem name_append {cs rest : List Char} (h : cs.all isPlainChar) (stop : stopsName rest) :
    name (cs ++ rest) = (cs.length, cs) := by
  induction cs with
  | nil =>
    cases rest with
    | nil => rw [List.append_nil, name]; rfl
    | cons c rest =>
      simp only [stopsName, List.head?_cons, Option.all_some, Bool.and_eq_true,
        Bool.not_eq_true', decide_eq_true_eq] at stop
      rw [List.nil_append, name, if_neg stop.2, stop.1]
      rfl
  | cons c cs ih =>
    rw [List.all_cons, Bool.and_eq_true] at h
    rw [List.cons_append, name, if_neg (ne_backslash_of_isPlainChar h.1),
      if_pos (isNameChar_of_isPlainChar h.1), ih h.2, plain_of_isPlainChar h.1]
    simp [Nat.add_comm]

/-! ### Words that start with a letter -/

theorem startsIdent_of_isAlpha {c : Char} (h : c.isAlpha) (cs : List Char) :
    startsIdent (c :: cs) = true := by
  unfold startsIdent
  split
  · rename_i heq
    cases heq
    exact absurd h (by decide)
  · rename_i heq
    cases heq
    exact absurd h (by decide)
  · rename_i heq
    cases heq
    simp [isNameStart, h]
  · rename_i heq
    cases heq

theorem isDigit_of_isAlpha {c : Char} (h : c.isAlpha) : c.isDigit = false := by
  delta Char.isAlpha Char.isUpper Char.isLower at h
  simp only [Char.isDigit, Bool.or_eq_true,
    Bool.and_eq_true, decide_eq_true_eq, Bool.and_eq_false_iff, decide_eq_false_iff_not,
    UInt32.le_iff_toNat_le, ge_iff_le] at h ⊢
  have : 'A'.val.toNat = 65 := rfl
  have : '9'.val.toNat = 57 := rfl
  have : 'a'.val.toNat = 97 := rfl
  omega

theorem sign_of_isAlpha {c : Char} (h : c.isAlpha) (cs : List Char) :
    Numeral.sign (c :: cs) = 0 := by
  unfold Numeral.sign
  split
  · rename_i heq
    cases heq
    exact absurd h (by decide)
  · rename_i heq
    cases heq
    exact absurd h (by decide)
  · rfl

theorem starts_of_isAlpha {c : Char} (h : c.isAlpha) (cs : List Char) :
    Numeral.starts (c :: cs) = false := by
  have point : c ≠ '.' := by
    rintro rfl
    revert h
    decide
  simp [Numeral.starts, sign_of_isAlpha h, isDigit_of_isAlpha h, point]

theorem isBlank_of_isAlpha {c : Char} (h : c.isAlpha) : isBlank c = false := by
  rw [Bool.eq_false_iff]
  intro blank
  simp only [isBlank, isNewline, Bool.or_eq_true, decide_eq_true_eq] at blank
  rcases blank with (rfl | rfl) | (rfl | rfl) | rfl <;> exact absurd h (by decide)

theorem scan_of_isAlpha {c : Char} (h : c.isAlpha) (cs : List Char) :
    Lexeme.scan c cs = Lexeme.identLike (c :: cs) := by
  unfold Lexeme.scan
  rw [isBlank_of_isAlpha h, if_neg Bool.false_ne_true, starts_of_isAlpha h,
    if_neg Bool.false_ne_true]
  split
  case h_17 => rw [if_pos (startsIdent_of_isAlpha h cs)]
  all_goals exact absurd h (by decide)

section

variable {cs rest : List Char}

theorem exists_of_isPlainName (h : isPlainName cs) :
    ∃ c ds, cs = c :: ds ∧ c.isAlpha ∧ cs.all isPlainChar := by
  obtain _ | ⟨c, cs⟩ := cs
  · cases h
  · rw [isPlainName, Bool.and_eq_true] at h
    refine ⟨c, cs, rfl, h.1, ?_⟩
    rw [List.all_cons, h.2, Bool.and_true, isPlainChar, Char.isAlphanum, h.1]
    rfl

theorem identLike_ident (h : cs.all isPlainChar) (stop : endsName rest) :
    Lexeme.identLike (cs ++ rest) = ⟨.ident, cs.length - 1, none⟩ := by
  rw [Lexeme.identLike, name_append h (stopsName_of_endsName stop)]
  simp only [List.drop_left]
  split
  · simp [endsName] at stop
  · rfl

theorem identLike_function (h : cs.all isPlainChar) :
    Lexeme.identLike (cs ++ '(' :: rest) =
      if cs.map Char.toLower = ['u', 'r', 'l'] then Lexeme.url cs.length rest
      else ⟨.function, cs.length, none⟩ := by
  rw [Lexeme.identLike, name_append h (by rfl)]
  simp only [List.drop_left]

end

/-! ### Single characters and hashes -/

section

variable {rest : List Char}

theorem scan_slash (h : rest.head? ≠ some '*') : Lexeme.scan '/' rest = ⟨.delim, 0, none⟩ := by
  have starts : Numeral.starts ('/' :: rest) = false := rfl
  unfold Lexeme.scan
  rw [if_neg (by decide), starts, if_neg Bool.false_ne_true]
  split
  case h_15 => exact absurd rfl h
  case h_17 => rfl
  all_goals cases ‹ '/' = _›

theorem scan_sign (h : Numeral.starts ('+' :: rest) = false) :
    Lexeme.scan '+' rest = ⟨.delim, 0, none⟩ := by
  unfold Lexeme.scan
  rw [if_neg (by decide), h]
  rfl

theorem scan_point (h : Numeral.starts ('.' :: rest) = false) :
    Lexeme.scan '.' rest = ⟨.delim, 0, none⟩ := by
  unfold Lexeme.scan
  rw [if_neg (by decide), h]
  rfl

theorem scan_space (h : rest.head?.all fun c => !isBlank c) :
    Lexeme.scan ' ' rest = ⟨.whiteSpace, 0, none⟩ := by
  unfold Lexeme.scan
  rw [if_pos (by decide)]
  cases rest with
  | nil => rfl
  | cons c rest => 
    simp only [List.head?_cons, Option.all_some, Bool.not_eq_true'] at h
    simp [h]

theorem scan_hash {cs : List Char} (h : isPlainName cs) (stop : stopsName rest) :
    Lexeme.scan '#' (cs ++ rest) = ⟨.hash, cs.length, none⟩ := by
  obtain ⟨c, ds, rfl, alpha, all⟩ := exists_of_isPlainName h
  have starts : Numeral.starts ('#' :: (c :: ds ++ rest)) = false := rfl
  unfold Lexeme.scan
  rw [if_neg (by decide), starts, if_neg Bool.false_ne_true, name_append all stop]
  exact if_pos (.inl (startsIdent_of_isAlpha alpha _))

end

/-! ### Escapes -/

theorem isHex_digitChar : ∀ n < 16, isHex n.digitChar = true ∧ hexValue? n.digitChar = some n := by
  decide

theorem hexNumber_append (cs : List Char) (c : Char) :
    hexNumber (cs ++ [c]) = hexNumber cs * 16 + (hexValue? c).getD 0 := by
  rw [hexNumber, List.foldl_append]
  rfl

/-- Digits of a number are read as the number again. -/
theorem hexNumber_toDigits (n : Nat) :
    (∀ c ∈ Nat.toDigits 16 n, isHex c) ∧ hexNumber (Nat.toDigits 16 n) = n := by
  induction n using Nat.strongRecOn with
  | ind n ih =>
    by_cases small : n < 16
    · rw [Nat.toDigits_of_lt_base small]
      obtain ⟨digit, value⟩ := isHex_digitChar n small
      refine ⟨by simpa using digit, ?_⟩
      simp [hexNumber, value]
    · rw [Nat.toDigits_of_base_le (by decide) (Nat.le_of_not_lt small)]
      obtain ⟨digits, front⟩ := ih (n / 16) (by omega)
      obtain ⟨digit, value⟩ := isHex_digitChar (n % 16) (Nat.mod_lt n (by decide))
      constructor
      · intro c hc
        rw [List.mem_append, List.mem_singleton] at hc
        obtain hc | rfl := hc
        · exact digits c hc
        · exact digit
      · rw [hexNumber_append, front, value, Option.getD_some]
        omega

theorem ofCode_toNat (c : Char) : ofCode c.toNat = plain c := by
  rw [plain]
  split
  · rename_i zero
    rw [ofCode, if_neg fun valid => valid.1 zero]
  · rename_i some
    rw [ofCode, if_pos ⟨some, c.valid⟩, Char.ofNat_toNat]

theorem plain_eq_iff {c : Char} : plain c = c ↔ c ≠ '\x00' := by
  rw [plain]
  split
  · rename_i zero
    obtain rfl : c = '\x00' := Char.toNat_inj.mp zero
    decide
  · rename_i other
    exact ⟨fun _ null => other (congrArg Char.toNat null), fun _ => rfl⟩

/-- Scanning keeps some characters as they are if and only if U+0000 is not among them. -/
theorem map_plain_eq_iff {cs : List Char} : cs.map plain = cs ↔ '\x00' ∉ cs := by
  induction cs with
  | nil => simp
  | cons c cs ih =>
    rw [List.map_cons, List.cons.injEq, plain_eq_iff, ih, List.mem_cons, not_or, ne_comm]

/-- Any other character stands for itself after a backslash. -/
theorem escape_of_not_isHex {c : Char} (hex : isHex c = false) (rest : List Char) :
    escape (c :: rest) = (1, plain c) := by
  rw [escape, hex, if_neg Bool.false_ne_true]

/-- A hexadecimal escape is read as its character. -/
theorem escape_hexEscape (c : Char) (rest : List Char) :
    escape ((Canonical.hexEscape c).tail ++ rest) =
      ((Canonical.hexEscape c).tail.length, plain c) := by
  obtain ⟨hex, number⟩ := hexNumber_toDigits c.toNat
  have short : (Nat.toDigits 16 c.toNat).length ≤ 6 := by
    rw [Nat.length_toDigits_le_iff (by decide) (by decide)]
    have valid : c.toNat.isValidChar := c.valid
    simp only [Nat.isValidChar] at valid
    omega
  obtain ⟨d, ds, hd⟩ := List.exists_cons_of_ne_nil (Nat.toDigits_ne_nil (b := 16) (n := c.toNat))
  rw [hd] at hex number short
  have digits : ((d :: (ds ++ ' ' :: rest)).take 6).takeWhile isHex = d :: ds := by
    rw [← List.cons_append, List.take_append, List.take_of_length_le short,
      List.takeWhile_append_of_pos hex]
    cases 6 - (d :: ds).length with
    | zero => simp
    | succ k => 
      rw [List.take_succ_cons, List.takeWhile_cons_of_neg (by decide), List.append_nil]
  simp only [Canonical.hexEscape, hd, List.tail_cons, List.cons_append, List.append_assoc,
    List.nil_append]
  rw [escape, if_pos (hex d List.mem_cons_self)]
  simp only [digits, number, ofCode_toNat]
  rw [← List.cons_append, List.drop_left]
  have blank : isBlank ' ' = true := by decide
  simp [blankAfterHex, blank]

/-- The digits of an escape do not end a line. -/
theorem atNewline_hexEscape (c : Char) (rest : List Char) :
    atNewline ((Canonical.hexEscape c).tail ++ rest) = false := by
  obtain ⟨d, ds, hd⟩ := List.exists_cons_of_ne_nil (Nat.toDigits_ne_nil (b := 16) (n := c.toNat))
  have hex : isHex d := (hexNumber_toDigits c.toNat).1 d (hd ▸ List.mem_cons_self)
  simp only [Canonical.hexEscape, hd, List.tail_cons, List.cons_append, atNewline]
  rw [Bool.eq_false_iff]
  intro newline
  simp only [isNewline, Bool.or_eq_true, decide_eq_true_eq] at newline
  rcases newline with (rfl | rfl) | rfl <;> exact absurd hex (by decide)

/-! ### Strings and urls -/

section

variable {c meant : Char} {cs rest v : List Char}

/-- An escape in a string, whatever it stands for. -/
theorem quoted_escape (cs : List Char) (nonempty : cs ≠ []) (line : atNewline (cs ++ rest) = false)
    (h : escape (cs ++ rest) = (cs.length, meant)) :
    quoted '"' ('\\' :: cs ++ rest) =
      (('\\' :: cs).length + (quoted '"' rest).1, (quoted '"' rest).2.map (meant :: ·)) := by
  obtain ⟨d, ds, rfl⟩ := List.exists_cons_of_ne_nil nonempty
  rw [List.cons_append, atNewline] at line
  rw [List.cons_append, quoted.eq_def '"' (_ :: _)]
  dsimp only
  rw [if_neg (by decide), if_neg (by decide), if_pos rfl]
  simp only [List.cons_append, line, Bool.false_eq_true, ↓reduceIte]
  rw [← List.cons_append, h]
  simp only [List.drop_left]
  rw [Nat.add_comm 1]
  rfl

theorem quoted_plain (quote : c ≠ '"') (line : isNewline c = false) (backslash : c ≠ '\\') :
    quoted '"' ([c] ++ rest) =
      ([c].length + (quoted '"' rest).1, (quoted '"' rest).2.map (plain c :: ·)) := by
  rw [List.singleton_append, quoted.eq_def '"' (_ :: _)]
  dsimp only
  rw [if_neg quote, if_neg (by rw [line]; exact Bool.false_ne_true), if_neg backslash]
  rfl

theorem quoted_quotedChar (c : Char) (rest : List Char) :
    quoted '"' (Canonical.quotedChar c ++ rest) =
      ((Canonical.quotedChar c).length + (quoted '"' rest).1,
        (quoted '"' rest).2.map (plain c :: ·)) := by
  rw [Canonical.quotedChar]
  split
  · rename_i special
    simp only [Bool.or_eq_true, decide_eq_true_eq] at special
    refine quoted_escape [c] (by simp) ?_ (escape_of_not_isHex ?_ rest)
    · rcases special with rfl | rfl <;> rfl
    · rcases special with rfl | rfl <;> decide
  · rename_i special
    simp only [Bool.or_eq_true, decide_eq_true_eq, not_or] at special
    split
    · exact quoted_escape _ (by simp) (atNewline_hexEscape c rest) (escape_hexEscape c rest)
    · rename_i control
      refine quoted_plain special.1 ?_ special.2
      rw [Bool.eq_false_iff]
      intro newline
      simp only [isNewline, Bool.or_eq_true, decide_eq_true_eq] at newline
      rcases newline with (rfl | rfl) | rfl <;> exact control (by decide)

/-- What is written between double quotes is read as the string again. -/
theorem quoted_written (v rest : List Char) :
    quoted '"' (v.flatMap Canonical.quotedChar ++ '"' :: rest) =
      ((v.flatMap Canonical.quotedChar).length + 1, some (v.map plain)) := by
  induction v with
  | nil =>
    rw [List.flatMap_nil, List.nil_append, quoted.eq_def]
    dsimp only
    rw [if_pos rfl]
    rfl
  | cons c v ih =>
    rw [List.flatMap_cons, List.append_assoc, quoted_quotedChar, ih, List.length_append,
      Nat.add_assoc]
    rfl

/-- An escape in a url, whatever it stands for. -/
theorem urlBody_escape (cs : List Char) (line : atNewline (cs ++ rest) = false)
    (h : escape (cs ++ rest) = (cs.length, meant)) :
    urlBody ('\\' :: cs ++ rest) =
      (('\\' :: cs).length + (urlBody rest).1, (urlBody rest).2.map (meant :: ·)) := by
  rw [List.cons_append, urlBody, if_neg (by decide), if_neg (by decide), if_neg (by decide),
    if_pos rfl, line, if_neg Bool.false_ne_true, h]
  simp only [List.drop_left, List.length_cons]
  rw [Nat.add_comm 1]

theorem urlBody_plain (close : c ≠ ')') (blank : isBlank c = false) (sound : breaksUrl c = false)
    (backslash : c ≠ '\\') :
    urlBody ([c] ++ rest) =
      ([c].length + (urlBody rest).1, (urlBody rest).2.map (plain c :: ·)) := by
  rw [List.singleton_append, urlBody, if_neg close, blank, if_neg Bool.false_ne_true, sound,
    if_neg Bool.false_ne_true, if_neg backslash]
  rfl

theorem urlBody_urlChar (c : Char) (rest : List Char) :
    urlBody (Canonical.urlChar c ++ rest) =
      ((Canonical.urlChar c).length + (urlBody rest).1,
        (urlBody rest).2.map (plain c :: ·)) := by
  rw [Canonical.urlChar]
  split
  · rename_i special
    simp only [List.contains_eq_mem, List.mem_cons, List.not_mem_nil, or_false,
      decide_eq_true_eq] at special
    refine urlBody_escape [c] ?_ (escape_of_not_isHex ?_ rest)
    · rcases special with rfl | rfl | rfl | rfl | rfl | rfl <;> rfl
    · rcases special with rfl | rfl | rfl | rfl | rfl | rfl <;> decide
  · rename_i special
    simp only [List.contains_eq_mem, List.mem_cons, List.not_mem_nil, or_false,
      decide_eq_true_eq, not_or] at special
    obtain ⟨opening, close, double, single, backslash, space⟩ := special
    split
    · exact urlBody_escape _ (atNewline_hexEscape c rest) (escape_hexEscape c rest)
    · rename_i other
      rw [Bool.or_eq_true, not_or] at other
      refine urlBody_plain close ?_ ?_ backslash
      · exact Bool.eq_false_iff.mpr fun blank => other.2 (isWhiteSpace_of_isBlank blank)
      · rw [Bool.eq_false_iff]
        intro breaks
        apply other.1
        simp only [breaksUrl, isControl, double, single, opening, Bool.or_eq_true,
          Bool.and_eq_true, decide_eq_true_eq, false_or] at breaks ⊢
        omega

/-- What is written between `url(` and `)` is read as the url again. -/
theorem urlBody_written (v rest : List Char) :
    urlBody (v.flatMap Canonical.urlChar ++ ')' :: rest) =
      ((v.flatMap Canonical.urlChar).length + 1, some (v.map plain)) := by
  induction v with
  | nil => rw [List.flatMap_nil, List.nil_append, urlBody, if_pos rfl]; rfl
  | cons c v ih =>
    rw [List.flatMap_cons, List.append_assoc, urlBody_urlChar, ih, List.length_append,
      Nat.add_assoc]
    rfl

end

/-! ### Numerals -/

namespace Numeral

/-- Nothing in front goes on with a numeral. -/
structure Ends (rest : List Char) : Prop where
  digits : digits rest = 0
  fraction : fraction rest = 0
  exponent : exponent rest = 0

/-- A sign, or none. -/
inductive Sign where
  | none
  | plus
  | minus
  deriving DecidableEq, Repr

/-- The sign as written. -/
def Sign.chars : Sign → List Char
  | none => []
  | plus => ['+']
  | minus => ['-']

/-- At least one digit. -/
structure Digits where
  chars : List Char
  nonempty : chars ≠ []
  digits : chars.all Char.isDigit

/-- An optional sign, digits, and an optional fraction. -/
structure Plain where
  sign : Sign
  whole : Digits
  fraction : Option Digits

namespace Plain

/-- The fraction as written. -/
def fractionChars (n : Plain) : List Char :=
  match n.fraction with
  | none => []
  | some d => '.' :: d.chars

/-- The numeral as written. -/
def chars (n : Plain) : List Char := n.sign.chars ++ (n.whole.chars ++ n.fractionChars)

end Plain

variable {rest : List Char}

theorem digits_append (d : Digits) (h : Numeral.digits rest = 0) :
    Numeral.digits (d.chars ++ rest) = d.chars.length := by
  have all : ∀ c ∈ d.chars, Char.isDigit c := List.all_eq_true.mp d.digits
  rw [Numeral.digits, List.takeWhile_append_of_pos all, List.length_append]
  rw [Numeral.digits] at h
  rw [h, Nat.add_zero]

theorem sign_append (s : Sign) (d : Digits) :
    Numeral.sign (s.chars ++ (d.chars ++ rest)) = s.chars.length := by
  cases s with
  | plus => rfl
  | minus => rfl
  | none =>
    obtain ⟨c, cs, hd⟩ := List.exists_cons_of_ne_nil d.nonempty
    have digit : c.isDigit := List.all_eq_true.mp d.digits c (hd ▸ List.mem_cons_self)
    rw [Sign.chars, List.nil_append, hd, List.cons_append]
    unfold Numeral.sign
    split
    · rename_i heq
      cases heq
      exact absurd digit (by decide)
    · rename_i heq
      cases heq
      exact absurd digit (by decide)
    · rfl

theorem fraction_append (n : Plain) (h : Ends rest) :
    Numeral.fraction (n.fractionChars ++ rest) = n.fractionChars.length := by
  rw [Plain.fractionChars]
  cases n.fraction with
  | none => exact h.fraction
  | some d =>
    have count := digits_append d h.digits
    have : d.chars.length ≠ 0 := by simpa using d.nonempty
    simp only [List.cons_append, Numeral.fraction, count, this, ↓reduceIte, List.length_cons]

theorem digits_fractionChars (n : Plain) (h : Numeral.digits rest = 0) :
    Numeral.digits (n.fractionChars ++ rest) = 0 := by
  rw [Plain.fractionChars]
  cases n.fraction with
  | none => exact h
  | some d => rfl

/-- A plain numeral is read as far as it goes. -/
theorem length_append (n : Plain) (h : Ends rest) :
    Numeral.length (n.chars ++ rest) = n.chars.length := by
  have whole := digits_append n.whole (digits_fractionChars n h.digits)
  rw [Numeral.length, Plain.chars, List.append_assoc, List.append_assoc, sign_append]
  simp only [List.drop_left, whole]
  rw [← List.length_append, ← List.append_assoc, List.drop_left, fraction_append n h,
    ← List.length_append, ← List.append_assoc, List.drop_left, h.exponent, Nat.add_zero,
    List.append_assoc]

theorem starts_append (n : Plain) : Numeral.starts (n.chars ++ rest) = true := by
  obtain ⟨c, cs, hd⟩ := List.exists_cons_of_ne_nil n.whole.nonempty
  have digit : c.isDigit := List.all_eq_true.mp n.whole.digits c (hd ▸ List.mem_cons_self)
  rw [Numeral.starts, Plain.chars, List.append_assoc, List.append_assoc, sign_append,
    List.drop_left, hd, List.cons_append]
  simp only [digit, Bool.true_or]

/-- A numeral starts with a sign or a digit. -/
theorem Plain.exists_head (n : Plain) :
    ∃ c cs, n.chars = c :: cs ∧ isBlank c = false ∧ c ≠ '*' := by
  have starts : Numeral.starts (n.chars ++ []) = true := starts_append n
  rw [List.append_nil] at starts
  cases hn : n.chars with
  | nil =>
    rw [hn] at starts
    cases starts
  | cons c cs =>
    rw [hn] at starts
    refine ⟨c, cs, rfl, ?_, ?_⟩
    · rw [Bool.eq_false_iff]
      intro blank
      simp only [isBlank, isNewline, Bool.or_eq_true, decide_eq_true_eq] at blank
      rcases blank with (rfl | rfl) | (rfl | rfl) | rfl <;> cases starts
    · rintro rfl
      cases starts

end Numeral

end Stylesheet.Token
