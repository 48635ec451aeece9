/-!
# Character classes

Two notions of blank meet in style sheets. The tokenizer knows five ASCII characters, three of
which are newlines; names, labels and class lists are cut at the Unicode property `White_Space`,
which contains those five and twenty more. Control characters are the general category `Cc`.
-/

namespace Stylesheet.Text

/-- Characters that end a line for the tokenizer. -/
def isNewline (c : Char) : Bool := c = '\n' || c = '\r' || c = '\x0c'

/-- ASCII whitespace: space, tab, line feed, form feed and carriage return. -/
def isBlank (c : Char) : Bool := c = ' ' || c = '\t' || isNewline c

/-- The Unicode property `White_Space`. -/
def isWhiteSpace (c : Char) : Bool :=
  (9 ≤ c.toNat && c.toNat ≤ 13) || c.toNat = 0x20 || c.toNat = 0x85 || c.toNat = 0xA0 ||
    c.toNat = 0x1680 || (0x2000 ≤ c.toNat && c.toNat ≤ 0x200A) || c.toNat = 0x2028 ||
    c.toNat = 0x2029 || c.toNat = 0x202F || c.toNat = 0x205F || c.toNat = 0x3000

/-- The general category `Cc`: C0 controls, delete and C1 controls. -/
def isControl (c : Char) : Bool := c.toNat < 0x20 || (0x7F ≤ c.toNat && c.toNat ≤ 0x9F)

/-- The value of a hexadecimal digit of either case. -/
def hexValue? (c : Char) : Option Nat :=
  if '0' ≤ c ∧ c ≤ '9' then some (c.toNat - '0'.toNat)
  else if 'a' ≤ c ∧ c ≤ 'f' then some (c.toNat - 'a'.toNat + 10)
  else if 'A' ≤ c ∧ c ≤ 'F' then some (c.toNat - 'A'.toNat + 10)
  else none

/-- A hexadecimal digit of either case. -/
def isHex (c : Char) : Bool := (hexValue? c).isSome

/-- The number that a run of hexadecimal digits writes; other characters count as zero. -/
def hexNumber (cs : List Char) : Nat :=
  cs.foldl (fun n c => n * 16 + (hexValue? c).getD 0) 0

/-- The character that stands for what cannot be decoded. -/
def replacement : Char := '\uFFFD'

theorem isWhiteSpace_of_isBlank {c : Char} (h : isBlank c) : isWhiteSpace c := by
  simp only [isBlank, isNewline, Bool.or_eq_true, decide_eq_true_eq] at h
  rcases h with (rfl | rfl) | (rfl | rfl) | rfl <;> decide

/-! ### Cutting at white space -/

/-- Drop the characters of a class at both ends. -/
def strip (p : Char → Bool) (cs : List Char) : List Char :=
  ((cs.dropWhile p).reverse.dropWhile p).reverse

/-- Drop Unicode white space at both ends. -/
def trim (s : String) : String := String.ofList (strip isWhiteSpace s.toList)

/-- The maximal runs without Unicode white space, in order. -/
def words (s : String) : List String :=
  (go [] s.toList).map String.ofList
where
  /-- `held` is the word being read, last character first. -/
  go (held : List Char) : List Char → List (List Char)
    | [] => if held.isEmpty then [] else [held.reverse]
    | c :: cs =>
      if isWhiteSpace c then
        if held.isEmpty then go [] cs else held.reverse :: go [] cs
      else go (c :: held) cs

end Stylesheet.Text
