/-!
# Numerals

A numeral is an optional sign, digits, an optional fraction and an optional exponent; a point or
an `e` belongs to it only if a digit follows. Lengths count characters, all of them ASCII.
-/

namespace Stylesheet.Token.Numeral

/-- Number of digits at the front. -/
def digits (cs : List Char) : Nat := (cs.takeWhile Char.isDigit).length

/-- Length of a sign at the front. -/
def sign : List Char → Nat
  | '+' :: _ | '-' :: _ => 1
  | _ => 0

/-- Length of a fraction at the front: a point and at least one digit. -/
def fraction : List Char → Nat
  | '.' :: cs => if digits cs = 0 then 0 else digits cs + 1
  | _ => 0

/-- Length of an exponent at the front: `e`, an optional sign and at least one digit. -/
def exponent : List Char → Nat
  | c :: cs =>
    if c = 'e' ∨ c = 'E' then
      let power := digits (cs.drop (sign cs))
      if power = 0 then 0 else 1 + sign cs + power
    else 0
  | [] => 0

/-- Length of the longest numeral at the front. -/
def length (cs : List Char) : Nat :=
  let whole := sign cs + digits (cs.drop (sign cs))
  let decimal := whole + fraction (cs.drop whole)
  decimal + exponent (cs.drop decimal)

/-- A number token starts here: a digit or a point and a digit, after an optional sign. -/
def starts (cs : List Char) : Bool :=
  match cs.drop (sign cs) with
  | c :: rest => c.isDigit || (c = '.' && digits rest ≠ 0)
  | [] => false

/-- The number and the unit of a dimension. -/
def split (text : String) : String × String :=
  let cs := text.toList
  (String.ofList (cs.take (length cs)), String.ofList (cs.drop (length cs)))

end Stylesheet.Token.Numeral
