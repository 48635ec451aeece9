/-!
# Reading UTF-8

UTF-8 is read one byte at a time. A byte that cannot continue a sequence ends it as malformed and is
then read anew, so each maximal front part of a well-formed sequence counts as one malformed
sequence.
-/

namespace Stylesheet.Encoding.Utf8

/-- Where reading stands between two bytes. -/
inductive State where
  /-- Between characters. -/
  | start
  /-- `owed` bytes are missing, of which the next must lie between `low` and `high`; `value` is the
  number that the bits so far make. -/
  | within (owed low high value : Nat)
  deriving DecidableEq, Repr, Inhabited

/-- Read the first byte of a sequence. A malformed sequence gives nothing in place of a character. -/
def first (b : Nat) : State × List (Option Char) :=
  if b < 0x80 then (.start, [some (Char.ofNat b)])
  else if b < 0xC2 then (.start, [none])
  else if b < 0xE0 then (.within 1 0x80 0xBF (b - 0xC0), [])
  else if b < 0xF0 then
    (.within 2 (if b = 0xE0 then 0xA0 else 0x80) (if b = 0xED then 0x9F else 0xBF) (b - 0xE0), [])
  else if b < 0xF5 then
    (.within 3 (if b = 0xF0 then 0x90 else 0x80) (if b = 0xF4 then 0x8F else 0xBF) (b - 0xF0), [])
  else (.start, [none])

/-- Read a byte. -/
def step : State → UInt8 → State × List (Option Char)
  | .start, b => first b.toNat
  | .within owed low high value, b =>
    let b := b.toNat
    if low ≤ b ∧ b ≤ high then
      let value := value * 64 + (b - 0x80)
      if owed ≤ 1 then (.start, [some (Char.ofNat value)])
      else (.within (owed - 1) 0x80 0xBF value, [])
    else
      let (next, read) := first b
      (next, none :: read)

/-- What is left at the end. -/
def finish : State → List (Option Char)
  | .start => []
  | .within .. => [none]

end Stylesheet.Encoding.Utf8
