/-!
# Reading UTF-16

UTF-16 is read one byte at a time, in either order of the two bytes of a unit. A surrogate that does
not belong to a pair is malformed. Whatever is left over at the end is malformed as a whole.
-/

namespace Stylesheet.Encoding.Utf16

/-- Where reading stands between two bytes. -/
structure State where
  /-- The first byte of a unit. -/
  half : Option Nat := none
  /-- The first unit of a surrogate pair. -/
  lead : Option Nat := none
  deriving DecidableEq, Repr, Inhabited

/-- Read a unit after the first unit of a pair, if that is known. A malformed sequence gives nothing
in place of a character. -/
def unit (lead : Option Nat) (u : Nat) : Option Nat × List (Option Char) :=
  if 0xD800 ≤ u ∧ u < 0xDC00 then (some u, if lead.isSome then [none] else [])
  else if 0xDC00 ≤ u ∧ u < 0xE000 then
    match lead with
    | some l => (none, [some (Char.ofNat (0x10000 + (l - 0xD800) * 0x400 + (u - 0xDC00)))])
    | none => (none, [none])
  else (none, if lead.isSome then [none, some (Char.ofNat u)] else [some (Char.ofNat u)])

/-- Read a byte; `big` means that the greater byte of a unit comes first. -/
def step (big : Bool) (s : State) (b : UInt8) : State × List (Option Char) :=
  match s.half with
  | none => (⟨some b.toNat, s.lead⟩, [])
  | some a =>
    let (lead, read) := unit s.lead (if big then a * 256 + b.toNat else b.toNat * 256 + a)
    (⟨none, lead⟩, read)

/-- What is left at the end. -/
def finish (s : State) : List (Option Char) :=
  if s.half.isSome || s.lead.isSome then [none] else []

end Stylesheet.Encoding.Utf16
