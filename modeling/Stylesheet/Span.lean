/-!
# Spans

Places in a text are ranges of byte offsets into its UTF-8 form. A node says where its span came
from, since trees may hold nodes that were never read from a text.
-/

namespace Stylesheet

/-- A range of byte offsets; `stop` lies just past its last byte. -/
structure Span where
  start : Nat
  stop : Nat
  deriving DecidableEq, Repr, Inhabited

namespace Span

/-- Number of bytes. -/
def length (s : Span) : Nat := s.stop - s.start

/-- Tells whether the span holds no byte. -/
def isEmpty (s : Span) : Bool := s.start = s.stop

/-- Tells whether all of `t` lies in `s`. -/
def contains (s t : Span) : Bool := s.start ≤ t.start && t.stop ≤ s.stop

/-- The ends are in order and lie in a text of `size` bytes. -/
def fits (size : Nat) (s : Span) : Bool := s.start ≤ s.stop && s.stop ≤ size

theorem isEmpty_iff {s : Span} : s.isEmpty = true ↔ s.start = s.stop := by simp [isEmpty]

theorem fits_iff {s : Span} {size : Nat} :
    s.fits size = true ↔ s.start ≤ s.stop ∧ s.stop ≤ size := by simp [fits]

end Span

/-- Where a node's span came from. -/
inductive SpanProvenance where
  /-- Offsets reported by the grammar for the text it read. -/
  | input
  /-- There are no offsets to trust, and the node carries no span. -/
  | none
  deriving DecidableEq, Repr, Inhabited

/-- The name a provenance is shown by. -/
def SpanProvenance.name : SpanProvenance → String
  | input => "input"
  | none => "none"

end Stylesheet
