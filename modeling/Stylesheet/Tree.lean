import Stylesheet.Node.Rebuild
import Stylesheet.Node.Walk

/-!
# Numbered trees

Once a tree has been read, its nodes are numbered in pre-order from one, and those whose place in
the text is known get a span. Zero is no node's number. A walk visits the nodes in the same order,
so the numbers of a tree are the positions of its walk. Trees are built with a stack of frames, and
the numbers that come out are those that recursion gives (`build_eq`).
-/

namespace Stylesheet

/-- What a numbered tree knows about a node. -/
structure Mark where
  id : Nat
  provenance : SpanProvenance
  /-- Where the node stands in the text it was read from, if that is known. -/
  span : Option Span
  deriving DecidableEq, Repr, Inhabited

namespace Mark

/-- The greatest number of a node; all later nodes share it. -/
def lastId : Nat := UInt32.size - 1

/-- The number after another one. -/
def nextId (id : Nat) : Nat := min (id + 1) lastId

/-- The mark of a node read from a text of `size` bytes. A place that does not fit the text is not
trusted. -/
def ofPlace (size id : Nat) (place : Option Span) : Mark :=
  let span := place.filter (Span.fits size)
  ⟨id, if span.isSome then .input else .none, span⟩

end Mark

namespace Node

mutual

/-- Number a tree from `next` on and answer with the next free number. -/
def numberFrom (size next : Nat) : Node (Option Span) → Node Mark × Nat
  | ⟨kind, detail, place, children⟩ =>
    let (children, after) := numberAllFrom size (Mark.nextId next) children
    (⟨kind, detail, .ofPlace size next place, children⟩, after)

/-- Number the trees of a list one after the other. -/
def numberAllFrom (size next : Nat) : List (Node (Option Span)) → List (Node Mark) × Nat
  | [] => ([], next)
  | n :: ns =>
    let (n, after) := numberFrom size next n
    let (ns, after) := numberAllFrom size after ns
    (n :: ns, after)

end

/-- Number the nodes of a tree that was read from a text of `size` bytes. -/
def number (size : Nat) (n : Node (Option Span)) : Node Mark := (n.numberFrom size 1).1

/-- The nodes' numbers go on from one to the next, and a place is noted only if `spans` asks for it
and it fits the text. -/
def stamp (size : Nat) (spans : Bool) (id : Nat) (place : Option Span) : Mark × Nat :=
  (.ofPlace size id (if spans then place else none), Mark.nextId id)

/-- Number the nodes of a tree that was read from a text of `size` bytes, and note their places if
`spans` asks for them. -/
def build (size : Nat) (spans : Bool) (n : Node (Option Span)) : Node Mark :=
  (n.rebuild (stamp size spans) 1).1

mutual

theorem mapWith_stamp (size : Nat) (spans : Bool) : ∀ (n : Node (Option Span)) (next : Nat),
    n.mapWith (stamp size spans) next =
      (n.map fun place => if spans then place else none).numberFrom size next
  | ⟨_, _, _, children⟩, next => by
    simp only [mapWith, map, numberFrom, stamp,
      mapAllWith_stamp size spans children (Mark.nextId next)]

theorem mapAllWith_stamp (size : Nat) (spans : Bool) : ∀ (ns : List (Node (Option Span)))
    (next : Nat), mapAllWith (stamp size spans) next ns =
      numberAllFrom size next (mapAll (fun place => if spans then place else none) ns)
  | [], _ => rfl
  | n :: ns, next => by
    simp only [mapAllWith, mapAll, numberAllFrom, mapWith_stamp size spans n next,
      mapAllWith_stamp size spans ns]

end

/-- Building a tree numbers it in pre-order from one. -/
theorem build_eq (size : Nat) (spans : Bool) (n : Node (Option Span)) :
    n.build size spans = (n.map fun place => if spans then place else none).number size := by
  rw [build, rebuild_eq, mapWith_stamp, number]

/-- The first node with a given number. -/
def find? (n : Node Mark) (id : Nat) : Option (Node Mark) :=
  n.nodes.find? fun m => m.note.id = id

/-- The node that an index of the nodes holds under a number. Later nodes take the place of earlier
ones. -/
def indexed? (n : Node Mark) (id : Nat) : Option (Node Mark) :=
  n.nodes.reverse.find? fun m => m.note.id = id

end Node

end Stylesheet
