import Stylesheet.Canonical
import Stylesheet.Options
import Stylesheet.Tree

/-!
# Chunks

The canonical text of a tree can be handed on in chunks of limited size. The children of the root
are written one after the other into a chunk that is being filled. A child that does not fit any
more ends this chunk and starts the next one, whatever its own size. A root without children is
written as a whole.
-/

namespace Stylesheet

/-- A piece of canonical text. -/
structure Chunk where
  /-- Position among the chunks. -/
  index : Nat
  /-- Number of the first node in it. -/
  id : Nat
  content : String
  /-- How many nodes are in it, descendants included. -/
  nodes : Nat
  deriving DecidableEq, Repr, Inhabited

namespace Chunk

/-- A chunk that is being filled. -/
structure Pending where
  /-- Number of the first node in it, as soon as there is one. -/
  id : Option Nat := none
  content : String := ""
  chars : Nat := 0
  nodes : Nat := 0
  deriving DecidableEq, Repr, Inhabited

namespace Pending

/-- Tells whether so many more characters, nodes and bytes are within the limits. -/
def fits (limits : ChunkOptions) (p : Pending) (chars nodes bytes : Nat) : Bool :=
  p.chars + chars ≤ limits.maxChars && p.nodes + nodes ≤ limits.maxNodes &&
    limits.maxBytes.all fun max => p.content.utf8ByteSize + bytes ≤ max

/-- Write a node behind what is there. -/
def add (p : Pending) (id : Nat) (content : String) (chars nodes : Nat) : Pending :=
  ⟨some (p.id.getD id), p.content ++ content, p.chars + chars, p.nodes + nodes⟩

/-- Put what is there behind the chunks that are full, if there is anything. -/
def flush (full : Array Chunk) (p : Pending) : Array Chunk :=
  match p.id with
  | some id => full.push ⟨full.size, id, p.content, p.nodes⟩
  | none => full

end Pending

/-- The chunks that are full and the one that is being filled. -/
structure Filling where
  full : Array Chunk := #[]
  pending : Pending := {}
  deriving Inhabited

namespace Filling

/-- Start a new chunk. -/
def next (f : Filling) : Filling := ⟨f.pending.flush f.full, {}⟩

/-- Write a node, in a new chunk if it does not fit into the one that is being filled. -/
def take (limits : ChunkOptions) (f : Filling) (n : Node Mark) : Filling :=
  let content := n.canonical
  let chars := content.length
  let nodes := n.walk.length
  let f :=
    if f.pending.id.isSome && !f.pending.fits limits chars nodes content.utf8ByteSize then f.next
    else f
  { f with pending := f.pending.add n.note.id content chars nodes }

end Filling

end Chunk

/-- What the chunks of a tree are made of: the children of the root, or the root if it has none. -/
def Node.units (root : Node Mark) : List (Node Mark) :=
  if root.children.isEmpty then [root] else root.children

/-- The chunks of a tree. -/
def Node.chunks (limits : ChunkOptions) (root : Node Mark) : List Chunk :=
  (root.units.foldl (Chunk.Filling.take limits) {}).next.full.toList

end Stylesheet
