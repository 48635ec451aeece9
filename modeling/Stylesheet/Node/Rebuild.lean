import Stylesheet.Node
import Stylesheet.Span

/-!
# Rebuilding trees

A tree is rebuilt node by node, in pre-order, with new notes. The notes are drawn from a state that
goes from node to node, so a node may be told its number. The nodes that are open, from the one at
work up to the root, wait on a stack of frames, so a tree may be of any depth. What comes out is what
recursion gives (`rebuild_eq`).
-/

namespace Stylesheet

variable {σ α β : Type}

/-- A node whose children are being rebuilt. -/
structure Frame (α β : Type) where
  kind : NodeKind
  detail : Detail
  note : β
  /-- The children that have been rebuilt, last first. -/
  made : List (Node β) := []
  /-- The children that are still to be rebuilt. -/
  pending : List (Node α)

namespace Frame

/-- Start to rebuild a node. -/
def enter (mark : σ → α → β × σ) (s : σ) (n : Node α) : Frame α β × σ :=
  let (note, s) := mark s n.note
  ({ kind := n.kind, detail := n.detail, note := note, pending := n.children }, s)

/-- Take a child that has been rebuilt. -/
def push (f : Frame α β) (n : Node β) : Frame α β := { f with made := n :: f.made }

/-- The node, when no child is pending. -/
def close (f : Frame α β) : Node β := ⟨f.kind, f.detail, f.note, f.made.reverse⟩

/-- Number of nodes that some frames have still to rebuild. -/
def pendingSize : List (Frame α β) → Nat
  | [] => 0
  | f :: fs => Node.sizeAll f.pending + pendingSize fs

/-- Rebuild what is pending: enter the next child of the node at work, or else hand this node to the
one that waits for it. -/
def run (mark : σ → α → β × σ) (s : σ) (current : Frame α β) (waiting : List (Frame α β)) :
    Node β × σ :=
  match _h : current.pending with
  | child :: rest =>
    let opened := enter mark s child
    run mark opened.2 opened.1 ({ current with pending := rest } :: waiting)
  | [] =>
    match waiting with
    | parent :: waiting => run mark s (parent.push current.close) waiting
    | [] => (current.close, s)
termination_by 2 * pendingSize (current :: waiting) + waiting.length
decreasing_by
  · obtain ⟨kind, detail, note, children⟩ := child
    simp only [pendingSize, enter, _h, Node.sizeAll, Node.size, List.length_cons]
    omega
  · simp only [pendingSize, push, _h, Node.sizeAll, List.length_cons]
    omega

end Frame

namespace Node

/-- Rebuild a tree, with new notes that are drawn from a state. -/
def rebuild (mark : σ → α → β × σ) (s : σ) (n : Node α) : Node β × σ :=
  let (frame, s) := Frame.enter mark s n
  Frame.run mark s frame []

/-- The tree as the grammar gives it, if it cannot tell any place: the notes of its nodes are
dropped. -/
def unmarked (n : Node α) : Node (Option Span) := (n.rebuild (fun _ _ => (none, ())) ()).1

mutual

/-- Change every note in pre-order, with a state that goes from node to node. -/
def mapWith (mark : σ → α → β × σ) (s : σ) : Node α → Node β × σ
  | ⟨kind, detail, note, children⟩ =>
    let (note, s) := mark s note
    let (children, s) := mapAllWith mark s children
    (⟨kind, detail, note, children⟩, s)

/-- Change every note of every tree in a list. -/
def mapAllWith (mark : σ → α → β × σ) (s : σ) : List (Node α) → List (Node β) × σ
  | [] => ([], s)
  | n :: ns =>
    let (n, s) := mapWith mark s n
    let (ns, s) := mapAllWith mark s ns
    (n :: ns, s)

end

variable (mark : σ → α → β × σ)

mutual

/-- Entering a child ends with the child rebuilt and its siblings pending. -/
theorem run_child (kind : NodeKind) (detail : Detail) (note : β) (made : List (Node β))
    (waiting : List (Frame α β)) (rest : List (Node α)) : ∀ (n : Node α) (s : σ),
    Frame.run mark s ⟨kind, detail, note, made, n :: rest⟩ waiting =
      Frame.run mark (n.mapWith mark s).2
        ⟨kind, detail, note, (n.mapWith mark s).1 :: made, rest⟩ waiting
  | ⟨childKind, childDetail, childNote, children⟩, s => by
    have below := run_children childKind childDetail (mark s childNote).1 []
      (⟨kind, detail, note, made, rest⟩ :: waiting) [] children (mark s childNote).2
    rw [List.append_nil] at below
    rw [Frame.run.eq_def]
    simp only [Frame.enter, below]
    rw [Frame.run.eq_def]
    simp only [Frame.push, Frame.close, List.append_nil, List.reverse_reverse]
    rfl

/-- Children are rebuilt one after the other, and what comes after them is still pending. -/
theorem run_children (kind : NodeKind) (detail : Detail) (note : β) (made : List (Node β))
    (waiting : List (Frame α β)) (rest : List (Node α)) : ∀ (ns : List (Node α)) (s : σ),
    Frame.run mark s ⟨kind, detail, note, made, ns ++ rest⟩ waiting =
      Frame.run mark (mapAllWith mark s ns).2
        ⟨kind, detail, note, (mapAllWith mark s ns).1.reverse ++ made, rest⟩ waiting
  | [], s => rfl
  | n :: ns, s => by
    rw [List.cons_append, run_child kind detail note made waiting (ns ++ rest) n s,
      run_children kind detail note _ waiting rest ns]
    simp only [mapAllWith, List.reverse_cons, List.append_assoc, List.singleton_append]

end

/-- The stack of frames rebuilds a tree as recursion does. -/
theorem rebuild_eq (s : σ) (n : Node α) : n.rebuild mark s = n.mapWith mark s := by
  obtain ⟨kind, detail, note, children⟩ := n
  have below := run_children mark kind detail (mark s note).1 [] [] [] children (mark s note).2
  rw [List.append_nil] at below
  simp only [rebuild, Frame.enter, below]
  rw [Frame.run.eq_def]
  simp only [Frame.close, List.append_nil, List.reverse_reverse]
  rfl

mutual

/-- A state that nothing is drawn from changes nothing. -/
theorem mapWith_const (f : α → β) : ∀ n : Node α, n.mapWith (fun s a => (f a, s)) () = (n.map f, ())
  | ⟨_, _, _, children⟩ => by simp only [mapWith, map, mapAllWith_const f children]

theorem mapAllWith_const (f : α → β) : ∀ ns : List (Node α),
    mapAllWith (fun s a => (f a, s)) () ns = (mapAll f ns, ())
  | [] => rfl
  | n :: ns => by simp only [mapAllWith, mapAll, mapWith_const f n, mapAllWith_const f ns]

end

/-- All that is left of a note is that it is not there. -/
theorem unmarked_eq (n : Node α) : n.unmarked = n.map fun _ => none := by
  rw [unmarked, rebuild_eq]
  exact congrArg Prod.fst (mapWith_const (fun _ => none) n)

end Node

end Stylesheet
