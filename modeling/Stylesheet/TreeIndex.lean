import Stylesheet.Budget
import Stylesheet.Element

/-!
# Indexes of element trees

An index lists the nodes of a tree in pre-order and says at which position the parent of each of them
stands, so that a search can move from a node towards the root. Indexing keeps the nodes that still
have to be visited on a stack, and a budget may end it before the next node is taken.
-/

namespace Stylesheet

/-- The nodes of a tree in pre-order with the positions of their parents. -/
structure TreeIndex where
  nodes : Array Element
  parents : Array (Option Nat)
  size_eq : parents.size = nodes.size
  /-- A node stands after its parent. -/
  parent_lt : ∀ {p q : Nat}, parents[p]? = some (some q) → q < p

namespace TreeIndex

/-- The index of no node at all. -/
def empty : TreeIndex := ⟨#[], #[], rfl, by simp⟩

/-- Number of nodes that have been listed, which is the position of the next one. -/
def size (index : TreeIndex) : Nat := index.nodes.size

/-- Tells whether a parent stands among the nodes that have been listed. -/
def Lists (index : TreeIndex) (parent : Option Nat) : Prop := ∀ q, parent = some q → q < index.size

/-- List one more node. -/
def push (index : TreeIndex) (e : Element) (parent : Option Nat) (listed : index.Lists parent) :
    TreeIndex where
  nodes := index.nodes.push e
  parents := index.parents.push parent
  size_eq := by simp [index.size_eq]
  parent_lt := by
    intro p q h
    rw [Array.getElem?_push] at h
    split at h
    · rename_i hp
      exact hp ▸ index.size_eq ▸ listed q (Option.some.inj h)
    · exact index.parent_lt h

@[simp] theorem size_push (index : TreeIndex) (e : Element) (parent : Option Nat)
    (listed : index.Lists parent) : (index.push e parent listed).size = index.size + 1 := by
  simp [size, push]

/-- A node that has not been visited, and the position of its parent. -/
abbrev Waiting := Element × Option Nat

/-- The children of the node at a position wait in front of the nodes that waited before. -/
def enqueue (e : Element) (position : Nat) (stack : List Waiting) : List Waiting :=
  e.children.map (fun child => (child, some position)) ++ stack

/-- Number of nodes in the trees that wait. -/
def load (stack : List Waiting) : Nat := Element.sizeAll (stack.map (·.1))

theorem load_enqueue (e : Element) (position : Nat) (parent : Option Nat) (stack : List Waiting) :
    load ((e, parent) :: stack) = load (enqueue e position stack) + 1 := by
  have hmap : (e.children.map fun child => ((child, some position) : Waiting)).map (·.1) =
      e.children := by simp [Function.comp_def]
  simp only [load, enqueue, List.map_append, hmap, Element.sizeAll_append, List.map_cons,
    Element.sizeAll, Element.size_eq]
  omega

theorem lists_of_mem_enqueue {index : TreeIndex} {e : Element} {parent : Option Nat}
    {stack : List Waiting} (listed : ∀ x ∈ (e, parent) :: stack, index.Lists x.2) :
    ∀ x ∈ enqueue e index.size stack,
      (index.push e parent (listed (e, parent) (List.mem_cons_self ..))).Lists x.2 := by
  intro x hx q hq
  rw [size_push]
  rcases List.mem_append.mp hx with hx | hx
  · obtain ⟨child, _, rfl⟩ := List.mem_map.mp hx
    cases hq
    exact Nat.lt_succ_self _
  · exact Nat.lt_succ_of_lt (listed x (List.mem_cons_of_mem _ hx) q hq)

/-- Visit the nodes that wait, first the one on top, and list them. -/
def visitAll (limit : Option Nat) (index : TreeIndex) (stack : List Waiting)
    (listed : ∀ x ∈ stack, index.Lists x.2) : Except BudgetExceeded TreeIndex :=
  match stack, listed with
  | [], _ => .ok index
  | (e, parent) :: rest, listed =>
    match Budget.maxNodes.enforce limit (index.size + 1) with
    | .error exceeded => .error exceeded
    | .ok () =>
      visitAll limit (index.push e parent (listed (e, parent) (List.mem_cons_self ..)))
        (enqueue e index.size rest) (lists_of_mem_enqueue listed)
termination_by load stack
decreasing_by exact load_enqueue e index.size parent rest ▸ Nat.lt_succ_self _

/-- Index a tree; at most `limit` nodes may be visited. -/
def build (limit : Option Nat) (root : Element) : Except BudgetExceeded TreeIndex :=
  visitAll limit empty [(root, none)] (by simp [Lists])

/-- The position of the parent of the node at a position. -/
def parent? (index : TreeIndex) (p : Nat) : Option Nat := index.parents[p]?.join

theorem parent?_eq_some_iff {index : TreeIndex} {p q : Nat} :
    index.parent? p = some q ↔ index.parents[p]? = some (some q) := by
  simp [parent?, Option.join_eq_some_iff]

theorem parent?_lt {index : TreeIndex} {p q : Nat} (h : index.parent? p = some q) : q < p :=
  index.parent_lt (parent?_eq_some_iff.mp h)

/-- Tells whether the node at a position is an element. -/
def isElementAt (index : TreeIndex) (p : Nat) : Bool := index.nodes[p]?.any Element.isElement

/-- The positions of the elements in order. -/
def elements (index : TreeIndex) : List Nat :=
  (List.range index.size).filter index.isElementAt

end TreeIndex

end Stylesheet
