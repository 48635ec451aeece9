import Stylesheet.Node

/-!
# Walks

A walk visits the nodes of a tree in pre-order, each with its depth. It keeps the visits that are
still to come on a stack, so it may stop at any node and a tree may be of any depth. The nodes of a
tree and its depth are measured by a walk of another kind, which visits later children first.

Both are what recursion gives (`walk_eq`, `measure_eq`).
-/

namespace Stylesheet

variable {α : Type}

/-- A visit of a node at some depth. -/
abbrev Visit (α : Type) := Node α × Nat

namespace Visit

/-- The visits of a node's children. -/
def below (v : Visit α) : List (Visit α) := v.1.children.map fun child => (child, v.2 + 1)

/-- Number of nodes at which some visits begin or to which they lead. -/
def reach : List (Visit α) → Nat
  | [] => 0
  | v :: vs => v.1.size + reach vs

theorem reach_append (vs ws : List (Visit α)) : reach (vs ++ ws) = reach vs + reach ws := by
  induction vs with
  | nil => exact (Nat.zero_add _).symm
  | cons v vs ih => rw [List.cons_append, reach, reach, ih, Nat.add_assoc]

theorem reach_reverse (vs : List (Visit α)) : reach vs.reverse = reach vs := by
  induction vs with
  | nil => rfl
  | cons v vs ih => rw [List.reverse_cons, reach_append, ih, Nat.add_comm]; rfl

theorem reach_map (d : Nat) (ns : List (Node α)) :
    reach (ns.map fun n => (n, d)) = Node.sizeAll ns := by
  induction ns with
  | nil => rfl
  | cons n ns ih => rw [List.map_cons, reach, ih, Node.sizeAll]

/-- A node has one node more than its children. -/
theorem reach_below (v : Visit α) : reach v.below + 1 = v.1.size := by
  obtain ⟨⟨kind, detail, note, children⟩, d⟩ := v
  rw [below, reach_map, Node.size, Nat.add_comm]

end Visit

/-! ### Pre-order -/

/-- A walk in pre-order that has come to some point. -/
structure PreOrder (α : Type) where
  /-- The visits to come; a node stands for itself and all that is below it. -/
  pending : List (Visit α)

namespace PreOrder

/-- The walk of a tree that is about to start. -/
def ofRoot (n : Node α) : PreOrder α := ⟨[(n, 0)]⟩

/-- The next visit and the walk after it. -/
def next? (p : PreOrder α) : Option (Visit α × PreOrder α) :=
  match p.pending with
  | [] => none
  | v :: rest => some (v, ⟨v.below ++ rest⟩)

theorem reach_next? {p rest : PreOrder α} {v : Visit α} (h : p.next? = some (v, rest)) :
    Visit.reach rest.pending < Visit.reach p.pending := by
  obtain ⟨pending⟩ := p
  cases pending with
  | nil => cases h
  | cons w pending =>
    cases h
    have := Visit.reach_below v
    rw [Visit.reach, Visit.reach_append]
    omega

/-- The visits to come. -/
def toList (p : PreOrder α) : List (Visit α) :=
  match _h : p.next? with
  | none => []
  | some (v, rest) => v :: rest.toList
termination_by Visit.reach p.pending
decreasing_by exact reach_next? _h

end PreOrder

/-! ### Measures -/

/-- What a tree measures. -/
structure Metrics where
  nodes : Nat := 0
  /-- The greatest depth of a node; the root has depth one. -/
  maxDepth : Nat := 0
  deriving DecidableEq, Repr, Inhabited

/-- Measure what is pending too. Children are put in front of what is pending, so that the last one
comes first. -/
def Metrics.add (m : Metrics) (pending : List (Visit α)) : Metrics :=
  match pending with
  | [] => m
  | v :: rest => add ⟨m.nodes + 1, max m.maxDepth v.2⟩ (v.below.reverse ++ rest)
termination_by Visit.reach pending
decreasing_by
  have := Visit.reach_below v
  rw [Visit.reach, Visit.reach_append, Visit.reach_reverse]
  omega

namespace Node

/-- Number of nodes and greatest depth. -/
def measure (n : Node α) : Metrics := Metrics.add {} [(n, 1)]

/-- All nodes in pre-order with their depths; the root has depth zero. -/
def walk (n : Node α) : List (Visit α) := (PreOrder.ofRoot n).toList

/-- The nodes in pre-order. -/
def nodes (n : Node α) : List (Node α) := n.walk.map (·.1)

/-- The part of a walk at nodes whose kind has a given name, whatever its ASCII case. -/
def walkNamed (n : Node α) (kind : String) : List (Visit α) :=
  n.walk.filter fun visit => Text.sameName visit.1.kind.name kind

/-! ### Recursion -/

mutual

/-- A node that stands at depth `d`, and all below it, each with its depth, in pre-order. -/
def walkFrom (d : Nat) : Node α → List (Visit α)
  | ⟨kind, detail, note, children⟩ =>
    (⟨kind, detail, note, children⟩, d) :: walkAllFrom (d + 1) children

/-- The walks of several nodes that stand at depth `d`. -/
def walkAllFrom (d : Nat) : List (Node α) → List (Visit α)
  | [] => []
  | n :: ns => walkFrom d n ++ walkAllFrom d ns

end

theorem walkAllFrom_eq_flatMap (d : Nat) (ns : List (Node α)) :
    walkAllFrom d ns = (ns.map fun n => (n, d)).flatMap fun v => v.1.walkFrom v.2 := by
  induction ns with
  | nil => rfl
  | cons n ns ih => rw [walkAllFrom, ih, List.map_cons, List.flatMap_cons]

theorem walkFrom_eq (v : Visit α) :
    v.1.walkFrom v.2 = v :: v.below.flatMap fun w => w.1.walkFrom w.2 := by
  obtain ⟨⟨kind, detail, note, children⟩, d⟩ := v
  rw [walkFrom, walkAllFrom_eq_flatMap]
  rfl

/-- A walk goes through what is pending one after the other, each in pre-order. -/
theorem toList_eq (p : PreOrder α) : p.toList = p.pending.flatMap fun v => v.1.walkFrom v.2 := by
  fun_induction PreOrder.toList p with
  | case1 p h =>
    obtain ⟨pending⟩ := p
    cases pending with
    | nil => rfl
    | cons v pending => cases h
  | case2 p v rest h ih =>
    obtain ⟨pending⟩ := p
    cases pending with
    | nil => cases h
    | cons w pending =>
      cases h
      rw [ih, List.flatMap_append, List.flatMap_cons, walkFrom_eq, List.cons_append]

/-- The stack of visits goes through a tree as recursion does. -/
theorem walk_eq (n : Node α) : n.walk = n.walkFrom 0 := by
  rw [walk, toList_eq, PreOrder.ofRoot, List.flatMap_singleton]

mutual

theorem map_fst_walkFrom (d e : Nat) :
    ∀ n : Node α, (n.walkFrom d).map (·.1) = (n.walkFrom e).map (·.1)
  | ⟨_, _, _, children⟩ => by simp [walkFrom, map_fst_walkAllFrom (d + 1) (e + 1) children]

theorem map_fst_walkAllFrom (d e : Nat) :
    ∀ ns : List (Node α), (walkAllFrom d ns).map (·.1) = (walkAllFrom e ns).map (·.1)
  | [] => rfl
  | n :: ns => by simp [walkAllFrom, map_fst_walkFrom d e n, map_fst_walkAllFrom d e ns]

end

theorem map_fst_walkAllFrom_eq (d : Nat) (ns : List (Node α)) :
    (walkAllFrom d ns).map (·.1) = ns.flatMap nodes := by
  induction ns with
  | nil => rfl
  | cons n ns ih => simp [walkAllFrom, ih, nodes, walk_eq, map_fst_walkFrom d 0 n]

theorem nodes_eq (n : Node α) : n.nodes = n :: n.children.flatMap nodes := by
  obtain ⟨kind, detail, note, children⟩ := n
  rw [nodes, walk_eq, walkFrom, List.map_cons, map_fst_walkAllFrom_eq]

theorem mem_nodes_iff {m n : Node α} : m ∈ n.nodes ↔ m = n ∨ ∃ c ∈ n.children, m ∈ c.nodes := by
  rw [nodes_eq, List.mem_cons, List.mem_flatMap]

theorem depthAll_append (ns ms : List (Node α)) :
    depthAll (ns ++ ms) = max (depthAll ns) (depthAll ms) := by
  induction ns with
  | nil => exact (Nat.zero_max _).symm
  | cons n ns ih => rw [List.cons_append, depthAll, depthAll, ih, Nat.max_assoc]

theorem depthAll_reverse (ns : List (Node α)) : depthAll ns.reverse = depthAll ns := by
  induction ns with
  | nil => rfl
  | cons n ns ih =>
    rw [List.reverse_cons, depthAll_append, ih, depthAll, depthAll, depthAll, Nat.max_zero,
      Nat.max_comm]

theorem sizeAll_reverse (ns : List (Node α)) : sizeAll ns.reverse = sizeAll ns := by
  rw [← Visit.reach_map 0, ← Visit.reach_map 0, List.map_reverse, Visit.reach_reverse]

end Node

namespace Metrics

/-- Measure a node at some depth and all that is below it. -/
def visit (m : Metrics) (v : Visit α) : Metrics :=
  ⟨m.nodes + v.1.size, max m.maxDepth (v.2 + v.1.depth - 1)⟩

theorem foldl_visit (m : Metrics) (d : Nat) (h : d ≤ m.maxDepth) (ns : List (Node α)) :
    (ns.map fun n => (n, d + 1)).foldl visit m =
      ⟨m.nodes + Node.sizeAll ns, max m.maxDepth (d + Node.depthAll ns)⟩ := by
  induction ns generalizing m with
  | nil => simp [Node.sizeAll, Node.depthAll, h]
  | cons n ns ih =>
    rw [List.map_cons, List.foldl_cons, ih _ (Nat.le_trans h (Nat.le_max_left _ _))]
    simp only [visit, Node.sizeAll, Node.depthAll, mk.injEq]
    omega

/-- Measuring a node and then what is below it is measuring all of it. -/
theorem visit_below (m : Metrics) (v : Visit α) :
    v.below.reverse.foldl visit ⟨m.nodes + 1, max m.maxDepth v.2⟩ = m.visit v := by
  obtain ⟨⟨kind, detail, note, children⟩, d⟩ := v
  rw [Visit.below, ← List.map_reverse, foldl_visit _ _ (Nat.le_max_right _ _),
    Node.sizeAll_reverse, Node.depthAll_reverse]
  simp only [visit, Node.size, Node.depth, mk.injEq]
  omega

theorem add_eq (m : Metrics) (pending : List (Visit α)) : m.add pending = pending.foldl visit m := by
  fun_induction add m pending with
  | case1 m => rfl
  | case2 m v rest ih => rw [ih, List.foldl_append, visit_below, List.foldl_cons]

end Metrics

/-- The measures of a tree are its size and its depth. -/
theorem Node.measure_eq (n : Node α) : n.measure = ⟨n.size, n.depth⟩ := by
  rw [measure, Metrics.add_eq, List.foldl_cons, List.foldl_nil, Metrics.visit]
  simp

end Stylesheet
