import Mathlib.Logic.Relation
import Stylesheet.TreeIndex

/-!
# Positions in a tree and its index

The nodes of a tree are numbered in pre-order, so a child stands right after its parent and the trees
of the siblings before it. The index that visits the nodes with a stack lists exactly these nodes with
exactly these parents, and a budget ends the visit if and only if the tree has more nodes than may be
visited.
-/

namespace Stylesheet

namespace Element

/-- The node at position `p` is a child of the node at position `q`: between the two stand the trees
of the children before it. -/
def ChildAt (root : Element) (q p : Nat) : Prop :=
  ∃ e before child after, root.nodes[q]? = some e ∧ e.children = before ++ child :: after ∧
    p = q + 1 + sizeAll before

/-- The node at position `q` is a proper ancestor of the node at position `p`. -/
def AncestorAt (root : Element) : Nat → Nat → Prop := Relation.TransGen root.ChildAt

mutual

theorem length_nodes : ∀ e : Element, e.nodes.length = e.size
  | ⟨_, _, _, children⟩ => by
    rw [nodes, size, List.length_cons, length_nodesAll children, Nat.add_comm]

theorem length_nodesAll : ∀ es : List Element, (nodesAll es).length = sizeAll es
  | [] => rfl
  | e :: es => by rw [nodesAll, sizeAll, List.length_append, length_nodes e, length_nodesAll es]

end

/-- Past the root a tree has the nodes of its children, one child after the other. -/
theorem nodesAll_getElem? {before after : List Element} {child : Element} {i : Nat}
    (h : i < child.size) :
    (nodesAll (before ++ child :: after))[sizeAll before + i]? = child.nodes[i]? := by
  rw [nodesAll_append, nodesAll, List.getElem?_append_right (by rw [length_nodesAll]; omega),
    length_nodesAll, Nat.add_sub_cancel_left,
    List.getElem?_append_left (by rw [length_nodes]; exact h)]

theorem nodes_getElem?_child {e child : Element} {before after : List Element} {i : Nat}
    (hc : e.children = before ++ child :: after) (h : i < child.size) :
    e.nodes[1 + sizeAll before + i]? = child.nodes[i]? := by
  rw [nodes_eq, hc, show 1 + sizeAll before + i = (sizeAll before + i) + 1 by omega,
    List.getElem?_cons_succ, nodesAll_getElem? h]

/-- Every node of a forest stands in one of its trees. -/
theorem exists_tree_of_lt {es : List Element} {i : Nat} (h : i < sizeAll es) :
    ∃ before child after j, es = before ++ child :: after ∧ j < child.size ∧
      i = sizeAll before + j := by
  induction es generalizing i with
  | nil => simp [sizeAll] at h
  | cons e es ih =>
    by_cases hi : i < e.size
    · exact ⟨[], e, es, i, rfl, hi, by simp [sizeAll]⟩
    · rw [sizeAll] at h
      obtain ⟨before, child, after, j, rfl, hj, hij⟩ := ih (i := i - e.size) (by omega)
      exact ⟨e :: before, child, after, j, rfl, hj, by rw [sizeAll]; omega⟩

theorem lt_size_of_getElem? {e n : Element} {i : Nat} (h : e.nodes[i]? = some n) : i < e.size := by
  rw [← length_nodes]
  exact (List.getElem?_eq_some_iff.mp h).1

/-- A child is the root's, or it stands with its parent in the tree of one of the root's children. -/
theorem childAt_iff {e : Element} {q p : Nat} :
    e.ChildAt q p ↔ ∃ before child after, e.children = before ++ child :: after ∧
      ((q = 0 ∧ p = 1 + sizeAll before) ∨ ∃ q' p', child.ChildAt q' p' ∧
        q = 1 + sizeAll before + q' ∧ p = 1 + sizeAll before + p') := by
  constructor
  · rintro ⟨n, before, child, after, hn, hc, rfl⟩
    match q with
    | 0 =>
      rw [nodes_eq, List.getElem?_cons_zero] at hn
      cases hn
      exact ⟨before, child, after, hc, .inl ⟨rfl, by omega⟩⟩
    | q + 1 =>
      have hq := lt_size_of_getElem? hn
      obtain ⟨front, tree, back, j, ht, hj, rfl⟩ :=
        exists_tree_of_lt (show q < sizeAll e.children by rw [size_eq] at hq; omega)
      rw [show sizeAll front + j + 1 = 1 + sizeAll front + j by omega,
        nodes_getElem?_child ht hj] at hn
      exact ⟨front, tree, back, ht, .inr ⟨j, j + 1 + sizeAll before,
        ⟨n, before, child, after, hn, hc, rfl⟩, by omega, by omega⟩⟩
  · rintro ⟨before, child, after, hc, ⟨rfl, rfl⟩ |
      ⟨q', p', ⟨n, front, tree, back, hn, ht, rfl⟩, rfl, rfl⟩⟩
    · exact ⟨e, before, child, after, by rw [nodes_eq]; rfl, hc, by omega⟩
    · refine ⟨n, front, tree, back, ?_, ht, by omega⟩
      rw [nodes_getElem?_child hc (lt_size_of_getElem? hn), hn]

mutual

/-- The positions of the parents of all nodes of a tree in pre-order. The root stands at `position`
and has the parent `parent`. -/
def parents (position : Nat) (parent : Option Nat) : Element → List (Option Nat)
  | ⟨_, _, _, children⟩ => parent :: parentsAll (position + 1) (some position) children

/-- The same for the trees of a list, whose roots have the same parent. -/
def parentsAll (position : Nat) (parent : Option Nat) : List Element → List (Option Nat)
  | [] => []
  | e :: es => parents position parent e ++ parentsAll (position + e.size) parent es

end

theorem parents_eq (position : Nat) (parent : Option Nat) (e : Element) :
    parents position parent e = parent :: parentsAll (position + 1) (some position) e.children := by
  cases e; rfl

mutual

theorem length_parents : ∀ (e : Element) (position : Nat) (parent : Option Nat),
    (parents position parent e).length = e.size
  | ⟨_, _, _, children⟩, position, parent => by
    rw [parents, size, List.length_cons, length_parentsAll children, Nat.add_comm]

theorem length_parentsAll : ∀ (es : List Element) (position : Nat) (parent : Option Nat),
    (parentsAll position parent es).length = sizeAll es
  | [], _, _ => rfl
  | e :: es, position, parent => by
    rw [parentsAll, sizeAll, List.length_append, length_parents e, length_parentsAll es]

end

/-- The node at position `p` in a list of trees has its parent at position `q`, where the first tree
stands at `position` and the roots of all trees have the parent `parent`. -/
def ParentIn (position : Nat) (parent : Option Nat) (es : List Element) (q p : Nat) : Prop :=
  ∃ before child after, es = before ++ child :: after ∧
    ((parent = some q ∧ p = sizeAll before) ∨ ∃ q' p', child.ChildAt q' p' ∧
      q = position + sizeAll before + q' ∧ p = sizeAll before + p')

theorem exists_childAt_iff {position q p : Nat} {e : Element} :
    (∃ q', e.ChildAt q' p ∧ q = position + q') ↔
      ∃ p', p = p' + 1 ∧ ParentIn (position + 1) (some position) e.children q p' := by
  constructor
  · rintro ⟨_, hat, rfl⟩
    obtain ⟨before, child, after, hc, ⟨rfl, rfl⟩ | ⟨q', p', h, rfl, rfl⟩⟩ := childAt_iff.mp hat
    · exact ⟨sizeAll before, by omega, before, child, after, hc, .inl ⟨rfl, rfl⟩⟩
    · exact ⟨sizeAll before + p', by omega, before, child, after, hc,
        .inr ⟨q', p', h, by omega, rfl⟩⟩
  · rintro ⟨_, rfl, before, child, after, hc, ⟨hq, rfl⟩ | ⟨q', p', h, rfl, rfl⟩⟩
    · cases hq
      exact ⟨0, childAt_iff.mpr ⟨before, child, after, hc, .inl ⟨rfl, by omega⟩⟩, rfl⟩
    · exact ⟨1 + sizeAll before + q', childAt_iff.mpr ⟨before, child, after, hc,
        .inr ⟨q', p', h, rfl, by omega⟩⟩, by omega⟩

/-- A node in a list of trees is the root of the first tree, or it stands below that root, or in one
of the other trees. -/
theorem parentIn_cons {position q p : Nat} {parent : Option Nat} {e : Element} {es : List Element} :
    ParentIn position parent (e :: es) q p ↔
      (parent = some q ∧ p = 0) ∨
        (∃ p', p = p' + 1 ∧ ParentIn (position + 1) (some position) e.children q p') ∨
        ∃ p', p = e.size + p' ∧ ParentIn (position + e.size) parent es q p' := by
  rw [← exists_childAt_iff]
  constructor
  · rintro ⟨before, child, after, hes, h⟩
    match before with
    | [] =>
      cases hes
      simp only [sizeAll, Nat.zero_add, Nat.add_zero] at h
      obtain h | ⟨q', p', hc, rfl, rfl⟩ := h
      · exact .inl h
      · exact .inr (.inl ⟨q', hc, rfl⟩)
    | b :: before =>
      obtain ⟨rfl, rfl⟩ := List.cons.inj hes
      rw [sizeAll] at h
      obtain ⟨hq, rfl⟩ | ⟨q', p', hc, rfl, rfl⟩ := h
      · exact .inr (.inr ⟨_, rfl, before, child, after, rfl, .inl ⟨hq, rfl⟩⟩)
      · exact .inr (.inr ⟨sizeAll before + p', by omega, before, child, after, rfl,
          .inr ⟨q', p', hc, by omega, rfl⟩⟩)
  · rintro (⟨hq, rfl⟩ | ⟨q', hc, rfl⟩ | ⟨p', rfl, before, child, after, rfl, h⟩)
    · exact ⟨[], e, es, rfl, .inl ⟨hq, rfl⟩⟩
    · exact ⟨[], e, es, rfl, .inr ⟨q', p, hc, rfl, by simp [sizeAll]⟩⟩
    · refine ⟨e :: before, child, after, rfl, ?_⟩
      rw [sizeAll]
      obtain ⟨hq, rfl⟩ | ⟨q', p'', hc, rfl, rfl⟩ := h
      · exact .inl ⟨hq, rfl⟩
      · exact .inr ⟨q', p'', hc, by omega, by omega⟩

/-- The list of parents says of every position where the parent stands. -/
theorem parentsAll_getElem?_iff (es : List Element) (position p q : Nat) (parent : Option Nat) :
    (parentsAll position parent es)[p]? = some (some q) ↔ ParentIn position parent es q p := by
  match es with
  | [] => simp [parentsAll, ParentIn]
  | e :: es =>
    have below := parentsAll_getElem?_iff e.children (position + 1)
    have beside := parentsAll_getElem?_iff es (position + e.size)
    have hlen := length_parents e position parent
    rw [parentIn_cons, parentsAll]
    by_cases hp : p < e.size
    · have hno : ¬ ∃ p', p = e.size + p' ∧ ParentIn (position + e.size) parent es q p' := by
        rintro ⟨p', rfl, _⟩; omega
      rw [List.getElem?_append_left (by omega), parents_eq]
      match p with
      | 0 => simp [hno]
      | p + 1 => simp [hno, below]
    · obtain ⟨p', rfl⟩ := Nat.exists_eq_add_of_le (Nat.le_of_not_lt hp)
      have hpos := e.size_pos
      have hno : ¬ ∃ p'', e.size + p' = p'' + 1 ∧
          ParentIn (position + 1) (some position) e.children q p'' := by
        rintro ⟨p'', hp'', h⟩
        have hlt := (List.getElem?_eq_some_iff.mp ((below _ _ _).mpr h)).1
        rw [length_parentsAll] at hlt
        rw [size_eq] at hp''
        omega
      rw [List.getElem?_append_right (by omega), hlen, Nat.add_sub_cancel_left, beside]
      have hroot : ¬ (parent = some q ∧ e.size + p' = 0) := by omega
      simp only [hroot, hno, false_or, Nat.add_left_cancel_iff, exists_eq_left']
termination_by sizeAll es
decreasing_by
  all_goals
    have := e.size_pos
    rw [sizeAll, size_eq]
    omega

/-- In a whole tree the parent of the node at `p` stands at `q` if and only if the former is a child
of the latter. -/
theorem parents_getElem?_iff {e : Element} {q p : Nat} :
    (parents 0 none e)[p]? = some (some q) ↔ e.ChildAt q p := by
  rw [parents_eq]
  match p with
  | 0 =>
    have hno : ¬ e.ChildAt q 0 := by
      rintro ⟨n, before, child, after, -, -, h⟩; omega
    simp [hno]
  | p + 1 =>
    rw [List.getElem?_cons_succ, parentsAll_getElem?_iff]
    have h : (∃ q', e.ChildAt q' (p + 1) ∧ q = 0 + q') ↔ _ := exists_childAt_iff
    simpa using h.symm

end Element

namespace TreeIndex

open Element hiding parents size

/-- The positions of the parents of all nodes in the trees that wait, the first of which will stand
at `position`. -/
def waitingParents (position : Nat) : List Waiting → List (Option Nat)
  | [] => []
  | (e, parent) :: rest =>
    Element.parents position parent e ++ waitingParents (position + e.size) rest

theorem waitingParents_append_of_siblings (position : Nat) (parent : Option Nat)
    (es : List Element) (rest : List Waiting) :
    waitingParents position (es.map (fun e => (e, parent)) ++ rest) =
      parentsAll position parent es ++ waitingParents (position + sizeAll es) rest := by
  induction es generalizing position with
  | nil => rfl
  | cons e es ih =>
    rw [List.map_cons, List.cons_append, waitingParents, ih, parentsAll, sizeAll, List.append_assoc,
      Nat.add_assoc]

/-- Visiting a node changes neither which parents are still to be listed nor their order. -/
theorem waitingParents_enqueue (e : Element) (position : Nat) (parent : Option Nat)
    (rest : List Waiting) :
    waitingParents position ((e, parent) :: rest) =
      parent :: waitingParents (position + 1) (enqueue e position rest) := by
  rw [waitingParents, parents_eq, enqueue, waitingParents_append_of_siblings, List.cons_append,
    Element.size_eq, Nat.add_assoc]

theorem nodesAll_enqueue (e : Element) (position : Nat) (parent : Option Nat)
    (rest : List Waiting) :
    nodesAll (((e, parent) :: rest).map (·.1)) =
      e :: nodesAll ((enqueue e position rest).map (·.1)) := by
  simp [nodesAll, enqueue, nodesAll_append, nodes_eq, Function.comp_def]

/-- Visiting all nodes that wait lists them, with their parents, after those listed before. -/
theorem visitAll_eq_ok {limit : Option Nat} {index : TreeIndex} {stack : List Waiting}
    (listed : ∀ x ∈ stack, index.Lists x.2)
    (within : ∀ l, limit = some l → index.size + load stack ≤ l) :
    ∃ done, visitAll limit index stack listed = .ok done ∧
      done.nodes.toList = index.nodes.toList ++ nodesAll (stack.map (·.1)) ∧
      done.parents.toList = index.parents.toList ++ waitingParents index.size stack := by
  fun_induction visitAll limit index stack listed with
  | case1 index => exact ⟨index, rfl, by simp [nodesAll], by simp [waitingParents]⟩
  | case2 index e parent rest listed exceeded h =>
    obtain ⟨hl, hlt, -, ha⟩ := Budget.enforce_eq_error_iff.mp h
    have := within _ hl
    rw [load_enqueue e index.size parent rest] at this
    omega
  | case3 index e parent rest listed h _ ih =>
    rw [load_enqueue e index.size parent rest] at within
    obtain ⟨done, hdone, hn, hp⟩ := ih fun l hl => by
      have := within l hl
      rw [size_push]
      omega
    refine ⟨done, hdone, ?_, ?_⟩
    · rw [hn, nodesAll_enqueue e index.size parent rest]
      simp [push]
    · rw [hp, waitingParents_enqueue, size_push]
      simp [push]

/-- The visit ends before the first node past the limit. -/
theorem visitAll_eq_error {l : Nat} {index : TreeIndex} {stack : List Waiting}
    (listed : ∀ x ∈ stack, index.Lists x.2) (below : index.size ≤ l)
    (above : l < index.size + load stack) :
    visitAll (some l) index stack listed = .error ⟨.maxNodes, l, l + 1⟩ := by
  generalize hlimit : some l = limit
  fun_induction visitAll limit index stack listed with
  | case1 index => simp [load, sizeAll] at above; omega
  | case2 index e parent rest listed exceeded h =>
    obtain ⟨hl, hlt, hb, ha⟩ := Budget.enforce_eq_error_iff.mp h
    obtain ⟨budget, limit', actual⟩ := exceeded
    obtain rfl : l = limit' := Option.some.inj (hlimit.trans hl)
    obtain rfl : index.size = l := by
      have : l < index.size + 1 := hlt
      omega
    rw [show budget = .maxNodes from hb, show actual = index.size + 1 from ha]
  | case3 index e parent rest listed h _ ih =>
    have hle := Budget.enforce_eq_ok_iff.mp h l hlimit.symm
    rw [load_enqueue e index.size parent rest] at above
    exact ih (by rw [size_push]; omega) (by rw [size_push]; omega)

variable {root : Element} {limit : Option Nat}

theorem load_root : load [(root, none)] = root.size := by
  simp [load, sizeAll]

/-- An index lists the nodes of a tree in pre-order, and a parent is where the tree has it. -/
theorem build_eq_ok (within : ∀ l, limit = some l → root.size ≤ l) :
    ∃ index, build limit root = .ok index ∧ index.nodes.toList = root.nodes ∧
      ∀ p q, index.parent? p = some q ↔ root.ChildAt q p := by
  have listed : ∀ x ∈ [((root, none) : Waiting)], empty.Lists x.2 := by simp [Lists]
  obtain ⟨index, h, hn, hp⟩ := visitAll_eq_ok listed
    (by simpa [empty, size, load_root] using within)
  refine ⟨index, h, by simpa [empty, nodesAll] using hn, ?_⟩
  intro p q
  have hparents : index.parents.toList = Element.parents 0 none root := by
    simpa [empty, size, waitingParents] using hp
  rw [parent?_eq_some_iff, ← Array.getElem?_toList, hparents, parents_getElem?_iff]

/-- A tree with more nodes than may be visited has no index. -/
theorem build_eq_error {l : Nat} (above : l < root.size) :
    build (some l) root = .error ⟨.maxNodes, l, l + 1⟩ :=
  visitAll_eq_error _ (Nat.zero_le l) (by simpa [empty, size, load_root] using above)

end TreeIndex

end Stylesheet
