import Stylesheet.Proofs.TreeIndex
import Stylesheet.Query

/-!
# What selectors match

A selector matches a node if its compounds can be placed from right to left on the node and nodes
above it, as the combinators between them say. This is a relation on positions of a tree; the search
that answers queries decides it, although it takes up no pair of a compound and a node twice and ends
its walk to the root at the first ancestor that it has queued before.

Two invariants carry the search. Above a queued candidate of a descendant combinator everything is
queued too, so ending the walk loses nothing. And a queued candidate that matches is served by one
that is pending and belongs to the same compound or to one further left, so a candidate that was
queued before cannot be what is missing later.
-/

namespace Stylesheet

/-- The node at a position is there and is an element. -/
def Element.IsElementAt (root : Element) (p : Nat) : Prop :=
  ∃ e, root.nodes[p]? = some e ∧ e.isElement = true

/-- What a combinator asks of the positions `q` and `p` on its two sides. -/
def Combinator.Relates (root : Element) : Combinator → Nat → Nat → Prop
  | child, q, p => root.ChildAt q p
  | descendant, q, p => root.AncestorAt q p

namespace Selector

/-- The node at position `p` is an element that satisfies every simple selector of compound `k`. -/
def SatisfiedAt (s : Selector) (root : Element) (k p : Nat) : Prop :=
  ∃ c e, s.compounds[k]? = some c ∧ root.nodes[p]? = some e ∧ e.isElement = true ∧
    ∀ t ∈ c, t.test e = true

/-- The compounds up to `k` match the node at position `p` and elements above it. -/
def MatchesThrough (s : Selector) (root : Element) : Nat → Nat → Prop
  | 0, p => s.SatisfiedAt root 0 p
  | k + 1, p => s.SatisfiedAt root (k + 1) p ∧ ∃ c q, s.combinators[k]? = some c ∧
      c.Relates root q p ∧ root.IsElementAt q ∧ s.MatchesThrough root k q

/-- The selector matches the node at position `p`. -/
def Matches (s : Selector) (root : Element) (p : Nat) : Prop :=
  s.MatchesThrough root (s.compounds.length - 1) p

theorem MatchesThrough.satisfied {s : Selector} {root : Element} {k p : Nat}
    (h : s.MatchesThrough root k p) : s.SatisfiedAt root k p := by
  cases k with
  | zero => exact h
  | succ k => exact h.1

/-- What compiling guarantees of a selector that is supported. -/
structure WellFormed (s : Selector) : Prop where
  length_eq : s.compounds.length = s.combinators.length + 1
  nonempty : ∀ c ∈ s.compounds, c ≠ []

end Selector

namespace TreeIndex

/-- The index lists the nodes of a tree in pre-order, and parents are where the tree has them. -/
structure Describes (index : TreeIndex) (root : Element) : Prop where
  nodes_eq : index.nodes.toList = root.nodes
  parent?_iff : ∀ p q, index.parent? p = some q ↔ root.ChildAt q p

section Search

variable {index : TreeIndex} {root : Element} {s : Selector} (d : index.Describes root)

include d

theorem Describes.getElem? (p : Nat) : index.nodes[p]? = root.nodes[p]? := by
  rw [← d.nodes_eq, Array.getElem?_toList]

theorem Describes.isElementAt_iff {p : Nat} :
    index.isElementAt p = true ↔ root.IsElementAt p := by
  simp [isElementAt, Element.IsElementAt, d.getElem?, Option.any_eq_true]

theorem Describes.passes_iff (w : s.WellFormed) {k p : Nat} :
    index.passes s (k, p) = true ↔ s.SatisfiedAt root k p := by
  unfold passes Selector.SatisfiedAt
  rw [← d.getElem?]
  constructor
  · intro h
    split at h
    · rename_i c e hc he
      simp only [Element.passes, Bool.and_eq_true, List.all_eq_true] at h
      exact ⟨c, e, hc, he, h.1.2, h.2⟩
    · cases h
  · rintro ⟨c, e, hc, he, helem, htests⟩
    have hne : c ≠ [] := w.nonempty c (List.mem_of_getElem? hc)
    rw [hc, he]
    simp only [Element.passes, helem, List.all_eq_true.mpr htests, Bool.and_true,
      Bool.not_eq_true', List.isEmpty_eq_false_iff]
    exact hne

/-- Above a node stand its parent and what stands above the parent. -/
theorem Describes.ancestorAt_iff {p q r : Nat} (h : index.parent? p = some q) :
    root.AncestorAt r p ↔ r = q ∨ root.AncestorAt r q := by
  have unique : ∀ m, root.ChildAt m p → m = q := fun m hm =>
    Option.some.inj (((d.parent?_iff p m).mpr hm).symm.trans h)
  constructor
  · intro hr
    obtain ⟨m, hrm, hm⟩ := Relation.TransGen.tail'_iff.mp hr
    obtain rfl := unique m hm
    exact (Relation.reflTransGen_iff_eq_or_transGen.mp hrm).imp Eq.symm id
  · rintro (rfl | hr)
    · exact .single ((d.parent?_iff p r).mp h)
    · exact hr.tail ((d.parent?_iff p q).mp h)

theorem Describes.not_ancestorAt {p r : Nat} (h : index.parent? p = none) :
    ¬ root.AncestorAt r p := by
  intro hr
  obtain ⟨m, -, hm⟩ := Relation.TransGen.tail'_iff.mp hr
  rw [(d.parent?_iff p m).mpr hm] at h
  cases h

theorem Describes.ancestorAt_lt {p r : Nat} (h : root.AncestorAt r p) : r < p := by
  induction h with
  | single hc => exact parent?_lt ((d.parent?_iff _ _).mpr hc)
  | tail _ hc ih => exact Nat.lt_trans ih (parent?_lt ((d.parent?_iff _ _).mpr hc))

/-! ### Queueing -/

/-- Queued pairs for the compound `k` include every element above a queued one, as far as the walk
from position `p` can get there. -/
def ClosedAbove (root : Element) (queued : Queued) (k p : Nat) : Prop :=
  ∀ q r, (k, q) ∈ queued → root.AncestorAt q p → root.AncestorAt r q → root.IsElementAt r →
    (k, r) ∈ queued

/-- The walk queues elements above `p` only. -/
theorem Describes.mem_queueAncestors {k p : Nat} {queued : Queued} {x : Candidate}
    (hx : x ∈ (index.queueAncestors k p queued).1) :
    x.1 = k ∧ root.AncestorAt x.2 p ∧ root.IsElementAt x.2 := by
  fun_induction queueAncestors index k p queued with
  | case1 => cases hx
  | case2 p queued q h he _ above _ eq ih =>
    rw [eq] at ih
    obtain rfl | hx := List.mem_cons.mp hx
    · exact ⟨rfl, (d.ancestorAt_iff h).mpr (.inl rfl), d.isElementAt_iff.mp he⟩
    · obtain ⟨hk, ha, hr⟩ := ih hx
      exact ⟨hk, (d.ancestorAt_iff h).mpr (.inr ha), hr⟩
  | case3 p queued q h _ ih =>
    obtain ⟨hk, ha, hr⟩ := ih hx
    exact ⟨hk, (d.ancestorAt_iff h).mpr (.inr ha), hr⟩
  | case4 => cases hx

omit d in
theorem mem_queued_queueAncestors {k p : Nat} {queued : Queued} {x : Candidate} :
    x ∈ (index.queueAncestors k p queued).2 ↔
      x ∈ (index.queueAncestors k p queued).1 ∨ x ∈ queued := by
  fun_induction queueAncestors index k p queued with
  | case1 => simp
  | case2 p queued q _ _ _ above after eq ih =>
    rw [eq] at ih
    rw [ih, Std.HashSet.mem_insert, List.mem_cons, beq_iff_eq, eq_comm (a := (k, q)), or_left_comm,
      ← or_assoc]
  | case3 p queued q _ _ ih => exact ih
  | case4 => simp

/-- The walk leaves no element above `p` unqueued. -/
theorem Describes.queueAncestors_complete {k p r : Nat} {queued : Queued}
    (closed : ClosedAbove root queued k p) (hr : root.AncestorAt r p)
    (elem : root.IsElementAt r) : (k, r) ∈ (index.queueAncestors k p queued).2 := by
  fun_induction queueAncestors index k p queued with
  | case1 p queued q h he hq =>
    have hqueued : (k, q) ∈ queued := Std.HashSet.mem_iff_contains.mpr hq
    obtain rfl | hr := (d.ancestorAt_iff h).mp hr
    · exact hqueued
    · exact closed q r hqueued ((d.ancestorAt_iff h).mpr (.inl rfl)) hr elem
  | case2 p queued q h he _ above after eq ih =>
    rw [eq] at ih
    -- The pair just queued lies at the cursor, so the walk from there does not rely on it.
    have closed' : ClosedAbove root (queued.insert (k, q)) k q := by
      intro a b ha haq hb helem
      obtain heq | ha := Std.HashSet.mem_insert.mp ha
      · obtain rfl : q = a := congrArg Prod.snd (beq_iff_eq.mp heq)
        exact absurd (d.ancestorAt_lt haq) (Nat.lt_irrefl _)
      · exact Std.HashSet.mem_insert.mpr (.inr
          (closed a b ha ((d.ancestorAt_iff h).mpr (.inr haq)) hb helem))
    obtain rfl | hr := (d.ancestorAt_iff h).mp hr
    · have hmem : (k, r) ∈ (index.queueAncestors k r (queued.insert (k, r))).2 ↔ _ :=
        mem_queued_queueAncestors
      rw [eq] at hmem
      exact hmem.mpr (.inr Std.HashSet.mem_insert_self)
    · exact ih closed' hr
  | case3 p queued q h hne ih =>
    obtain rfl | hr := (d.ancestorAt_iff h).mp hr
    · exact absurd (d.isElementAt_iff.mpr elem) hne
    · exact ih (fun a b ha haq => closed a b ha ((d.ancestorAt_iff h).mpr (.inr haq))) hr
  | case4 p queued h => exact absurd hr (d.not_ancestorAt h)

/-- Queueing adds elements that the combinator leads to. -/
theorem Describes.mem_queue {c : Option Combinator} {k p : Nat} {queued : Queued} {x : Candidate}
    (hx : x ∈ (index.queue c k p queued).1) :
    ∃ c', c = some c' ∧ x.1 = k ∧ c'.Relates root x.2 p ∧ root.IsElementAt x.2 := by
  unfold queue at hx
  split at hx
  · unfold queueParent at hx
    split at hx
    · rename_i q h
      split at hx
      · rename_i hq
        obtain rfl := List.mem_singleton.mp hx
        rw [Bool.and_eq_true] at hq
        exact ⟨.child, rfl, rfl, (d.parent?_iff p q).mp h, d.isElementAt_iff.mp hq.1⟩
      · cases hx
    · cases hx
  · exact ⟨.descendant, rfl, d.mem_queueAncestors hx⟩
  · cases hx

omit d in
theorem mem_queued_queue {c : Option Combinator} {k p : Nat} {queued : Queued} {x : Candidate} :
    x ∈ (index.queue c k p queued).2 ↔ x ∈ (index.queue c k p queued).1 ∨ x ∈ queued := by
  unfold queue
  split
  · unfold queueParent
    split
    · split
      · rw [Std.HashSet.mem_insert, List.mem_singleton, beq_iff_eq, eq_comm]
      · simp
    · simp
  · exact mem_queued_queueAncestors
  · simp

/-- Queueing leaves out no element that the combinator leads to. -/
theorem Describes.queue_complete {c : Combinator} {k p q : Nat} {queued : Queued}
    (closed : c = .descendant → ClosedAbove root queued k p) (hq : c.Relates root q p)
    (elem : root.IsElementAt q) : (k, q) ∈ (index.queue (some c) k p queued).2 := by
  cases c with
  | child =>
    rw [mem_queued_queue]
    by_cases h : queued.contains (k, q)
    · exact .inr (Std.HashSet.mem_iff_contains.mpr h)
    · simp [queue, queueParent, (d.parent?_iff p q).mpr hq, d.isElementAt_iff.mpr elem, h]
  | descendant => exact d.queueAncestors_complete (closed rfl) hq elem

/-! ### Searching -/

/-- What a search keeps. -/
structure SearchInvariant (root : Element) (s : Selector) (queued : Queued)
    (pending : List Candidate) : Prop where
  /-- Everything above a queued candidate of a descendant combinator is queued. -/
  closed : ∀ k q r, s.combinators[k]? = some .descendant → (k, q) ∈ queued →
    root.AncestorAt r q → root.IsElementAt r → (k, r) ∈ queued
  /-- For a queued candidate that matches, one is pending that matches and is not to its right. -/
  served : ∀ k q, (k, q) ∈ queued → s.MatchesThrough root k q →
    ∃ k' q', (k', q') ∈ pending ∧ k' ≤ k ∧ s.MatchesThrough root k' q'

omit d in
/-- A pending candidate that fails may be dropped. -/
theorem SearchInvariant.drop {queued : Queued} {k p : Nat} {rest : List Candidate}
    (inv : SearchInvariant root s queued ((k, p) :: rest)) (fails : ¬ s.MatchesThrough root k p) :
    SearchInvariant root s queued rest := by
  refine ⟨inv.closed, ?_⟩
  intro j q hq hm
  obtain ⟨j', q', hmem, hle, hm'⟩ := inv.served j q hq hm
  obtain heq | hmem := List.mem_cons.mp hmem
  · cases heq
    exact absurd hm' fails
  · exact ⟨j', q', hmem, hle, hm'⟩

/-- A candidate that matches beyond the first compound has one to its left among those queued. -/
theorem Describes.exists_queued {queued : Queued} {pending : List Candidate} {k p : Nat}
    (inv : SearchInvariant root s queued pending) (hm : s.MatchesThrough root (k + 1) p) :
    ∃ q, (k, q) ∈ (index.queue s.combinators[k]? k p queued).2 ∧ s.MatchesThrough root k q := by
  obtain ⟨-, c, q, hc, hrel, elem, hq⟩ := hm
  refine ⟨q, ?_, hq⟩
  rw [hc]
  refine d.queue_complete ?_ hrel elem
  rintro rfl a b ha - hab hb
  exact inv.closed k a b hc ha hab hb

/-- Replacing a candidate by those to its left keeps the invariant. -/
theorem Describes.invariant_queue {queued : Queued} {k p : Nat} {rest : List Candidate}
    (inv : SearchInvariant root s queued ((k + 1, p) :: rest)) :
    SearchInvariant root s (index.queue s.combinators[k]? k p queued).2
      ((index.queue s.combinators[k]? k p queued).1 ++ rest) := by
  constructor
  · intro j q r hj hq hrq elem
    rw [mem_queued_queue] at hq
    obtain hq | hq := hq
    · obtain ⟨c, hc, hk, hrel, -⟩ := d.mem_queue hq
      obtain rfl : j = k := hk
      obtain rfl : c = .descendant := Option.some.inj (hc.symm.trans hj)
      rw [hj]
      refine d.queue_complete ?_ (Relation.TransGen.trans hrq hrel) elem
      intro _ a b ha _ hab hb
      exact inv.closed j a b hj ha hab hb
    · exact mem_queued_queue.mpr (.inr (inv.closed j q r hj hq hrq elem))
  · -- What is queued now is pending, and what was queued before is served by an old candidate,
    -- unless that is the one replaced; then one to its left serves.
    have old : ∀ j q, j ≤ k → (j, q) ∈ queued → s.MatchesThrough root j q →
        ∃ k' q', (k', q') ∈ (index.queue s.combinators[k]? k p queued).1 ++ rest ∧ k' ≤ j ∧
          s.MatchesThrough root k' q' := by
      intro j q hj hq hm
      obtain ⟨k', q', hmem, hle, hm'⟩ := inv.served j q hq hm
      obtain heq | hmem := List.mem_cons.mp hmem
      · cases heq
        omega
      · exact ⟨k', q', List.mem_append_right _ hmem, hle, hm'⟩
    intro j q hq hm
    rw [mem_queued_queue] at hq
    obtain hq | hq := hq
    · exact ⟨j, q, List.mem_append_left _ hq, Nat.le_refl _, hm⟩
    · obtain ⟨k', q', hmem, hle, hm'⟩ := inv.served j q hq hm
      obtain heq | hmem := List.mem_cons.mp hmem
      · cases heq
        obtain ⟨a, ha, hma⟩ := d.exists_queued inv hm'
        obtain ha | ha := mem_queued_queue.mp ha
        · exact ⟨k, a, List.mem_append_left _ ha, by omega, hma⟩
        · obtain ⟨k'', q'', hmem', hle', hm''⟩ := old k a (Nat.le_refl _) ha hma
          exact ⟨k'', q'', hmem', by omega, hm''⟩
      · exact ⟨k', q', List.mem_append_right _ hmem, hle, hm'⟩

/-- A search succeeds if and only if some pending candidate matches. -/
theorem Describes.search_iff (w : s.WellFormed) {queued : Queued} {pending : List Candidate}
    (inv : SearchInvariant root s queued pending) :
    index.search s queued pending = true ↔ ∃ x ∈ pending, s.MatchesThrough root x.1 x.2 := by
  fun_induction search index s queued pending with
  | case1 => simp
  | case2 queued p rest hp =>
    simp only [List.mem_cons, exists_eq_or_imp, true_iff]
    exact .inl ((d.passes_iff w).mp hp)
  | case3 queued p rest k next hp ih =>
    rw [ih (d.invariant_queue inv)]
    constructor
    · rintro ⟨⟨j, q⟩, hmem, hm⟩
      obtain hmem | hmem := List.mem_append.mp hmem
      · obtain ⟨c, hc, hk, hrel, elem⟩ := d.mem_queue hmem
        obtain rfl : j = k := hk
        exact ⟨(j + 1, p), List.mem_cons_self .., (d.passes_iff w).mp hp, c, q, hc, hrel, elem, hm⟩
      · exact ⟨(j, q), List.mem_cons_of_mem _ hmem, hm⟩
    · rintro ⟨⟨j, q⟩, hmem, hm⟩
      obtain heq | hmem := List.mem_cons.mp hmem
      · cases heq
        obtain ⟨a, ha, hma⟩ := d.exists_queued inv hm
        obtain ⟨k', q', hmem', -, hm'⟩ := (d.invariant_queue inv).served k a ha hma
        exact ⟨(k', q'), hmem', hm'⟩
      · exact ⟨(j, q), List.mem_append_right _ hmem, hm⟩
  | case4 queued k p rest hp ih =>
    have fails : ¬ s.MatchesThrough root k p := fun hm => hp ((d.passes_iff w).mpr hm.satisfied)
    rw [ih (inv.drop fails)]
    simp [fails]

/-- The search decides whether a selector matches. -/
theorem Describes.isMatch_iff {p : Nat} (w : s.supported → s.WellFormed) :
    index.isMatch s p = true ↔ s.supported ∧ s.Matches root p := by
  rw [isMatch]
  by_cases hs : s.supported
  · have hlen := (w hs).length_eq
    have hne : s.compounds.isEmpty = false := by
      cases hc : s.compounds with
      | nil => simp [hc] at hlen
      | cons => rfl
    -- Nothing but the start is queued, and no combinator stands after the last compound.
    have inv : SearchInvariant root s {(s.compounds.length - 1, p)}
        [(s.compounds.length - 1, p)] := by
      constructor
      · intro k q r hk hq
        obtain ⟨rfl, -⟩ : s.compounds.length - 1 = k ∧ p = q := by simpa using hq
        have := (List.getElem?_eq_some_iff.mp hk).1
        omega
      · intro k q hq hm
        obtain ⟨rfl, rfl⟩ : s.compounds.length - 1 = k ∧ p = q := by simpa using hq
        exact ⟨_, _, List.mem_singleton_self _, Nat.le_refl _, hm⟩
    simp only [hs, hne, Bool.not_false, Bool.and_self, Bool.true_and, true_and]
    rw [d.search_iff (w hs) inv]
    simp [Selector.Matches]
  · simp [hs]

end Search

end TreeIndex

end Stylesheet
