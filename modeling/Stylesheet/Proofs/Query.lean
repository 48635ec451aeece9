import Stylesheet.Proofs.Element
import Stylesheet.Proofs.Matching

/-!
# Queries

A query that may visit all nodes of the tree that a JSON value describes lists exactly the elements
that some supported selector of its list matches, in document order. One that may not visit all nodes
fails with the measure of the first node too many.
-/

namespace Stylesheet

/-! ### Compiled selectors -/

namespace Selector

variable {α : Type}

namespace Partial

/-- As many compounds as combinators have been completed, and none of them is empty. -/
structure Balanced (p : Partial) : Prop where
  length_eq : p.compounds.length = p.combinators.length
  nonempty : ∀ c ∈ p.compounds, c ≠ []

theorem Balanced.note {p : Partial} (b : p.Balanced) (kind : NodeKind) (cause : Unsupported) :
    (p.note kind cause).Balanced := ⟨b.length_eq, b.nonempty⟩

theorem Balanced.endCompound {p : Partial} (b : p.Balanced) (h : p.current ≠ [])
    (c : Combinator) : (p.endCompound c).Balanced := by
  constructor
  · simp [Partial.endCompound, b.length_eq]
  · intro x hx
    obtain hx | hx := List.mem_append.mp hx
    · exact b.nonempty x hx
    · rwa [List.mem_singleton.mp hx]

theorem Balanced.combine {p : Partial} (b : p.Balanced) (symbol : String) :
    (p.combine symbol).Balanced := by
  rw [Partial.combine]
  split
  · exact b.note _ _
  · rename_i h
    have hne : p.current ≠ [] := by simpa using h
    split
    · exact b.endCompound hne _
    · exact b.endCompound hne _
    · exact (b.endCompound hne _).note _ _

theorem Balanced.read {p : Partial} (b : p.Balanced) (n : Node α) : (p.read n).Balanced := by
  rw [Partial.read]
  split
  · exact b.combine _
  · split
    · exact ⟨b.length_eq, b.nonempty⟩
    · exact b.note _ _

theorem Balanced.foldl {p : Partial} (b : p.Balanced) (ns : List (Node α)) :
    (ns.foldl Partial.read p).Balanced := by
  induction ns generalizing p with
  | nil => exact b
  | cons n ns ih => exact ih (b.read n)

/-- A selector that ends well has a compound more than combinators. -/
theorem Balanced.finish {p : Partial} (b : p.Balanced) (h : p.finish.unsupported = []) :
    p.finish.compounds.length = p.finish.combinators.length + 1 ∧
      ∀ c ∈ p.finish.compounds, c ≠ [] := by
  unfold Partial.finish at h ⊢
  split
  · rename_i hc
    refine ⟨by simp [b.length_eq], ?_⟩
    intro x hx
    obtain hx | hx := List.mem_append.mp hx
    · exact b.nonempty x hx
    · rw [List.mem_singleton.mp hx]
      simpa using hc
  · rename_i hc
    rw [if_neg hc] at h
    split at h <;> simp [Partial.note] at h

end Partial

/-- Supported selectors are compiled into a compound more than combinators, none of them empty. -/
theorem wellFormed_ofNode (i : Nat) (n : Node α) (h : (ofNode i n).supported) :
    (ofNode i n).WellFormed := by
  have b : ({} : Partial).Balanced := ⟨rfl, by simp⟩
  have hu : (n.children.foldl Partial.read {}).finish.unsupported = [] := by
    simpa [supported, ofNode] using h
  obtain ⟨hl, hne⟩ := (b.foldl n.children).finish hu
  exact ⟨hl, hne⟩

end Selector

theorem SelectorList.wellFormed_of_mem_ofText {text : String} {s : Selector}
    (hs : s ∈ (SelectorList.ofText text).selectors) (h : s.supported) : s.WellFormed := by
  obtain ⟨i, hi, rfl⟩ := List.mem_mapIdx.mp hs
  exact Selector.wellFormed_ofNode i _ h

/-! ### Answers -/

namespace SelectorList

/-- Some supported selector of the list matches the node at position `p`. -/
def Selects (l : SelectorList) (root : Element) (p : Nat) : Prop :=
  ∃ s ∈ l.selectors, s.supported ∧ s.Matches root p

section Answers

variable {l : SelectorList} {root : Element} {index : TreeIndex} {p : Nat}

theorem Selects.isElementAt (h : l.Selects root p) : root.IsElementAt p := by
  obtain ⟨s, -, -, hm⟩ := h
  obtain ⟨-, e, -, he, helem, -⟩ := Selector.MatchesThrough.satisfied hm
  exact ⟨e, he, helem⟩

theorem isMatchOfAny_iff (d : index.Describes root)
    (w : ∀ s ∈ l.selectors, s.supported → s.WellFormed) :
    index.isMatchOfAny l p = true ↔ l.Selects root p := by
  simp only [TreeIndex.isMatchOfAny, List.any_eq_true, Selects]
  exact exists_congr fun s => and_congr_right fun hs => d.isMatch_iff (w s hs)

/-- An element is listed by its position, and positions are listed once and in order. -/
theorem mem_elements_iff (d : index.Describes root) : p ∈ index.elements ↔ root.IsElementAt p := by
  rw [TreeIndex.elements, List.mem_filter, d.isElementAt_iff, List.mem_range]
  refine and_iff_right_of_imp ?_
  rintro ⟨e, he, -⟩
  rw [← d.getElem?] at he
  exact (Array.getElem?_eq_some_iff.mp he).1

theorem sorted_elements : index.elements.Pairwise (· < ·) :=
  List.Pairwise.filter _ List.pairwise_lt_range

end Answers

/-- A query without `strict` on a JSON value, of which the tree shows all that matters. If all nodes of
the tree may be visited, it finds the positions of exactly the nodes that some supported selector
matches, in document order and each of them once, and testing one position says whether it is among
these. If fewer nodes may be visited than the tree has, both fail with the measure of the first node
past the limit. -/
theorem query_eq_selects (tree : Json) (text : String) (limit : Option Nat) :
    let root := Element.ofJson tree
    let list := SelectorList.ofText text
    let options : QueryOptions := { strict := false, maxVisitedNodes := limit }
    root.Shows tree ∧
    ((∀ l, limit = some l → root.size ≤ l) →
      ∃ found, list.query root options = .ok found ∧ found.Pairwise (· < ·) ∧
        (∀ p, p ∈ found ↔ list.Selects root p) ∧
        ∀ p, list.matchesAt root p options = .ok (decide (p ∈ found))) ∧
    ∀ l, limit = some l → l < root.size →
      list.query root options = .error (.budget ⟨.maxNodes, l, l + 1⟩) ∧
        ∀ p, list.matchesAt root p options = .error (.budget ⟨.maxNodes, l, l + 1⟩) := by
  intro root list options
  refine ⟨Element.ofJson_shows tree, fun within => ?_, ?_⟩
  · obtain ⟨index, hbuild, hn, hp⟩ := TreeIndex.build_eq_ok within
    have d : index.Describes root := ⟨hn, hp⟩
    have hindex : SelectorList.index root options = .ok index := by
      simp [SelectorList.index, options, hbuild]
    have hany : ∀ p, index.isMatchOfAny list p = true ↔ list.Selects root p :=
      fun p => isMatchOfAny_iff d fun s hs => wellFormed_of_mem_ofText hs
    refine ⟨index.elements.filter (index.isMatchOfAny list), ?_,
      sorted_elements.filter _, ?_, ?_⟩
    · simp [query, checkStrict, options, hindex, bind, Except.bind]
    · intro p
      rw [List.mem_filter, mem_elements_iff d, hany]
      exact and_iff_right_of_imp Selects.isElementAt
    · intro p
      have hmem : (index.isElementAt p && index.isMatchOfAny list p) =
          decide (p ∈ index.elements.filter (index.isMatchOfAny list)) := by
        rw [Bool.eq_iff_iff, Bool.and_eq_true, decide_eq_true_eq, List.mem_filter,
          mem_elements_iff d, d.isElementAt_iff]
      simp [matchesAt, checkStrict, options, hindex, bind, Except.bind, hmem]
  · rintro l rfl above
    have hindex : SelectorList.index root options = .error (.budget ⟨.maxNodes, l, l + 1⟩) := by
      simp [SelectorList.index, options, TreeIndex.build_eq_error above]
    refine ⟨?_, fun p => ?_⟩
    · simp [query, checkStrict, options, hindex, bind, Except.bind]
    · simp [matchesAt, checkStrict, options, hindex, bind, Except.bind]

end SelectorList

end Stylesheet
