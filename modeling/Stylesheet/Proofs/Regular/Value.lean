import Stylesheet.Proofs.Placement.Value
import Stylesheet.Proofs.Regular.Node

/-!
# Values are regular

What tidying leaves of the white space in a list separates two components, so all that holds a
sequence of components is regular, at every depth.
-/

namespace Stylesheet.Grammar

open Located Node

variable {α : Type} {s : Scope} {t : Token} {n : Located} {ns : List Located}

theorem regularTree_leaf {kind : NodeKind} {detail : Detail} {span : Span}
    (h : (leaf kind detail span).Regular) : (leaf kind detail span).RegularTree :=
  regularTree_iff.mpr ⟨h, by rintro _ ⟨⟩⟩

theorem regularTree_raw (s : Scope) : (raw s).RegularTree := regularTree_leaf rfl

/-- The solid components are those that are tidied as such. -/
theorem isSolid_iff {n : Node α} :
    n.IsSolid ↔ n.kind ≠ .whiteSpace ∧ isSeparator n = false := by
  rw [IsSolid, isSeparator]
  by_cases operator : n.kind = .operator
  · simp [isOperator, operator, and_assoc]
  · simp [isOperator, operator]

/-- Where a list continues, it does so with a component that leaves the white space before it. -/
theorem head_tidyAfter {ns : List (Node α)} (h : continues ns = true) :
    ∃ n, (tidyAfter false ns).head? = some n ∧ n.IsSolid := by
  induction ns with
  | nil => cases h
  | cons n ns ih =>
    rw [tidyAfter]
    by_cases white : n.kind = .whiteSpace
    · rw [if_pos white, Bool.false_and, if_neg Bool.false_ne_true]
      refine ih ?_
      rwa [continues, List.dropWhile_cons_of_pos (by rw [white]; rfl)] at h
    · rw [if_neg white]
      refine ⟨n, rfl, isSolid_iff.mpr ⟨white, ?_⟩⟩
      rw [continues, List.dropWhile_cons_of_neg (by simpa using white)] at h
      simpa using h

/-- White space is kept between two components only. The list goes on after a component if there is
a gap. -/
theorem tidyAfter_spaced (gap : Bool) (ns : List (Node α)) :
    (∀ n ∈ (tidyAfter gap ns).head?, n.kind = .whiteSpace → gap = true) ∧
      (∀ n ∈ (tidyAfter gap ns).getLast?, ¬n.kind = .whiteSpace) ∧
        (tidyAfter gap ns).IsChain fun a b =>
          (a.kind = .whiteSpace → b.IsSolid) ∧ (b.kind = .whiteSpace → a.IsSolid) := by
  induction ns generalizing gap with
  | nil =>
    rw [tidyAfter]
    exact ⟨by simp, by simp, .nil⟩
  | cons n ns ih =>
    rw [tidyAfter]
    split
    · rename_i white
      split
      · rename_i kept
        rw [Bool.and_eq_true] at kept
        obtain ⟨next, found, solid⟩ := head_tidyAfter kept.2
        obtain ⟨-, last, chain⟩ := ih false
        refine ⟨fun _ _ _ => kept.1, ?_, List.isChain_cons.mpr ⟨?_, chain⟩⟩
        · intro m hm
          rw [List.getLast?_cons, Option.mem_def, Option.some.injEq] at hm
          cases ends : (tidyAfter false ns).getLast? with
          | none =>
            rw [List.getLast?_eq_none_iff.mp ends] at found
            cases found
          | some l =>
            rw [ends, Option.getD_some] at hm
            exact hm ▸ last l ends
        · intro m hm
          obtain rfl : next = m := Option.some.inj (found.symm.trans hm)
          exact ⟨fun _ => solid, fun h => absurd h solid.1⟩
      · exact ih gap
    · rename_i other
      obtain ⟨first, last, chain⟩ := ih (!isSeparator n)
      refine ⟨?_, ?_, List.isChain_cons.mpr ⟨?_, chain⟩⟩
      · rintro m ⟨⟩ white
        exact absurd white other
      · intro m hm
        rw [List.getLast?_cons, Option.mem_def, Option.some.injEq] at hm
        cases ends : (tidyAfter (!isSeparator n) ns).getLast? with
        | none =>
          rw [ends, Option.getD_none] at hm
          exact hm ▸ other
        | some l =>
          rw [ends, Option.getD_some] at hm
          exact hm ▸ last l ends
      · exact fun m hm =>
          ⟨fun h => absurd h other,
            fun white => isSolid_iff.mpr ⟨other, by simpa using first m hm white⟩⟩

theorem tidy_spaced (ns : List (Node α)) : Spaced (tidy ns) := by
  obtain ⟨first, last, neighbours⟩ := tidyAfter_spaced false ns
  exact ⟨fun n hn white => Bool.false_ne_true (first n hn white), last, neighbours⟩

theorem tokenNode_regular (t : Token) :
    (tokenNode t).kind.isComponent = true ∧ (tokenNode t).RegularTree := by
  unfold tokenNode
  split <;> exact ⟨rfl, regularTree_leaf rfl⟩

/-- A block is regular if what it holds is and has been tidied. -/
theorem blockNode_regular (b : Block) (spaced : Spaced ns)
    (inner : ∀ n ∈ ns, n.kind.isComponent = true ∧ n.RegularTree) :
    (blockNode b ns).kind.isComponent = true ∧ (blockNode b ns).RegularTree := by
  have held : Spaced ns ∧ ∀ n ∈ ns, n.kind.isComponent = true :=
    ⟨spaced, fun n hn => (inner n hn).1⟩
  have below : ∀ n ∈ ns, n.RegularTree := fun n hn => (inner n hn).2
  unfold blockNode
  split
  · exact ⟨rfl, regularTree_iff.mpr ⟨held, below⟩⟩
  · exact ⟨rfl, regularTree_iff.mpr ⟨held, below⟩⟩
  · exact ⟨rfl, regularTree_leaf rfl⟩
  · split
    · split
      · exact ⟨rfl, regularTree_leaf rfl⟩
      · exact ⟨rfl, regularTree_iff.mpr ⟨held, below⟩⟩
    · exact ⟨rfl, regularTree_iff.mpr ⟨held, below⟩⟩

theorem components_regular (s : Scope) :
    ∀ n ∈ (components s).value, n.kind.isComponent = true ∧ n.RegularTree := by
  fun_induction components s with
  | case1 => rintro _ ⟨⟩
  | case2 _ _ _ _ _ ih => exact ih
  | case3 _ _ _ _ _ _ b inner _ ihInner ihAfter =>
    refine List.forall_mem_cons.mpr ⟨blockNode_regular b (tidy_spaced _) ?_, ihAfter⟩
    intro n hn
    have held : n ∈ inner.value := (tidy_sublist _).mem hn
    unfold inner at held
    split at held
    · cases held
    · exact ihInner n held
  | case4 _ t _ _ _ _ ih => exact List.forall_mem_cons.mpr ⟨tokenNode_regular t, ih⟩

theorem componentSequence_regular (s : Scope) :
    (Spaced (componentSequence s).value ∧
      ∀ n ∈ (componentSequence s).value, n.kind.isComponent = true) ∧
        ∀ n ∈ (componentSequence s).value, n.RegularTree := by
  have held (n) (hn : n ∈ (componentSequence s).value) := components_regular s n
    ((tidy_sublist _).mem hn)
  exact ⟨⟨tidy_spaced _, fun n hn => (held n hn).1⟩, fun n hn => (held n hn).2⟩

/-- A node that holds a sequence of components. -/
theorem sequenceNode_regular {kind : NodeKind}
    (h : kind = .value ∨ kind = .atrulePrelude ∨ kind = .mediaQuery ∨ kind = .condition)
    (s : Scope) : (sequenceNode kind s).value.RegularTree := by
  obtain ⟨held, inner⟩ := componentSequence_regular s
  refine regularTree_iff.mpr ⟨?_, inner⟩
  obtain rfl | rfl | rfl | rfl := h
  · exact held
  · exact ⟨held.1, fun c hc => .inl (held.2 c hc)⟩
  · exact held
  · exact held

theorem mediaQueries_regular (s : Scope) :
    ∀ n ∈ (mediaQueries s).value, n.kind = .mediaQuery ∧ n.RegularTree := by
  fun_induction mediaQueries s
  all_goals
    rename_i s cut part rest hp ih
    have later : ∀ n ∈ rest.value, n.kind = .mediaQuery ∧ n.RegularTree := by
      unfold rest
      split
      · rintro _ ⟨⟩
      · rename_i t ts ht
        exact ih t ts ht
  · exact later
  · exact List.forall_mem_cons.mpr ⟨⟨rfl, sequenceNode_regular (.inr (.inr (.inl rfl))) part⟩, later⟩

theorem mediaQueryList_regular (s : Scope) : (mediaQueryList s).value.RegularTree :=
  regularTree_iff.mpr ⟨fun n hn => (mediaQueries_regular s n hn).1,
    fun n hn => (mediaQueries_regular s n hn).2⟩

/-- A prelude that holds one node, which is no white space. -/
theorem singleton_spaced (h : n.kind ≠ .whiteSpace) : Spaced [n] :=
  ⟨by rintro _ ⟨⟩; exact h, by rintro _ ⟨⟩; exact h, .singleton n⟩

theorem atRulePrelude_regular (name : String) (s : Scope) :
    (atRulePrelude name s).value.kind = .atrulePrelude ∧
      (atRulePrelude name s).value.RegularTree := by
  have within (inner : Parsed Located)
      (kind : inner.value.kind = .mediaQueryList ∨ inner.value.kind = .condition)
      (regular : inner.value.RegularTree) :
      (inner.map fun n => (⟨.atrulePrelude, .none, s.span, [n]⟩ : Located)).value.RegularTree := by
    refine regularTree_iff.mpr ⟨⟨singleton_spaced ?_, ?_⟩, List.forall_mem_singleton.mpr regular⟩
    · intro white
      rw [white] at kind
      obtain kind | kind := kind <;> cases kind
    · exact List.forall_mem_singleton.mpr (.inr kind)
  have list := within (mediaQueryList s) (.inl rfl) (mediaQueryList_regular s)
  have condition := within (sequenceNode .condition s) (.inr rfl)
    (sequenceNode_regular (.inr (.inr (.inr rfl))) s)
  unfold atRulePrelude
  dsimp only
  split
  · exact ⟨rfl, list⟩
  · exact ⟨rfl, list⟩
  · exact ⟨rfl, condition⟩
  · exact ⟨rfl, condition⟩
  · exact ⟨rfl, sequenceNode_regular (.inr (.inl rfl)) s⟩

end Stylesheet.Grammar
