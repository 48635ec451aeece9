import Stylesheet.Proofs.Nesting.Level
import Stylesheet.Proofs.Placement.Rule

/-!
# The depth of values

A tree grows by blocks only: all that is read in a scope without blocks has a depth that depends on what
it is read as and not on the scope. The tokens of a block are one level deeper than its opener, so a
scope whose tokens are at most `room` levels deep has blocks whose tokens are less than that.
-/

namespace Stylesheet

namespace Node

variable {α : Type} {k : Nat}

theorem depthAll_le_iff {ns : List (Node α)} : depthAll ns ≤ k ↔ ∀ n ∈ ns, n.depth ≤ k := by
  induction ns with
  | nil => exact iff_of_true (Nat.zero_le k) (by rintro _ ⟨⟩)
  | cons n ns ih => rw [depthAll, Nat.max_le, ih, List.forall_mem_cons]

/-- A node is one deeper than what it holds. -/
theorem depth_le_succ {kind : NodeKind} {detail : Detail} {note : α} {children : List (Node α)}
    (h : ∀ n ∈ children, n.depth ≤ k) : (⟨kind, detail, note, children⟩ : Node α).depth ≤ k + 1 := by
  rw [depth, Nat.add_comm]
  exact Nat.succ_le_succ (depthAll_le_iff.mpr h)

end Node

namespace Scope

open Token

variable {p s : Scope} {o : Token} {room : Nat}

/-- No token of a scope is within more than so many blocks of that scope, with the one it opens. -/
def Shallow (room : Nat) (s : Scope) : Prop := ∀ i < s.tokens.length, level s.tokens i ≤ room

theorem IsPart.shallow (h : p.IsPart s) (hs : s.Shallow room) : p.Shallow room := by
  obtain ⟨front, back, split, -⟩ := h
  intro i hi
  refine Nat.le_trans (level_le_of_part hi) (split ▸ hs (front.length + i) ?_)
  rw [split, List.length_append, List.length_append]
  omega

/-- What a block holds is less deep than the block. -/
theorem enter_shallow (opens : o.kind.opensBlock = true) (h : Shallow room ⟨o :: s.tokens, s.next⟩) :
    ∃ less, room = less + 1 ∧ (s.enter o).inner.Shallow less := by
  have first : 1 ≤ room := by
    have own := h 0 (Nat.zero_lt_succ _)
    rwa [level, Token.holds, opens] at own
  obtain ⟨less, rfl⟩ : ∃ less, room = less + 1 := ⟨room - 1, by omega⟩
  have below (i : Nat) (hi : i < s.tokens.length) (held : o.holds (i + 1) = true) :
      level s.tokens i ≤ less := by
    have deep := h (i + 1) (Nat.succ_lt_succ hi)
    rw [level_cons, held] at deep
    simp only [Bool.toNat_true] at deep
    omega
  refine ⟨less, rfl, ?_⟩
  rw [enter]
  split
  · rename_i waits
    exact fun i hi => below i hi (holds_open opens waits)
  · rename_i n closed
    have held (i : Nat) (hi : i < n) : o.holds (i + 1) = true := (holds_closed opens closed).mpr hi
    split
    · rename_i nothing
      exact fun i hi => below i hi (held i (Nat.lt_of_lt_of_le hi (List.drop_eq_nil_iff.mp nothing)))
    · intro i hi
      rw [List.length_take] at hi
      have inside : i < (s.tokens.take n).length := by rwa [List.length_take]
      have same := level_left (s.tokens.drop n) inside
      rw [List.take_append_drop] at same
      rw [← same]
      exact below i (by omega) (held i (by omega))

end Scope

namespace Grammar

open Located Node Scope

variable {s : Scope} {t : Token} {room : Nat}

/-- A node that holds nothing fits anywhere. -/
theorem depth_leaf_le {kind : NodeKind} {detail : Detail} {span : Span} {k : Nat} :
    (leaf kind detail span).depth ≤ k + 1 := Nat.succ_le_succ (Nat.zero_le k)

theorem tokenNode_depth (t : Token) {k : Nat} : (tokenNode t).depth ≤ k + 1 := by
  obtain ⟨kind, detail, node⟩ := tokenNode_eq t
  rw [node]
  exact depth_leaf_le

theorem blockNode_depth {b : Block} {ns : List Located} {k : Nat} (h : ∀ n ∈ ns, n.depth ≤ k) :
    (blockNode b ns).depth ≤ k + 1 := by
  unfold blockNode
  split
  · exact depth_le_succ h
  · exact depth_le_succ h
  · exact depth_leaf_le
  · split
    · split
      · exact depth_leaf_le
      · exact depth_le_succ h
    · exact depth_le_succ h

/-- Each block of a value is one level of the tree. -/
theorem components_depth (h : s.Shallow room) : ∀ n ∈ (components s).value, n.depth ≤ room + 1 := by
  fun_induction components s generalizing room with
  | case1 => rintro _ ⟨⟩
  | case2 s t ts hs hk ih =>
    obtain ⟨tokens, next⟩ := s
    obtain rfl : tokens = t :: ts := hs
    exact ih (isPart_tail.shallow h)
  | case3 =>
    rename_i s t ts hs _ opens b inner node ihInner ihAfter
    obtain ⟨tokens, next⟩ := s
    obtain rfl : tokens = t :: ts := hs
    obtain ⟨less, rfl, shallow⟩ := enter_shallow (s := ⟨ts, next⟩) opens h
    refine List.forall_mem_cons.mpr ⟨blockNode_depth fun n hn => ?_, ihAfter ?_⟩
    · have held : n ∈ inner.value := (tidy_sublist _).mem hn
      unfold inner at held
      split at held
      · cases held
      · exact ihInner shallow n held
    · exact ((enter_after_isPart t _).trans isPart_tail).shallow h
  | case4 s t ts hs hk ho ih =>
    obtain ⟨tokens, next⟩ := s
    obtain rfl : tokens = t :: ts := hs
    exact List.forall_mem_cons.mpr ⟨tokenNode_depth t, ih (isPart_tail.shallow h)⟩

theorem componentSequence_depth (h : s.Shallow room) :
    ∀ n ∈ (componentSequence s).value, n.depth ≤ room + 1 :=
  fun n hn => components_depth h n ((tidy_sublist _).mem hn)

theorem sequenceNode_depth (kind : NodeKind) (h : s.Shallow room) :
    (sequenceNode kind s).value.depth ≤ room + 2 :=
  depth_le_succ (componentSequence_depth h)

theorem mediaQueries_depth (h : s.Shallow room) :
    ∀ n ∈ (mediaQueries s).value, n.depth ≤ room + 2 := by
  fun_induction mediaQueries s
  all_goals
    rename_i s cut part rest hp ih
    have later : ∀ n ∈ rest.value, n.depth ≤ room + 2 := by
      unfold rest
      split
      · rintro _ ⟨⟩
      · rename_i t ts ht
        exact ih t ts ht ((cut_rest_isPart ht).shallow h)
  · exact later
  · have query : part.IsPart s := (trim_isPart _).trans (cut_fst_isPart _ s)
    exact List.forall_mem_cons.mpr ⟨sequenceNode_depth .mediaQuery (query.shallow h), later⟩

theorem mediaQueryList_depth (h : s.Shallow room) : (mediaQueryList s).value.depth ≤ room + 3 :=
  depth_le_succ (mediaQueries_depth h)

theorem atRulePrelude_depth (name : String) (h : s.Shallow room) :
    (atRulePrelude name s).value.depth ≤ room + 4 := by
  have within {inner : Parsed Located} (h : inner.value.depth ≤ room + 3) :
      (⟨.atrulePrelude, .none, s.span, [inner.value]⟩ : Located).depth ≤ room + 4 :=
    depth_le_succ (List.forall_mem_singleton.mpr h)
  unfold atRulePrelude
  dsimp only
  split
  · exact within (mediaQueryList_depth h)
  · exact within (mediaQueryList_depth h)
  · exact within (Nat.le_succ_of_le (sequenceNode_depth .condition h))
  · exact within (Nat.le_succ_of_le (sequenceNode_depth .condition h))
  · exact Nat.le_trans (sequenceNode_depth .atrulePrelude h) (by omega)

/-- A declaration holds its value, which holds components. -/
theorem declaration_depth (h : s.Shallow room) : (declaration s).value.depth ≤ room + 3 := by
  have trimmed := (trim_isPart s).shallow h
  unfold declaration
  dsimp only
  generalize s.trim = s at *
  split
  · exact depth_leaf_le
  · rename_i t ts ht
    split
    · exact depth_leaf_le
    · split
      · exact depth_leaf_le
      · rename_i colon after hc
        split
        · exact depth_leaf_le
        · have part : (splitImportant (trim ⟨after, s.next⟩)).1.IsPart s :=
            ((splitImportant_isPart _).trans (trim_isPart _)).trans (follows_significant ht hc).isPart
          refine depth_le_succ (List.forall_mem_singleton.mpr ?_)
          split
          · exact depth_leaf_le
          · exact depth_le_succ (componentSequence_depth (part.shallow trimmed))

end Grammar

end Stylesheet
