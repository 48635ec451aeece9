import Stylesheet.Grammar.Value
import Stylesheet.Proofs.Placement.Node

/-!
# Values are placed

Components stand in their scope one after the other, and dropping white space keeps that. Every
sequence of components, and every prelude made of them, is therefore placed where its scope is.
-/

namespace Stylesheet.Grammar

open Located Scope

variable {source : String} {s : Scope} {t : Token} {hi : Nat}

theorem tidyAfter_sublist {α : Type} (gap : Bool) (ns : List (Node α)) :
    (tidyAfter gap ns).Sublist ns := by
  induction ns generalizing gap with
  | nil => exact List.Sublist.slnil
  | cons n ns ih =>
    rw [tidyAfter]
    split
    · split
      · exact (ih _).cons_cons n
      · exact (ih _).cons n
    · exact (ih _).cons_cons n

theorem tidy_sublist {α : Type} (ns : List (Node α)) : (tidy ns).Sublist ns :=
  tidyAfter_sublist false ns

theorem tokenNode_eq (t : Token) : ∃ kind detail, tokenNode t = leaf kind detail t.span := by
  rw [tokenNode]
  split <;> exact ⟨_, _, rfl⟩

theorem blockNode_eq (b : Block) (ns : List Located) :
    ∃ kind detail, blockNode b ns = ⟨kind, detail, b.span, []⟩ ∨
      blockNode b ns = ⟨kind, detail, b.span, ns⟩ := by
  unfold blockNode
  split
  · exact ⟨_, _, .inr rfl⟩
  · exact ⟨_, _, .inr rfl⟩
  · exact ⟨_, _, .inl rfl⟩
  · split
    · split
      · exact ⟨_, _, .inl rfl⟩
      · exact ⟨_, _, .inr rfl⟩
    · exact ⟨_, _, .inr rfl⟩

theorem blockNode_note (b : Block) (ns : List Located) : (blockNode b ns).note = b.span := by
  obtain ⟨_, _, heq | heq⟩ := blockNode_eq b ns <;> rw [heq]

/-- A block in front of a scope spans a part of the text. -/
theorem enter_liesIn (h : LiesIn source ⟨t :: s.tokens, s.next⟩) :
    (s.enter t).span.LiesIn source := by
  obtain ⟨hstop, -, -⟩ := enter_bounds h
  obtain ⟨last, hlast, heq⟩ := enter_stop_mem t s
  have first := h.token_span List.mem_cons_self
  rw [Block.span, enter_opener]
  refine ⟨Nat.le_trans t.start_le_stop hstop, first.edge_start, ?_⟩
  rw [heq]
  exact (h.token_span hlast).edge_stop

theorem enter_stop_le (ends : EndsBy ⟨t :: s.tokens, s.next⟩ hi) : (s.enter t).stop ≤ hi := by
  obtain ⟨last, hlast, heq⟩ := enter_stop_mem t s
  exact heq ▸ ends last hlast

/-- A block node is placed if what it holds is placed inside the block. -/
theorem blockNode_placed {ns : List Located} (h : LiesIn source ⟨t :: s.tokens, s.next⟩)
    (inner : PlacedIn source t.stop (s.enter t).stop ns) :
    Placed source (blockNode (s.enter t) ns) := by
  have lies := enter_liesIn h
  obtain ⟨kind, detail, heq | heq⟩ := blockNode_eq (s.enter t) ns
  · rw [heq]
    exact placed_leaf lies
  · rw [heq]
    refine placed_iff.mpr ⟨lies, inner.mono ?_ (Nat.le_refl _)⟩
    rw [Block.span, enter_opener]
    exact t.start_le_stop

/-- Components stand in their scope one after the other. -/
theorem components_placed (h : s.LiesIn source) (ends : s.EndsBy hi) :
    PlacedIn source s.start hi (components s).value := by
  fun_induction components s generalizing hi with
  | case1 => exact placedIn_nil
  | case2 s t ts hs hk ih =>
    obtain ⟨tokens, next⟩ := s
    obtain rfl : tokens = t :: ts := hs
    have tail : IsPart ⟨ts, next⟩ ⟨t :: ts, next⟩ := isPart_tail
    exact (ih (tail.liesIn h) (tail.endsBy ends)).mono (tail.start_le h) (Nat.le_refl _)
  | case3 =>
    rename_i s t ts hs _ _ b inner node ih1 ih2
    obtain ⟨tokens, next⟩ := s
    obtain rfl : tokens = t :: ts := hs
    have tail : IsPart ⟨ts, next⟩ ⟨t :: ts, next⟩ := isPart_tail
    have hinner : b.inner.IsPart ⟨ts, next⟩ := enter_inner_isPart t _
    have hafter : b.after.IsPart ⟨t :: ts, next⟩ := (enter_after_isPart t _).trans tail
    obtain ⟨-, hends, hnext⟩ := enter_bounds (s := ⟨ts, next⟩) h
    have content : PlacedIn source t.stop b.stop (tidy inner.value) := by
      refine PlacedIn.sublist ?_ (tidy_sublist _)
      unfold inner
      split
      · exact placedIn_nil
      · have hlo := hinner.start_le (tail.liesIn h)
        exact (ih1 ((hinner.trans tail).liesIn h) hends).mono
          (Nat.le_trans h.stop_le_start hlo) (Nat.le_refl _)
    have placed : Placed source node := blockNode_placed h content
    have note : node.note = b.span := blockNode_note b _
    rw [Parsed.cons_value, placedIn_cons, note]
    refine ⟨?_, enter_stop_le ends, placed, ?_⟩
    · rw [Block.span, enter_opener]
      exact Nat.le_refl _
    · exact (ih2 (hafter.liesIn h) (hafter.endsBy ends)).mono hnext (Nat.le_refl _)
  | case4 s t ts hs hk ho ih =>
    obtain ⟨tokens, next⟩ := s
    obtain rfl : tokens = t :: ts := hs
    have tail : IsPart ⟨ts, next⟩ ⟨t :: ts, next⟩ := isPart_tail
    obtain ⟨kind, detail, heq⟩ := tokenNode_eq t
    rw [Parsed.cons_value, heq, placedIn_cons]
    refine ⟨Nat.le_refl _, ends t List.mem_cons_self, ?_, ?_⟩
    · exact placed_leaf (h.token_span List.mem_cons_self)
    · exact (ih (tail.liesIn h) (tail.endsBy ends)).mono h.stop_le_start (Nat.le_refl _)

theorem componentSequence_placed (h : s.LiesIn source) (ends : s.EndsBy hi) :
    PlacedIn source s.start hi (componentSequence s).value :=
  (components_placed h ends).sublist (tidy_sublist _)

/-- A node for a scope is placed if its children are placed in the scope. -/
theorem placed_scope {kind : NodeKind} {detail : Detail} {ns : List Located}
    (h : s.LiesIn source) (children : PlacedIn source s.start s.stop ns) :
    Placed source ⟨kind, detail, s.span, ns⟩ :=
  placed_iff.mpr ⟨h.span, children⟩

@[simp] theorem sequenceNode_note (kind : NodeKind) (s : Scope) :
    (sequenceNode kind s).value.note = s.span := rfl

theorem sequenceNode_placed (kind : NodeKind) (h : s.LiesIn source) :
    Placed source (sequenceNode kind s).value :=
  placed_scope h (componentSequence_placed h h.endsBy_stop)

theorem mediaQueries_placed (h : s.LiesIn source) (ends : s.EndsBy hi) :
    PlacedIn source s.start hi (mediaQueries s).value := by
  fun_induction mediaQueries s
  all_goals
    rename_i s cut part rest hp ih
    have found : cut.2.IsPart s := cut_snd_isPart _ s
    have hrest : PlacedIn source cut.2.start hi rest.value := by
      unfold rest
      split
      · exact placedIn_nil
      · rename_i t ts ht
        have tail : IsPart ⟨ts, s.next⟩ cut.2 :=
          isPart_rest (s := cut.2) ht
        exact (ih t ts ht ((tail.trans found).liesIn h) ((tail.trans found).endsBy ends)).mono
          (tail.start_le (found.liesIn h)) (Nat.le_refl _)
  · exact hrest.mono (found.start_le h) (Nat.le_refl _)
  · have query : part.IsPart s := (trim_isPart _).trans (cut_fst_isPart _ s)
    have nonempty : part.tokens ≠ [] := by simpa using hp
    have placed := sequenceNode_placed .mediaQuery (query.liesIn h)
    rw [Parsed.cons_value, placedIn_cons, sequenceNode_note]
    refine ⟨query.start_le h, (query.endsBy ends).stop_le nonempty, placed, hrest.mono ?_ ?_⟩
    · exact ((trim_isPart _).endsBy (cut_fst_endsBy _ h)).stop_le nonempty
    · exact Nat.le_refl _

theorem mediaQueryList_placed (h : s.LiesIn source) : Placed source (mediaQueryList s).value :=
  placed_scope h (mediaQueries_placed h h.endsBy_stop)

theorem atRulePrelude_placed (name : String) (h : s.LiesIn source) :
    Placed source (atRulePrelude name s).value ∧ (atRulePrelude name s).value.note = s.span := by
  have within (inner : Parsed Located) (placed : Placed source inner.value)
      (note : inner.value.note = s.span) :
      Placed source
        (inner.map fun n => (⟨.atrulePrelude, .none, s.span, [n]⟩ : Located)).value := by
    refine placed_scope h (placedIn_singleton placed ?_ ?_)
    · rw [note]
      exact Nat.le_refl _
    · rw [note]
      exact Nat.le_refl _
  rw [atRulePrelude]
  dsimp only
  split
  · exact ⟨within _ (mediaQueryList_placed h) rfl, rfl⟩
  · exact ⟨within _ (mediaQueryList_placed h) rfl, rfl⟩
  · exact ⟨within _ (sequenceNode_placed _ h) rfl, rfl⟩
  · exact ⟨within _ (sequenceNode_placed _ h) rfl, rfl⟩
  · exact ⟨sequenceNode_placed _ h, rfl⟩

end Stylesheet.Grammar
