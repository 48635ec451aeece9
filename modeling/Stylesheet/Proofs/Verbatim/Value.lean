import Stylesheet.Proofs.Placement.Value
import Stylesheet.Proofs.Verbatim.Node

/-!
# Values are verbatim

A component is read from one token, or from the tokens of a block. The node of a token holds its
characters, less the mark of its kind; a block in curly brackets is kept as it is.
-/

namespace Stylesheet.Grammar

open Located Scope

variable {source : String} {s : Scope} {t : Token} {ts : List Token} {next : Nat}

theorem dropLast_append {front : List Char} {text : String} {c : Char}
    (h : text.toList = front ++ [c]) :
    text = String.ofList text.toList.dropLast ++ String.ofList [c] := by
  rw [← String.ofList_append, h, List.dropLast_concat, ← h, String.ofList_toList]

theorem append_tail {rest : List Char} {text : String} {c : Char} (h : text.toList = c :: rest) :
    text = String.ofList [c] ++ String.ofList text.toList.tail := by
  rw [← String.ofList_append, h, List.tail_cons, List.singleton_append, ← h, String.ofList_toList]

theorem split_append (text : String) :
    text = (Token.Numeral.split text).1 ++ (Token.Numeral.split text).2 := by
  rw [Token.Numeral.split, ← String.ofList_append, List.take_append_drop, String.ofList_toList]

/-- The node of a token holds what the token covers. -/
theorem tokenNode_verbatim (h : Legible source ⟨t :: ts, next⟩) :
    Verbatim source false (tokenNode t) := by
  have slice := h.lies.slice?_head
  have spelt := h.spelt t List.mem_cons_self
  have leaf_verbatim {kind : NodeKind} {detail : Detail}
      (spells : (leaf kind detail t.span).Spells false t.text) :
      Verbatim source false (leaf kind detail t.span) :=
    verbatim_leaf (readsAt_of_slice? slice spells)
  unfold tokenNode
  split
  case h_1 => exact leaf_verbatim trivial
  case h_2 => exact leaf_verbatim rfl
  case h_3 => exact leaf_verbatim rfl
  case h_4 hk =>
    obtain ⟨front, text⟩ := spelt.percentage hk
    exact leaf_verbatim ⟨_, rfl, dropLast_append text⟩
  case h_5 => exact leaf_verbatim ⟨_, _, rfl, split_append t.text⟩
  case h_6 => exact leaf_verbatim trivial
  case h_7 => exact leaf_verbatim trivial
  case h_8 hk =>
    obtain ⟨rest, text⟩ := spelt.hash hk
    exact leaf_verbatim ⟨_, rfl, append_tail text⟩
  case h_13 => exact leaf_verbatim ⟨_, rfl, fun _ => rfl⟩
  all_goals exact leaf_verbatim rfl

/-- A block is verbatim if what it holds is. -/
theorem blockNode_verbatim {ns : List Located} (h : LiesIn source ⟨t :: s.tokens, s.next⟩)
    (inner : ∀ n ∈ ns, Verbatim source false n) :
    Verbatim source false (blockNode (s.enter t) ns) := by
  unfold blockNode
  split
  · exact verbatim_node (fun _ _ => trivial) rfl inner
  · exact verbatim_node (fun _ _ => trivial) rfl inner
  · have start : (s.enter t).span.start = t.start := congrArg Token.start (enter_opener t s)
    have slice : Text.slice? source (s.enter t).span.start (s.enter t).stop =
        some (Token.sourceText (s.enter t).tokens) := start ▸ h.slice?_enter
    exact verbatim_leaf (readsAt_of_slice? slice ⟨_, rfl, fun _ => rfl⟩)
  · split
    · split
      · exact verbatim_leaf fun _ _ => trivial
      · exact verbatim_node (fun _ _ => trivial) rfl inner
    · exact verbatim_node (fun _ _ => trivial) rfl inner

theorem components_verbatim (h : s.Legible source) :
    ∀ n ∈ (components s).value, Verbatim source false n := by
  fun_induction components s with
  | case1 => rintro _ ⟨⟩
  | case2 s t ts hs hk ih =>
    obtain ⟨tokens, next⟩ := s
    obtain rfl : tokens = t :: ts := hs
    exact ih h.tail
  | case3 =>
    rename_i s t ts hs _ _ b inner node ih1 ih2
    obtain ⟨tokens, next⟩ := s
    obtain rfl : tokens = t :: ts := hs
    have content : ∀ n ∈ tidy inner.value, Verbatim source false n := by
      intro n hn
      have held : n ∈ inner.value := (tidy_sublist _).mem hn
      unfold inner at held
      split at held
      · cases held
      · exact ih1 (h.tail.part (enter_inner_isPart t ⟨ts, next⟩)) n held
    refine List.forall_mem_cons.mpr ⟨blockNode_verbatim (s := ⟨ts, next⟩) h.lies content, ?_⟩
    exact ih2 (h.tail.part (enter_after_isPart t ⟨ts, next⟩))
  | case4 s t ts hs hk ho ih =>
    obtain ⟨tokens, next⟩ := s
    obtain rfl : tokens = t :: ts := hs
    exact List.forall_mem_cons.mpr ⟨tokenNode_verbatim h, ih h.tail⟩

theorem componentSequence_verbatim (h : s.Legible source) :
    ∀ n ∈ (componentSequence s).value, Verbatim source false n :=
  fun n hn => components_verbatim h n ((tidy_sublist _).mem hn)

/-- A node that holds a sequence of components. -/
theorem sequenceNode_verbatim {kind : NodeKind}
    (hk : kind = .value ∨ kind = .atrulePrelude ∨ kind = .mediaQuery ∨ kind = .condition)
    (h : s.Legible source) : Verbatim source false (sequenceNode kind s).value := by
  refine verbatim_node (fun _ _ => ?_) rfl (componentSequence_verbatim h)
  obtain rfl | rfl | rfl | rfl := hk <;> trivial

theorem mediaQueries_verbatim (h : s.Legible source) :
    ∀ n ∈ (mediaQueries s).value, Verbatim source false n := by
  fun_induction mediaQueries s
  all_goals
    rename_i s cut part rest hp ih
    have later : ∀ n ∈ rest.value, Verbatim source false n := by
      unfold rest
      split
      · rintro _ ⟨⟩
      · rename_i t ts ht
        exact ih t ts ht (h.part (cut_rest_isPart ht))
  · exact later
  · have legible := h.part ((trim_isPart _).trans (cut_fst_isPart (· = .comma) s))
    exact List.forall_mem_cons.mpr
      ⟨sequenceNode_verbatim (.inr (.inr (.inl rfl))) legible, later⟩

theorem mediaQueryList_verbatim (h : s.Legible source) :
    Verbatim source false (mediaQueryList s).value :=
  verbatim_node (fun _ _ => trivial) rfl (mediaQueries_verbatim h)

theorem atRulePrelude_verbatim (name : String) (h : s.Legible source) :
    Verbatim source false (atRulePrelude name s).value := by
  have within {inner : Parsed Located} (hi : Verbatim source false inner.value) :
      Verbatim source false
        (inner.map fun n => (⟨.atrulePrelude, .none, s.span, [n]⟩ : Located)).value :=
    verbatim_node (fun _ _ => trivial) rfl (List.forall_mem_singleton.mpr hi)
  have list := within (mediaQueryList_verbatim h)
  have condition := within (sequenceNode_verbatim (.inr (.inr (.inr rfl))) h)
  unfold atRulePrelude
  dsimp only
  split
  · exact list
  · exact list
  · exact condition
  · exact condition
  · exact sequenceNode_verbatim (.inr (.inl rfl)) h

end Stylesheet.Grammar
