import Stylesheet.Proofs.Depth.Value

/-!
# The depth of selectors

A list of selectors within a pseudo-class takes three levels of the tree: that of the pseudo-class, that
of the list and that of each selector in it. It stands in a block, so selectors grow by three levels for
each block.
-/

namespace Stylesheet.Grammar

open Located Node Scope

variable {limit room : Nat} {s rest after argument : Scope} {t colon : Token} {kind : NodeKind}
variable {name : String} {span : Span} {n : Located}

/-! ### Arguments -/

/-- The argument of a pseudo selector is a part of what a block in the scope holds. -/
def ArgumentIn (argument s : Scope) : Prop :=
  ∃ (o : Token) (r : Scope), IsPart ⟨o :: r.tokens, r.next⟩ s ∧ o.kind.opensBlock = true ∧
    argument.IsPart (r.enter o).inner

theorem ArgumentIn.mono (h : ArgumentIn argument s) (part : s.IsPart rest) :
    ArgumentIn argument rest := by
  obtain ⟨o, r, block, opens, inner⟩ := h
  exact ⟨o, r, block.trans part, opens, inner⟩

theorem ArgumentIn.shallow (h : ArgumentIn argument s) (hs : s.Shallow room) :
    ∃ less, room = less + 1 ∧ argument.Shallow less := by
  obtain ⟨o, r, block, opens, inner⟩ := h
  obtain ⟨less, rfl, shallow⟩ := enter_shallow opens (block.shallow hs)
  exact ⟨less, rfl, inner.shallow shallow⟩

theorem pseudoNamed_argument {k : NodeKind}
    (h : pseudoNamed limit k colon s = .ok (.functional kind name span argument, after)) :
    ArgumentIn argument s := by
  unfold pseudoNamed at h
  split at h
  · cases h
  · rename_i t ts hs
    split at h
    · cases h
    · rename_i opens
      dsimp only at h
      split at h
      · cases h
      · cases h
        refine ⟨t, ⟨ts, s.next⟩, ?_, by rw [opens]; rfl, trim_isPart _⟩
        rw [← hs]
        exact .refl s
    · cases h

theorem pseudoSelector_argument
    (h : pseudoSelector limit t rest = .ok (.functional kind name span argument, after)) :
    ArgumentIn argument rest := by
  unfold pseudoSelector at h
  split at h
  · rename_i second ts hs
    split at h
    · exact (pseudoNamed_argument h).mono (isPart_rest hs)
    · exact pseudoNamed_argument h
  · exact pseudoNamed_argument h

/-- Only pseudo selectors have arguments. -/
theorem simpleSelector_argument
    (h : simpleSelector limit t rest = .ok (.functional kind name span argument, after)) :
    ArgumentIn argument rest := by
  unfold simpleSelector at h
  split at h
  · cases h
  · cases h
  · unfold attributeSelector at h
    dsimp only at h
    split at h
    · cases h
    · obtain ⟨_, -, h⟩ := bind_eq_ok_iff.mp h
      cases h
  · exact pseudoSelector_argument h
  · split at h
    · cases h
    · cases h
    · unfold classSelector at h
      split at h
      · cases h
      · split at h <;> cases h
    · cases h
  · cases h

/-! ### Lists of selectors and the parts of a selector -/

/-- Reading a list of selectors answers with trees of a depth that its blocks allow. -/
def ListShallow (limit : Nat) (s : Scope) : Prop :=
  ∀ ns room, selectors limit s = .ok ns → s.Shallow room → ∀ n ∈ ns, n.depth ≤ 3 * room + 2

/-- Reading the parts of a selector answers with trees of a depth that its blocks allow. -/
def PartsShallow (limit : Nat) (kind : Option NodeKind) (space : Option Token) (s : Scope) : Prop :=
  ∀ ns room, selectorParts limit kind space s = .ok ns → s.Shallow room →
    ∀ n ∈ ns, n.depth ≤ 3 * room + 1

theorem descendant_depth (last : Option NodeKind) (space : Option Token) :
    ∀ n ∈ descendant last space, n.depth ≤ 3 * room + 1 := by
  unfold descendant
  split
  · split
    · rintro _ ⟨⟩
    · exact List.forall_mem_singleton.mpr depth_leaf_le
  · rintro _ ⟨⟩

/-- A simple selector is three levels deeper than the selectors that it takes. -/
theorem finish_depth {p : Simple} (hx : simpleSelector limit t rest = .ok (p, after))
    (h : p.finish limit = .ok n) (hs : rest.Shallow room)
    (list : ∀ kind name span argument, p = .functional kind name span argument →
      (kind = .pseudoClassSelector && takesSelectors name) = true →
        argument.tokens.isEmpty = false → ListShallow limit argument) :
    n.depth ≤ 3 * room + 1 := by
  obtain ⟨last, -, spans⟩ := simpleSelector_readOff hx
  cases spans with
  | node kind detail =>
    cases h
    exact depth_leaf_le
  | @functional kind name argument inner =>
    obtain ⟨less, rfl, shallow⟩ := (simpleSelector_argument hx).shallow hs
    rw [Simple.finish] at h
    obtain ⟨child, hc, h⟩ := bind_eq_ok_iff.mp h
    cases h
    suffices below : child.depth ≤ 3 * less + 3 from
      Nat.le_trans (depth_le_succ (List.forall_mem_singleton.mpr below)) (by omega)
    unfold argumentNode at hc
    split at hc
    · rename_i takes
      split at hc
      · cases hc
      · rename_i he
        obtain ⟨items, hi, hc⟩ := bind_eq_ok_iff.mp hc
        cases hc
        exact depth_le_succ (list _ _ _ _ rfl takes (by simpa using he) items less hi shallow)
    · cases hc
      exact depth_leaf_le

theorem selectors_shallow_all : (∀ s, ListShallow limit s) ∧
    ∀ kind space s, PartsShallow limit kind space s := by
  refine selectors_induction limit ?empty ?nonempty ?done ?space ?comment ?combinator ?failed
    ?simple
  case empty =>
    intro s hp ns room h
    rw [selectors, if_pos hp] at h
    cases h
  case nonempty =>
    intro s hp parts later ns room h hs
    rw [selectors_nonempty hp] at h
    obtain ⟨children, hc, h⟩ := bind_eq_ok_iff.mp h
    obtain ⟨more, hr, h⟩ := bind_eq_ok_iff.mp h
    cases h
    have part := (trim_isPart _).trans (cut_fst_isPart (· = .comma) s)
    refine List.forall_mem_cons.mpr ⟨depth_le_succ (parts children room hc (part.shallow hs)), ?_⟩
    split at hr
    · cases hr
      rintro _ ⟨⟩
    · rename_i t ts ht
      exact later t ts ht more room hr ((cut_rest_isPart ht).shallow hs)
  case done =>
    intro kind space next ns room h _
    rw [selectorParts] at h
    cases h
    rintro _ ⟨⟩
  case space =>
    intro kind space t ts next hk ih ns room h hs
    rw [selectorParts_space hk] at h
    exact ih ns room h (isPart_tail.shallow hs)
  case comment =>
    intro kind space t ts next hk hc ih ns room h hs
    rw [selectorParts_comment hk hc] at h
    exact ih ns room h (isPart_tail.shallow hs)
  case combinator =>
    intro kind space t ts next name last after hk hc hx ih ns room h hs
    rw [selectorParts_combinator hk hc hx] at h
    obtain ⟨rest, hr, h⟩ := bind_eq_ok_iff.mp h
    cases h
    have part := (explicitCombinator_follows hx).isPart
    refine List.forall_mem_cons.mpr ⟨?_, ih rest room hr (part.shallow hs)⟩
    exact depth_leaf_le
  case failed =>
    intro kind space t ts next e hk hc hn hx ns room h
    rw [selectorParts_simple hk hc hn, hx] at h
    cases h
  case simple =>
    intro kind space t ts next p after hk hc hn hx list parts ns room h hs
    rw [selectorParts_simple hk hc hn, hx] at h
    obtain ⟨_, ⟨⟩, h⟩ := bind_eq_ok_iff.mp h
    obtain ⟨n, hfinish, h⟩ := bind_eq_ok_iff.mp h
    obtain ⟨rest, hrest, h⟩ := bind_eq_ok_iff.mp h
    cases h
    obtain ⟨_, follows, -⟩ := simpleSelector_readOff hx
    have own := finish_depth hx hfinish (isPart_tail.shallow hs) list
    have later := parts n hfinish rest room hrest (follows.isPart.shallow hs)
    exact List.forall_mem_append.mpr
      ⟨descendant_depth kind space, List.forall_mem_cons.mpr ⟨own, later⟩⟩

theorem selectorList_depth (h : selectorList limit s = .ok n) (hs : s.Shallow room) :
    n.depth ≤ 3 * room + 3 := by
  obtain ⟨items, hi, h⟩ := bind_eq_ok_iff.mp h
  cases h
  exact depth_le_succ (selectors_shallow_all.1 s items room hi hs)

theorem selector_depth (h : selector limit s = .ok n) (hs : s.Shallow room) :
    n.depth ≤ 3 * room + 2 := by
  obtain ⟨children, hc, h⟩ := bind_eq_ok_iff.mp h
  cases h
  exact depth_le_succ (selectors_shallow_all.2 none none s children room hc hs)

/-- Text that is no selector is not deep at all. -/
theorem orRaw_depth {r : SelectorResult Located} {k : Nat} (h : ∀ n, r = .ok n → n.depth ≤ k + 1) :
    (orRaw s r).value.depth ≤ k + 1 := by
  cases r with
  | ok n => exact h n rfl
  | error e => exact depth_leaf_le

end Stylesheet.Grammar
