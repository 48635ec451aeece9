import Stylesheet.Proofs.Grammar
import Stylesheet.Proofs.Placement.Node

/-!
# Selectors are placed

Every simple selector and combinator is read off the front of a scope: it starts with the first
token, stops with the last one read, and what follows that token is still to be read. White space
that becomes a combinator stands before the compound that it leads to.
-/

namespace Stylesheet.Scope

variable {source : String} {s after : Scope} {t last : Token} {n : Nat}

/-- What follows a token in a scope. -/
def Follows (s : Scope) (last : Token) (after : Scope) : Prop :=
  ∃ front, s.tokens = front ++ last :: after.tokens ∧ after.next = s.next

theorem follows_head (t : Token) (s : Scope) : Follows ⟨t :: s.tokens, s.next⟩ t s :=
  ⟨[], rfl, rfl⟩

theorem Follows.cons (h : s.Follows last after) (t : Token) :
    Follows ⟨t :: s.tokens, s.next⟩ last after := by
  obtain ⟨front, hs, hn⟩ := h
  exact ⟨t :: front, by simp [hs], hn⟩

/-- The first token behind another that is neither white space nor a comment. -/
theorem follows_significant {ts after : List Token} (hs : s.tokens = t :: ts)
    (h : Token.significant ts = last :: after) : s.Follows last ⟨after, s.next⟩ := by
  refine ⟨t :: ts.takeWhile fun t => t.kind.isTrivia, ?_, rfl⟩
  rw [hs, List.cons_append, ← h, Token.significant_append]

theorem Follows.mem (h : s.Follows last after) : last ∈ s.tokens := by
  obtain ⟨front, hs, -⟩ := h
  simp [hs]

theorem Follows.isPart (h : s.Follows last after) : after.IsPart s := by
  obtain ⟨front, hs, hn⟩ := h
  exact ⟨front ++ [last], [], by simp [hs], hn⟩

theorem Follows.stop_le (h : s.Follows last after) (hs : s.LiesIn source) :
    last.stop ≤ after.start := by
  obtain ⟨front, ht, hn⟩ := h
  rw [LiesIn, ht] at hs
  obtain ⟨m, -, right⟩ := Token.Run.append_iff.mp hs
  obtain ⟨-, -, -, rest⟩ := Token.Run.cons_iff.mp right
  rw [start, hn, rest.startOf_eq]
  exact last.stop_le_reach

/-- The bytes from the first token of a scope to the end of another one. -/
theorem LiesIn.span_to (h : LiesIn source ⟨t :: s.tokens, s.next⟩)
    (hl : last ∈ t :: s.tokens) : Span.LiesIn source ⟨t.start, last.stop⟩ := by
  have first := h.token_span List.mem_cons_self
  have final := h.token_span hl
  exact ⟨Nat.le_trans (h.start_le hl) last.start_le_stop, first.edge_start, final.edge_stop⟩

end Stylesheet.Scope

namespace Stylesheet.Grammar

open Located Scope

variable {source : String} {limit : Nat} {s rest after : Scope} {t last colon : Token} {p : Simple}

/-- A simple selector that spans the tokens from `first` to `last`; an argument that is still to be
read stands between brackets in `rest`, the second of which is `last`. -/
inductive Simple.Spans (first : Token) (rest : Scope) (last : Token) : Simple → Prop
  | node (kind : NodeKind) (detail : Detail) :
    Spans first rest last (.node (leaf kind detail ⟨first.start, last.stop⟩))
  | functional (kind : NodeKind) (name : String) {argument inner : Scope}
      (part : argument.IsPart inner) (within : inner.IsPart rest)
      (closed : inner.next = last.start) :
    Spans first rest last (.functional kind name ⟨first.start, last.stop⟩ argument)

theorem Simple.Spans.mono {first : Token} (h : p.Spans first s last) (part : s.IsPart rest) :
    p.Spans first rest last := by
  cases h with
  | node kind detail => exact .node kind detail
  | functional kind name hpart within closed =>
    exact .functional kind name hpart (within.trans part) closed

/-- What reading a simple selector off the front of a scope answers. -/
def ReadOff (t : Token) (rest : Scope) (p : Simple) (after : Scope) : Prop :=
  ∃ last, Follows ⟨t :: rest.tokens, rest.next⟩ last after ∧ p.Spans t rest last

theorem explicitCombinator_follows {name : String}
    (h : explicitCombinator t rest = some (name, last, after)) :
    Follows ⟨t :: rest.tokens, rest.next⟩ last after := by
  unfold explicitCombinator at h
  split at h
  · cases h
    exact follows_head t rest
  · cases h
    exact follows_head t rest
  · cases h
    exact follows_head t rest
  · split at h
    · rename_i bar more hs
      split at h
      · cases h
        exact ⟨[t], by simp [hs], rfl⟩
      · cases h
    · cases h
  · cases h

theorem typeSelector_readOff (t : Token) (rest : Scope) :
    ReadOff t rest (.node (typeSelector t rest).1) (typeSelector t rest).2 := by
  unfold typeSelector
  dsimp only
  split
  · rename_i bar name more hs
    split
    · exact ⟨name, ⟨[t, bar], by simp [hs], rfl⟩, .node _ _⟩
    · exact ⟨t, follows_head t rest, .node _ _⟩
  · exact ⟨t, follows_head t rest, .node _ _⟩

theorem attributeSelector_readOff (h : attributeSelector limit t rest = .ok (p, after)) :
    ReadOff t rest p after := by
  unfold attributeSelector at h
  dsimp only at h
  split at h
  · cases h
  · rename_i c hc
    obtain ⟨ht, -, hn⟩ := enter_closer t rest hc
    obtain ⟨d, -, h⟩ := bind_eq_ok_iff.mp h
    cases h
    have hspan : (rest.enter t).span = ⟨t.start, c.stop⟩ := by
      simp [Block.span, Block.stop, hc]
    refine ⟨c, ⟨t :: (rest.enter t).inner.tokens, by simp [ht], hn⟩, ?_⟩
    rw [hspan]
    exact .node _ _

/-- The name and the argument of a pseudo selector are read off what follows its colon. -/
theorem pseudoNamed_readOff {kind : NodeKind}
    (h : pseudoNamed limit kind colon s = .ok (p, after)) :
    ∃ last, s.Follows last after ∧ p.Spans colon s last := by
  unfold pseudoNamed at h
  split at h
  · cases h
  · rename_i t ts hs
    obtain ⟨tokens, next⟩ := s
    obtain rfl : tokens = t :: ts := hs
    split at h
    · cases h
      exact ⟨t, ⟨[], rfl, rfl⟩, .node _ _⟩
    · dsimp only at h
      split at h
      · cases h
      · rename_i c hc
        cases h
        obtain ⟨ht, hin, hn⟩ := enter_closer t ⟨ts, next⟩ hc
        have within := (enter_inner_isPart t ⟨ts, next⟩).trans (isPart_tail (t := t))
        refine ⟨c, ⟨t :: (enter t ⟨ts, next⟩).inner.tokens, congrArg (t :: ·) ht, hn⟩, ?_⟩
        exact .functional _ _ (trim_isPart _) within hin
    · cases h

theorem pseudoSelector_readOff (h : pseudoSelector limit t rest = .ok (p, after)) :
    ReadOff t rest p after := by
  unfold pseudoSelector at h
  split at h
  · rename_i second ts hs
    split at h
    · obtain ⟨last, follows, spans⟩ := pseudoNamed_readOff h
      have tail : IsPart ⟨ts, rest.next⟩ rest := isPart_rest hs
      have whole := (follows.cons second).cons t
      rw [← hs] at whole
      exact ⟨last, whole, spans.mono tail⟩
    · obtain ⟨last, follows, spans⟩ := pseudoNamed_readOff h
      exact ⟨last, follows.cons t, spans⟩
  · obtain ⟨last, follows, spans⟩ := pseudoNamed_readOff h
    exact ⟨last, follows.cons t, spans⟩

theorem classSelector_readOff (h : classSelector t rest = .ok (p, after)) :
    ReadOff t rest p after := by
  unfold classSelector at h
  split at h
  · cases h
  · rename_i name ts hs
    split at h
    · cases h
      exact ⟨name, ⟨[t], by simp [hs], rfl⟩, .node _ _⟩
    · cases h

/-- Every simple selector is read off the front of its scope. -/
theorem simpleSelector_readOff (h : simpleSelector limit t rest = .ok (p, after)) :
    ReadOff t rest p after := by
  have named (h : Except.ok (ε := SyntaxError)
      (Simple.node (typeSelector t rest).1, (typeSelector t rest).2) = .ok (p, after)) :
      ReadOff t rest p after := by
    cases h
    exact typeSelector_readOff t rest
  unfold simpleSelector at h
  split at h
  · exact named h
  · cases h
    exact ⟨t, follows_head t rest, .node _ _⟩
  · exact attributeSelector_readOff h
  · exact pseudoSelector_readOff h
  · split at h
    · exact named h
    · cases h
      exact ⟨t, follows_head t rest, .node _ _⟩
    · exact classSelector_readOff h
    · cases h
  · cases h

/-! ### Lists -/

variable {hi lo : Nat} {ns : List Located}

/-- White space since the last part, between an offset and the scope that is still to be read. -/
def SpaceBefore (source : String) (lo : Nat) (space : Option Token) (s : Scope) : Prop :=
  ∀ w, space = some w → w.span.LiesIn source ∧ lo ≤ w.start ∧ w.stop ≤ s.start

theorem spaceBefore_none : SpaceBefore source lo none s := by
  intro w h
  cases h

/-- The combinator that white space stands for may go in front of the part that follows it. -/
theorem descendant_placedIn {n : Located} {last : Option NodeKind} {space : Option Token}
    (before : SpaceBefore source lo space s) (start : n.note.start = s.start) (hlo : lo ≤ s.start)
    (placed : PlacedIn source s.start hi (n :: ns)) :
    PlacedIn source lo hi (descendant last space ++ n :: ns) := by
  unfold descendant
  split
  · rename_i w
    obtain ⟨lies, hw, hs⟩ := before w rfl
    split
    · exact placed.mono hlo (Nat.le_refl _)
    · obtain ⟨-, hstop, hn, -⟩ := placedIn_cons.mp placed
      have := hn.liesIn.le
      refine placedIn_cons.mpr ⟨hw, ?_, placed_leaf lies, placed.mono hs (Nat.le_refl _)⟩
      change w.stop ≤ hi
      omega
  · exact placed.mono hlo (Nat.le_refl _)

/-- Reading a list of selectors in `s` answers with placed nodes. -/
def ListPlaced (source : String) (limit : Nat) (s : Scope) : Prop :=
  ∀ ns hi, selectors limit s = .ok ns → s.LiesIn source → s.EndsBy hi →
    PlacedIn source s.start hi ns

/-- Reading the parts of a selector in `s` answers with placed nodes. -/
def PartsPlaced (source : String) (limit : Nat) (kind : Option NodeKind) (space : Option Token)
    (s : Scope) : Prop :=
  ∀ ns lo hi, selectorParts limit kind space s = .ok ns → s.LiesIn source → s.EndsBy hi →
    lo ≤ s.start → SpaceBefore source lo space s → PlacedIn source lo hi ns

/-- A simple selector is placed if its argument, when it is a list of selectors, is. -/
theorem finish_placed {n : Located} (h : p.finish limit = .ok n) (spans : p.Spans t rest last)
    (hs : LiesIn source ⟨t :: rest.tokens, rest.next⟩) (hl : last ∈ t :: rest.tokens)
    (list : ∀ kind name span argument, p = .functional kind name span argument →
      (kind = .pseudoClassSelector && takesSelectors name) = true →
        argument.tokens.isEmpty = false → ListPlaced source limit argument) :
    Placed source n ∧ n.note = ⟨t.start, last.stop⟩ := by
  have hspan := hs.span_to hl
  cases spans with
  | node kind detail =>
    cases h
    exact ⟨placed_leaf hspan, rfl⟩
  | @functional kind name argument inner part within closed =>
    have inWhole := (part.trans within).trans (isPart_tail (t := t))
    have lies := inWhole.liesIn hs
    have hlo : t.start ≤ argument.start := inWhole.start_le hs
    have hhi : argument.stop ≤ last.stop := by
      have := lies.stop_le_next
      have := part.next_le ((within.trans isPart_tail).liesIn hs)
      have := last.start_le_stop
      omega
    rw [Simple.finish] at h
    obtain ⟨child, hc, h⟩ := bind_eq_ok_iff.mp h
    cases h
    suffices hchild : Placed source child ∧ child.note = argument.span by
      refine ⟨placed_iff.mpr ⟨hspan, placedIn_singleton hchild.1 ?_ ?_⟩, rfl⟩
      · rw [hchild.2]
        exact hlo
      · rw [hchild.2]
        exact hhi
    unfold argumentNode at hc
    split at hc
    · rename_i takes
      split at hc
      · cases hc
      · rename_i he
        obtain ⟨items, hi, hc⟩ := bind_eq_ok_iff.mp hc
        cases hc
        have placed := list _ _ _ _ rfl takes (by simpa using he) items _ hi lies lies.endsBy_stop
        exact ⟨placed_iff.mpr ⟨lies.span, placed⟩, rfl⟩
    · cases hc
      exact ⟨placed_raw lies, rfl⟩

/-- One more simple selector goes in front of the parts that follow it. -/
theorem simple_placed {kind : Option NodeKind} {space : Option Token} {ts : List Token} {next : Nat}
    (hx : simpleSelector limit t ⟨ts, next⟩ = .ok (p, after))
    (list : ∀ kind name span argument, p = .functional kind name span argument →
      (kind = .pseudoClassSelector && takesSelectors name) = true →
        argument.tokens.isEmpty = false → ListPlaced source limit argument)
    (parts : ∀ n, p.finish limit = .ok n → PartsPlaced source limit (some n.kind) none after)
    (hk : t.kind ≠ .whiteSpace) (hc : t.kind ≠ .comment)
    (hn : explicitCombinator t ⟨ts, next⟩ = none) :
    PartsPlaced source limit kind space ⟨t :: ts, next⟩ := by
  intro ns lo hi h hs ends hlo before
  rw [selectorParts_simple hk hc hn, hx] at h
  obtain ⟨_, ⟨⟩, h⟩ := bind_eq_ok_iff.mp h
  obtain ⟨n, hfinish, h⟩ := bind_eq_ok_iff.mp h
  obtain ⟨rest, hrest, h⟩ := bind_eq_ok_iff.mp h
  cases h
  obtain ⟨last, follows, spans⟩ := simpleSelector_readOff hx
  obtain ⟨placed, note⟩ := finish_placed hfinish spans hs follows.mem list
  have part := follows.isPart
  have stop := follows.stop_le hs
  have tail := parts n hfinish rest after.start hi hrest (part.liesIn hs) (part.endsBy ends)
    (Nat.le_refl _) spaceBefore_none
  refine descendant_placedIn before (by rw [note]; rfl) hlo ?_
  rw [placedIn_cons, note]
  exact ⟨Nat.le_refl _, ends last follows.mem, placed, tail.mono stop (Nat.le_refl _)⟩

theorem selectors_placed_all : (∀ s, ListPlaced source limit s) ∧
    ∀ kind space s, PartsPlaced source limit kind space s := by
  refine selectors_induction limit ?empty ?nonempty ?done ?space ?comment ?combinator ?failed
    ?simple
  case empty =>
    intro s hp ns hi h
    rw [selectors, if_pos hp] at h
    cases h
  case nonempty =>
    intro s hp parts rest ns hi h hs ends
    rw [selectors_nonempty hp] at h
    obtain ⟨children, hc, h⟩ := bind_eq_ok_iff.mp h
    obtain ⟨more, hr, h⟩ := bind_eq_ok_iff.mp h
    cases h
    have hpart : (s.cut (· = .comma)).1.trim.IsPart s := (trim_isPart _).trans (cut_fst_isPart _ s)
    have found : (s.cut (· = .comma)).2.IsPart s := cut_snd_isPart _ s
    have nonempty : (s.cut (· = .comma)).1.trim.tokens ≠ [] := by simpa using hp
    have lies := hpart.liesIn hs
    have inner := parts children _ _ hc lies lies.endsBy_stop (Nat.le_refl _) spaceBefore_none
    have hmore : PlacedIn source (s.cut (· = .comma)).2.start hi more := by
      split at hr
      · cases hr
        exact placedIn_nil
      · rename_i t ts ht
        have tail : IsPart ⟨ts, s.next⟩ (s.cut (· = .comma)).2 :=
          isPart_rest (s := (s.cut (· = .comma)).2) ht
        exact (rest t ts ht more hi hr ((tail.trans found).liesIn hs)
          ((tail.trans found).endsBy ends)).mono (tail.start_le (found.liesIn hs)) (Nat.le_refl _)
    refine placedIn_cons.mpr ⟨hpart.start_le hs, (hpart.endsBy ends).stop_le nonempty, ?_, ?_⟩
    · exact placed_iff.mpr ⟨lies.span, inner⟩
    · refine hmore.mono ?_ (Nat.le_refl _)
      exact ((trim_isPart _).endsBy (cut_fst_endsBy _ hs)).stop_le nonempty
  case done =>
    intro kind space next ns lo hi h
    rw [selectorParts] at h
    cases h
    intros
    exact placedIn_nil
  case space =>
    intro kind space t ts next hk ih ns lo hi h hs ends hlo before
    have tail : IsPart ⟨ts, next⟩ ⟨t :: ts, next⟩ := isPart_tail
    have hstart := tail.start_le hs
    rw [selectorParts_space hk] at h
    refine ih ns lo hi h (tail.liesIn hs) (tail.endsBy ends) (Nat.le_trans hlo hstart) ?_
    intro w hw
    split at hw
    · cases hw
      exact ⟨hs.token_span List.mem_cons_self, hlo, hs.stop_le_start⟩
    · obtain ⟨lies, hlo', hstop⟩ := before w hw
      exact ⟨lies, hlo', Nat.le_trans hstop hstart⟩
  case comment =>
    intro kind space t ts next hk hc ih ns lo hi h hs ends hlo before
    have tail : IsPart ⟨ts, next⟩ ⟨t :: ts, next⟩ := isPart_tail
    have hstart := tail.start_le hs
    rw [selectorParts_comment hk hc] at h
    refine ih ns lo hi h (tail.liesIn hs) (tail.endsBy ends) (Nat.le_trans hlo hstart) ?_
    intro w hw
    obtain ⟨lies, hlo', hstop⟩ := before w hw
    exact ⟨lies, hlo', Nat.le_trans hstop hstart⟩
  case combinator =>
    intro kind space t ts next name last after hk hc hx ih ns lo hi h hs ends hlo before
    have follows := explicitCombinator_follows hx
    have part := follows.isPart
    rw [selectorParts_combinator hk hc hx] at h
    obtain ⟨rest, hrest, h⟩ := bind_eq_ok_iff.mp h
    cases h
    have placed := ih rest after.start hi hrest (part.liesIn hs) (part.endsBy ends)
      (Nat.le_refl _) spaceBefore_none
    refine placedIn_cons.mpr ⟨hlo, ends last follows.mem, ?_, ?_⟩
    · exact placed_leaf (hs.span_to follows.mem)
    · exact placed.mono (follows.stop_le hs) (Nat.le_refl _)
  case failed =>
    intro kind space t ts next e hk hc hn hx ns lo hi h
    rw [selectorParts_simple hk hc hn, hx] at h
    cases h
  case simple =>
    intro kind space t ts next p after hk hc hn hx list parts
    exact simple_placed hx list parts hk hc hn

theorem selectorList_placed {n : Located} (h : selectorList limit s = .ok n)
    (hs : s.LiesIn source) : Placed source n ∧ n.note = s.span := by
  obtain ⟨items, hi, h⟩ := bind_eq_ok_iff.mp h
  cases h
  have placed := selectors_placed_all.1 s items s.stop hi hs hs.endsBy_stop
  exact ⟨placed_iff.mpr ⟨hs.span, placed⟩, rfl⟩

theorem selector_placed {n : Located} (h : selector limit s = .ok n) (hs : s.LiesIn source) :
    Placed source n ∧ n.note = s.span := by
  obtain ⟨children, hc, h⟩ := bind_eq_ok_iff.mp h
  cases h
  have placed := selectors_placed_all.2 none none s children s.start s.stop hc hs hs.endsBy_stop
    (Nat.le_refl _) spaceBefore_none
  exact ⟨placed_iff.mpr ⟨hs.span, placed⟩, rfl⟩

/-- Whether a selector could be read or not, its node spans its scope. -/
theorem orRaw_placed {r : SelectorResult Located} (hs : s.LiesIn source)
    (h : ∀ n, r = .ok n → Placed source n ∧ n.note = s.span) :
    Placed source (orRaw s r).value ∧ (orRaw s r).value.note = s.span := by
  cases r with
  | ok n => exact h n rfl
  | error e => exact ⟨placed_raw hs, rfl⟩

end Stylesheet.Grammar
