import Stylesheet.Proofs.Closed
import Stylesheet.Proofs.Grammar
import Stylesheet.Proofs.Shift.Scope

/-!
# Shifted selectors

A selector is read alike wherever it stands, and so are its errors. What is missing at the end of a
scope is reported at a limit that the caller sets; where every block is closed the limit is never
used.
-/

namespace Stylesheet.Grammar

open Located

variable {k limit limit' : Nat} {t colon : Token} {s rest : Scope} {ts : List Token}

section Moved

variable {α β γ δ : Type}

/-- What was read is carried along by `f`, and an error is found `k` bytes further on. -/
def moved (k : Nat) (f : α → β) : SelectorResult α → SelectorResult β
  | .ok a => .ok (f a)
  | .error e => .error (e.shift k)

@[simp] theorem moved_ok (f : α → β) (a : α) : moved k f (.ok a) = .ok (f a) := rfl

@[simp] theorem moved_error (f : α → β) (fault : Fault) (offset : Nat) :
    moved k f (.error ⟨fault, offset⟩) = .error ⟨fault, offset + k⟩ := rfl

/-- One step after another is carried along if both are. -/
theorem moved_bind {f : α → γ} {g : β → δ} {r : SelectorResult α} {next : α → SelectorResult β}
    {next' : γ → SelectorResult δ} (h : ∀ a, r = .ok a → next' (f a) = moved k g (next a)) :
    (moved k f r >>= next') = moved k g (r >>= next) := by
  cases r with
  | error e => rfl
  | ok a => exact h a rfl

end Moved

/-- The simple selector, `k` bytes further on. -/
def Simple.shift (k : Nat) : Simple → Simple
  | .node n => .node (n.shift k)
  | .functional kind name span argument =>
    .functional kind name (span.shift k) (argument.shift k)

theorem explicitCombinator_shift (t : Token) (ts : List Token) (next : Nat) :
    explicitCombinator (t.shift k) ⟨ts.map (Token.shift k), next + k⟩ =
      (explicitCombinator t ⟨ts, next⟩).map fun found =>
        (found.1, found.2.1.shift k, found.2.2.shift k) := by
  unfold explicitCombinator
  rw [Token.delim?_shift]
  split
  · rfl
  · rfl
  · rfl
  · cases ts with
    | nil => rfl
    | cons bar more =>
      simp only [List.map_cons]
      rw [Token.isDelim_shift]
      split <;> rfl
  · rfl

theorem typeSelector_shift :
    typeSelector (t.shift k) (rest.shift k) =
      ((typeSelector t rest).1.shift k, (typeSelector t rest).2.shift k) := by
  rw [typeSelector, typeSelector, Scope.tokens_shift]
  rcases rest.tokens with - | ⟨bar, - | ⟨name, more⟩⟩
  · simp
  · simp
  · simp only [List.map_cons]
    by_cases named : (bar.isDelim '|' && (name.kind = .ident || name.isDelim '*')) = true
    · have text : Token.sourceText [t.shift k, bar.shift k, name.shift k] =
          Token.sourceText [t, bar, name] :=
        @Token.sourceText_shift k [t, bar, name]
      rw [if_pos (by exact named), if_pos named, text]
      simp [Span.shift, Scope.shift]
    · rw [if_neg (by exact named), if_neg named]
      simp

/-! ### Attributes -/

/-- What was read off the front of some tokens, and the tokens that are left, `k` bytes further
on. -/
def shiftLeft {α : Type} (k : Nat) (p : α × List Token) : α × List Token :=
  (p.1, p.2.map (Token.shift k))

theorem attributeName_shift (close : Nat) (ts : List Token) :
    attributeName (close + k) (ts.map (Token.shift k)) =
      moved k (shiftLeft k) (attributeName close ts) := by
  rw [attributeName, attributeName, Token.significant_shift]
  cases Token.significant ts with
  | nil => rfl
  | cons t more =>
    simp only [List.map_cons]
    by_cases ident : t.kind ≠ .ident
    · rw [if_pos (by exact ident), if_pos ident]
      rfl
    · rw [if_neg (by exact ident), if_neg ident]
      rcases more with - | ⟨bar, - | ⟨name, rest⟩⟩
      · rfl
      · rfl
      · simp only [List.map_cons]
        by_cases named : (bar.isDelim '|' && name.kind = .ident) = true
        · have text : Token.sourceText [t.shift k, bar.shift k, name.shift k] =
              Token.sourceText [t, bar, name] :=
            @Token.sourceText_shift k [t, bar, name]
          rw [if_pos (by exact named), if_pos named, text]
          rfl
        · rw [if_neg (by exact named), if_neg named]
          rfl

theorem attributeMatcher_shift (op : Token) (more : List Token) :
    attributeMatcher (op.shift k) (more.map (Token.shift k)) =
      moved k (shiftLeft k) (attributeMatcher op more) := by
  unfold attributeMatcher
  rw [Token.delim?_shift]
  split
  · rfl
  · cases more with
    | nil => rfl
    | cons equal rest =>
      simp only [List.map_cons]
      rw [Token.isDelim_shift]
      split <;> rfl
  · rfl

theorem attributeValue_shift (close : Nat) (ts : List Token) :
    attributeValue (close + k) (ts.map (Token.shift k)) =
      moved k (shiftLeft k) (attributeValue close ts) := by
  rw [attributeValue, attributeValue, Token.significant_shift]
  cases Token.significant ts with
  | nil => rfl
  | cons v rest =>
    simp only [List.map_cons]
    rw [Token.kind_shift]
    split <;> rfl

theorem attributeFlags_shift (ts : List Token) :
    attributeFlags (ts.map (Token.shift k)) = shiftLeft k (attributeFlags ts) := by
  rw [attributeFlags, attributeFlags, Token.significant_shift]
  cases Token.significant ts with
  | nil => rfl
  | cons f rest =>
    simp only [List.map_cons]
    by_cases ident : f.kind = .ident
    · rw [if_pos (by exact ident), if_pos ident]
      rfl
    · rw [if_neg (by exact ident), if_neg ident]
      rfl

theorem attributeTest_shift (close : Nat) (ts : List Token) :
    attributeTest (close + k) (ts.map (Token.shift k)) = moved k id (attributeTest close ts) := by
  rw [attributeTest, attributeTest, attributeName_shift]
  refine moved_bind ?_
  rintro ⟨name, more⟩ -
  dsimp only [shiftLeft]
  rw [Token.significant_shift]
  cases Token.significant more with
  | nil => rfl
  | cons op more =>
    simp only [List.map_cons]
    rw [attributeMatcher_shift]
    refine moved_bind ?_
    rintro ⟨matcher, more⟩ -
    dsimp only [shiftLeft]
    rw [attributeValue_shift]
    refine moved_bind ?_
    rintro ⟨value, more⟩ -
    dsimp only [shiftLeft]
    rw [attributeFlags_shift]
    dsimp only [shiftLeft]
    rw [Token.significant_shift]
    cases Token.significant (attributeFlags more).2 with
    | nil => rfl
    | cons extra rest => rfl

/-! ### Simple selectors -/

/-- A simple selector and what follows it, `k` bytes further on. -/
def shiftRead (k : Nat) (p : Simple × Scope) : Simple × Scope := (p.1.shift k, p.2.shift k)

/-- The limit that shifted tokens are read with is the shifted one, or it does not matter, since all
blocks are closed. -/
def Suits (k limit limit' : Nat) (ts : List Token) : Prop :=
  limit' = limit + k ∨ Token.Closed ts

/-- A block that is not closed is located at the limit. -/
theorem Suits.unclosed (h : Suits k limit limit' (t :: ts)) (opens : t.kind.opensBlock = true)
    {next : Nat} (open' : (Scope.enter t ⟨ts, next⟩).closer = none) : limit' = limit + k := by
  obtain h | closed := h
  · exact h
  · obtain ⟨inner, closer, rest, rfl, -, inside, -, -⟩ := closed.of_opener opens
    rw [Scope.enter_closed inside] at open'
    cases open'

theorem Suits.of_leaf (h : Suits k limit limit' (t :: ts)) (plain : t.kind.opensBlock = false) :
    Suits k limit limit' ts :=
  h.imp_right fun closed => closed.of_leaf plain

theorem attributeSelector_shift (hk : t.kind = .leftSquare)
    (suits : Suits k limit limit' (t :: rest.tokens)) :
    attributeSelector limit' (t.shift k) (rest.shift k) =
      moved k (shiftRead k) (attributeSelector limit t rest) := by
  rw [attributeSelector, attributeSelector, Scope.enter_shift, Block.closer_shift]
  cases closer : (rest.enter t).closer with
  | none =>
    rw [suits.unclosed (by rw [hk]; rfl) closer]
    rfl
  | some c =>
    simp only [Option.map_some]
    rw [Token.start_shift, Block.inner_shift, Scope.tokens_shift, attributeTest_shift]
    refine moved_bind fun detail _ => ?_
    rw [Block.span_shift, Block.after_shift, ← shift_leaf]
    rfl

theorem pseudoNamed_shift {kind : NodeKind} (suits : Suits k limit limit' s.tokens) :
    pseudoNamed limit' kind (colon.shift k) (s.shift k) =
      moved k (shiftRead k) (pseudoNamed limit kind colon s) := by
  obtain ⟨tokens, next⟩ := s
  cases tokens with
  | nil => rfl
  | cons t ts =>
    rw [pseudoNamed, pseudoNamed, Scope.shift_cons]
    dsimp only
    rw [Token.kind_shift]
    split
    · simp [shiftRead, Simple.shift, Span.shift, Scope.shift]
    · rename_i hk
      rw [Scope.enter_shift_mk, Block.closer_shift]
      cases closer : (Scope.enter t ⟨ts, next⟩).closer with
      | none =>
        rw [suits.unclosed (by rw [hk]; rfl) closer]
        rfl
      | some c => simp [shiftRead, Simple.shift, Span.shift]
    · rfl

theorem pseudoSelector_shift (suits : Suits k limit limit' rest.tokens) :
    pseudoSelector limit' (colon.shift k) (rest.shift k) =
      moved k (shiftRead k) (pseudoSelector limit colon rest) := by
  obtain ⟨tokens, next⟩ := rest
  cases tokens with
  | nil => rfl
  | cons second ts =>
    rw [pseudoSelector, pseudoSelector, Scope.shift_cons]
    dsimp only
    by_cases hc : second.kind = .colon
    · rw [if_pos (by exact hc), if_pos hc]
      exact pseudoNamed_shift (s := ⟨ts, next⟩) (suits.of_leaf (by rw [hc]; rfl))
    · rw [if_neg (by exact hc), if_neg hc]
      exact pseudoNamed_shift (s := ⟨second :: ts, next⟩) suits

theorem classSelector_shift {point : Token} :
    classSelector (point.shift k) (rest.shift k) =
      moved k (shiftRead k) (classSelector point rest) := by
  obtain ⟨tokens, next⟩ := rest
  cases tokens with
  | nil => rfl
  | cons t ts =>
    rw [classSelector, classSelector, Scope.shift_cons]
    dsimp only
    by_cases ident : t.kind = .ident
    · rw [if_pos (by exact ident), if_pos ident]
      simp [shiftRead, Simple.shift, Span.shift, Scope.shift]
    · rw [if_neg (by exact ident), if_neg ident]
      rfl

/-- Simple selectors are read alike wherever they stand. -/
theorem simpleSelector_shift {next : Nat} (suits : Suits k limit limit' (t :: ts)) :
    simpleSelector limit' (t.shift k) ⟨ts.map (Token.shift k), next + k⟩ =
      moved k (shiftRead k) (simpleSelector limit t ⟨ts, next⟩) := by
  let rest : Scope := ⟨ts, next⟩
  show simpleSelector limit' (t.shift k) (rest.shift k) =
    moved k (shiftRead k) (simpleSelector limit t rest)
  have named : (.ok (.node (typeSelector (t.shift k) (rest.shift k)).1,
        (typeSelector (t.shift k) (rest.shift k)).2) : SelectorResult (Simple × Scope)) =
      moved k (shiftRead k) (.ok (.node (typeSelector t rest).1, (typeSelector t rest).2)) := by
    rw [typeSelector_shift]
    rfl
  rw [simpleSelector, simpleSelector, Token.kind_shift]
  split
  · exact named
  · simp [shiftRead, Simple.shift]
  · rename_i hk
    exact attributeSelector_shift hk suits
  · rename_i hk
    exact pseudoSelector_shift (suits.of_leaf (by rw [hk]; rfl))
  · rw [Token.delim?_shift]
    split
    · exact named
    · simp [shiftRead, Simple.shift]
    · exact classSelector_shift
    · rfl
  · rfl

/-! ### What is left over -/

/-- The blocks of an argument that is still to be read are closed. -/
def Simple.Closed : Simple → Prop
  | .node _ => True
  | .functional _ _ _ argument => Token.Closed argument.tokens

theorem explicitCombinator_closed {name : String} {last : Token} {after : Scope}
    (closed : Token.Closed (t :: rest.tokens))
    (h : explicitCombinator t rest = some (name, last, after)) : Token.Closed after.tokens := by
  have plain : t.kind.opensBlock = false := by
    by_cases hk : t.kind = .delim
    · rw [hk]
      rfl
    · simp [explicitCombinator, Token.delim?, hk] at h
  replace closed := closed.of_leaf plain
  unfold explicitCombinator at h
  split at h
  · cases h
    exact closed
  · cases h
    exact closed
  · cases h
    exact closed
  · split at h
    · rename_i bar more hs
      split at h
      · rename_i hbar
        cases h
        rw [hs] at closed
        exact closed.of_leaf (by rw [kind_of_isDelim hbar]; rfl)
      · cases h
    · cases h
  · cases h

theorem typeSelector_closed (closed : Token.Closed rest.tokens) :
    Token.Closed (typeSelector t rest).2.tokens := by
  rw [typeSelector]
  split
  · rename_i bar name more hs
    split
    · rename_i named
      simp only [Bool.and_eq_true, Bool.or_eq_true, decide_eq_true_eq] at named
      have plain : name.kind.opensBlock = false := by
        obtain ⟨-, ident | star⟩ := named
        · rw [ident]
          rfl
        · rw [kind_of_isDelim star]
          rfl
      rw [hs] at closed
      exact (closed.of_leaf (by rw [kind_of_isDelim named.1]; rfl)).of_leaf plain
    · exact closed
  · exact closed

theorem attributeSelector_closed {p : Simple} {after : Scope} (hk : t.kind = .leftSquare)
    (closed : Token.Closed (t :: rest.tokens))
    (h : attributeSelector limit t rest = .ok (p, after)) :
    p.Closed ∧ Token.Closed after.tokens := by
  obtain ⟨tokens, next⟩ := rest
  obtain ⟨inner, closer, more, rfl, -, inside, -, rest⟩ := closed.of_opener (by rw [hk]; rfl)
  rw [attributeSelector, Scope.enter_closed inside] at h
  obtain ⟨detail, -, h⟩ := bind_eq_ok_iff.mp h
  cases h
  exact ⟨trivial, rest⟩

theorem pseudoNamed_closed {kind : NodeKind} {p : Simple} {after : Scope}
    (closed : Token.Closed s.tokens) (h : pseudoNamed limit kind colon s = .ok (p, after)) :
    p.Closed ∧ Token.Closed after.tokens := by
  unfold pseudoNamed at h
  split at h
  · cases h
  · rename_i t ts hs
    rw [hs] at closed
    split at h
    · rename_i hk
      cases h
      exact ⟨trivial, closed.of_leaf (by rw [hk]; rfl)⟩
    · rename_i hk
      obtain ⟨inner, closer, more, rfl, -, inside, content, rest⟩ :=
        closed.of_opener (by rw [hk]; rfl)
      rw [Scope.enter_closed inside] at h
      cases h
      exact ⟨Scope.closed_trim (s := ⟨inner, _⟩) content, rest⟩
    · cases h

theorem pseudoSelector_closed {p : Simple} {after : Scope} (closed : Token.Closed rest.tokens)
    (h : pseudoSelector limit colon rest = .ok (p, after)) :
    p.Closed ∧ Token.Closed after.tokens := by
  unfold pseudoSelector at h
  split at h
  · rename_i second ts hs
    split at h
    · rename_i hk
      rw [hs] at closed
      exact pseudoNamed_closed (closed.of_leaf (by rw [hk]; rfl)) h
    · exact pseudoNamed_closed closed h
  · exact pseudoNamed_closed closed h

theorem classSelector_closed {point : Token} {p : Simple} {after : Scope}
    (closed : Token.Closed rest.tokens) (h : classSelector point rest = .ok (p, after)) :
    p.Closed ∧ Token.Closed after.tokens := by
  unfold classSelector at h
  split at h
  · cases h
  · rename_i t ts hs
    split at h
    · rename_i hk
      cases h
      rw [hs] at closed
      exact ⟨trivial, closed.of_leaf (by rw [hk]; rfl)⟩
    · cases h

/-- Reading a simple selector off closed tokens leaves closed tokens. -/
theorem simpleSelector_closed {p : Simple} {after : Scope}
    (closed : Token.Closed (t :: rest.tokens))
    (h : simpleSelector limit t rest = .ok (p, after)) :
    p.Closed ∧ Token.Closed after.tokens := by
  have named (hk : t.kind.opensBlock = false)
      (h : Except.ok (ε := SyntaxError)
        (Simple.node (typeSelector t rest).1, (typeSelector t rest).2) = .ok (p, after)) :
      p.Closed ∧ Token.Closed after.tokens := by
    cases h
    exact ⟨trivial, typeSelector_closed (closed.of_leaf hk)⟩
  unfold simpleSelector at h
  split at h
  · rename_i hk
    exact named (by rw [hk]; rfl) h
  · rename_i hk
    cases h
    exact ⟨trivial, closed.of_leaf (by rw [hk]; rfl)⟩
  · rename_i hk
    exact attributeSelector_closed hk closed h
  · rename_i hk
    exact pseudoSelector_closed (closed.of_leaf (by rw [hk]; rfl)) h
  · rename_i hk
    have tail := closed.of_leaf (by rw [hk]; rfl)
    split at h
    · exact named (by rw [hk]; rfl) h
    · cases h
      exact ⟨trivial, tail⟩
    · exact classSelector_closed tail h
    · cases h
  · cases h

/-! ### Lists -/

@[simp] theorem descendant_shift (last : Option NodeKind) (space : Option Token) :
    descendant last (space.map (Token.shift k)) =
      (descendant last space).map (Located.shift k) := by
  cases space with
  | none => rfl
  | some w =>
    simp only [descendant, Option.map_some]
    split <;> simp

/-- Selectors are read alike wherever they stand. -/
def ListShifts (k limit : Nat) (s : Scope) : Prop :=
  ∀ limit', Suits k limit limit' s.tokens →
    selectors limit' (s.shift k) = moved k (List.map (Located.shift k)) (selectors limit s)

/-- The parts of a selector are read alike wherever they stand. -/
def PartsShift (k limit : Nat) (last : Option NodeKind) (space : Option Token) (s : Scope) : Prop :=
  ∀ limit', Suits k limit limit' s.tokens →
    selectorParts limit' last (space.map (Token.shift k)) (s.shift k) =
      moved k (List.map (Located.shift k)) (selectorParts limit last space s)

/-- The node of a simple selector, once its argument has been read. -/
theorem finish_shift {p : Simple} (suits : limit' = limit + k ∨ p.Closed)
    (list : ∀ kind name span argument, p = .functional kind name span argument →
      (kind = .pseudoClassSelector && takesSelectors name) = true →
        argument.tokens.isEmpty = false → ListShifts k limit argument) :
    (p.shift k).finish limit' = moved k (Located.shift k) (p.finish limit) := by
  cases p with
  | node n => rfl
  | functional kind name span argument =>
    have child : argumentNode limit' kind name (argument.shift k) =
        moved k (Located.shift k) (argumentNode limit kind name argument) := by
      rw [argumentNode, argumentNode, Scope.tokens_shift, List.isEmpty_map]
      split
      · rename_i takes
        split
        · rw [Scope.start_shift]
          rfl
        · rename_i he
          rw [list _ _ _ _ rfl takes (by simpa using he) limit' suits]
          refine moved_bind fun items _ => ?_
          simp
      · rw [raw_shift]
        rfl
    rw [Simple.shift, Simple.finish, Simple.finish, child]
    refine moved_bind fun n _ => ?_
    simp

/-- One more simple selector goes in front of the parts that follow it. -/
theorem simple_shift {p : Simple} {after : Scope} {last : Option NodeKind} {space : Option Token}
    {next : Nat} (hx : simpleSelector limit t ⟨ts, next⟩ = .ok (p, after))
    (list : ∀ kind name span argument, p = .functional kind name span argument →
      (kind = .pseudoClassSelector && takesSelectors name) = true →
        argument.tokens.isEmpty = false → ListShifts k limit argument)
    (parts : ∀ n, p.finish limit = .ok n → PartsShift k limit (some n.kind) none after)
    (hk : t.kind ≠ .whiteSpace) (hc : t.kind ≠ .comment)
    (hn : explicitCombinator t ⟨ts, next⟩ = none) :
    PartsShift k limit last space ⟨t :: ts, next⟩ := by
  intro limit' suits
  have hn' : explicitCombinator (t.shift k) ⟨ts.map (Token.shift k), next + k⟩ = none := by
    rw [explicitCombinator_shift, hn]
    rfl
  have left : (limit' = limit + k ∨ p.Closed) ∧ Suits k limit limit' after.tokens := by
    obtain h | closed := suits
    · exact ⟨.inl h, .inl h⟩
    · obtain ⟨argument, rest⟩ := simpleSelector_closed closed hx
      exact ⟨.inr argument, .inr rest⟩
  rw [Scope.shift_cons, selectorParts_simple (by exact hk) (by exact hc) hn',
    simpleSelector_shift suits, selectorParts_simple hk hc hn, hx]
  show ((p.shift k).finish limit' >>= fun n =>
      selectorParts limit' (some n.kind) none (after.shift k) >>= fun rest =>
        .ok (descendant last (space.map (Token.shift k)) ++ n :: rest)) =
    moved k (List.map (Located.shift k)) (p.finish limit >>= fun n =>
      selectorParts limit (some n.kind) none after >>= fun rest =>
        .ok (descendant last space ++ n :: rest))
  rw [finish_shift left.1 list]
  refine moved_bind fun n hfinish => ?_
  have rest : selectorParts limit' (some n.kind) none (after.shift k) =
      moved k (List.map (Located.shift k)) (selectorParts limit (some n.kind) none after) :=
    parts n hfinish limit' left.2
  rw [kind_shift, rest]
  refine moved_bind fun rest _ => ?_
  simp

theorem selectors_shift_all : (∀ s, ListShifts k limit s) ∧
    ∀ last space s, PartsShift k limit last space s := by
  refine selectors_induction limit ?empty ?nonempty ?done ?space ?comment ?combinator ?failed
    ?simple
  case empty =>
    intro s hp limit' suits
    have hp' : ((s.shift k).cut (· = .comma)).1.trim.tokens.isEmpty = true := by
      rw [Scope.cut_shift, Scope.trim_shift, Scope.tokens_shift, List.isEmpty_map, hp]
    rw [selectors, selectors, if_pos hp', if_pos hp, Scope.cut_shift, Scope.trim_shift,
      Scope.start_shift]
    rfl
  case nonempty =>
    intro s hp parts rest limit' suits
    have hp' : ((s.shift k).cut (· = .comma)).1.trim.tokens.isEmpty = false := by
      rw [Scope.cut_shift, Scope.trim_shift, Scope.tokens_shift, List.isEmpty_map, hp]
    have children : selectorParts limit' none none ((s.cut (· = .comma)).1.trim.shift k) = _ :=
      parts limit' (suits.imp_right fun closed => Scope.closed_trim (Scope.closed_cut closed).1)
    rw [selectors_nonempty hp', selectors_nonempty hp, Scope.cut_shift, Scope.trim_shift, children]
    refine moved_bind fun children _ => ?_
    rw [Scope.tokens_shift]
    cases found : (s.cut (· = .comma)).2.tokens with
    | nil => simp [bind, Except.bind]
    | cons t ts =>
      have comma : t.kind = .comma := of_decide_eq_true (Token.spanTop_head found)
      have left : Suits k limit limit' (t :: ts) := by
        rw [← found]
        exact suits.imp_right fun closed => (Scope.closed_cut closed).2
      have rest : selectors limit' (Scope.shift k ⟨ts, s.next⟩) = _ :=
        rest t ts found limit' (left.of_leaf (by rw [comma]; rfl))
      simp only [List.map_cons]
      rw [Scope.next_shift, ← Scope.shift_mk, rest]
      refine moved_bind fun rest _ => ?_
      simp
  case done =>
    intro last space next limit' suits
    rw [Scope.shift_mk, List.map_nil, selectorParts, selectorParts]
    rfl
  case space =>
    intro last space t ts next hk ih limit' suits
    have later : (if last.isSome && (space.map (Token.shift k)).isNone then some (t.shift k)
        else space.map (Token.shift k)) =
        (if last.isSome && space.isNone then some t else space).map (Token.shift k) := by
      rw [Option.isNone_map]
      split <;> rfl
    rw [Scope.shift_cons, selectorParts_space (by exact hk), selectorParts_space hk, later]
    exact ih limit' (suits.of_leaf (by rw [hk]; rfl))
  case comment =>
    intro last space t ts next hk hc ih limit' suits
    rw [Scope.shift_cons, selectorParts_comment (by exact hk) (by exact hc),
      selectorParts_comment hk hc]
    exact ih limit' (suits.of_leaf (by rw [hc]; rfl))
  case combinator =>
    intro kind space t ts next name last after hk hc hx ih limit' suits
    have hx' : explicitCombinator (t.shift k) ⟨ts.map (Token.shift k), next + k⟩ =
        some (name, last.shift k, after.shift k) := by
      rw [explicitCombinator_shift, hx]
      rfl
    have left : Suits k limit limit' after.tokens :=
      suits.imp_right fun closed => explicitCombinator_closed (by exact closed) hx
    have rest : selectorParts limit' (some .combinator) none (after.shift k) = _ := ih limit' left
    rw [Scope.shift_cons, selectorParts_combinator (by exact hk) (by exact hc) hx',
      selectorParts_combinator hk hc hx, rest]
    refine moved_bind fun rest _ => ?_
    simp [Span.shift]
  case failed =>
    intro last space t ts next e hk hc hn hx limit' suits
    have hn' : explicitCombinator (t.shift k) ⟨ts.map (Token.shift k), next + k⟩ = none := by
      rw [explicitCombinator_shift, hn]
      rfl
    rw [Scope.shift_cons, selectorParts_simple (by exact hk) (by exact hc) hn',
      simpleSelector_shift suits, selectorParts_simple hk hc hn, hx]
    rfl
  case simple =>
    intro last space t ts next p after hk hc hn hx list parts
    exact simple_shift hx list parts hk hc hn

/-- Lists of selectors are read alike wherever they stand. -/
theorem selectorList_shift (suits : Suits k limit limit' s.tokens) :
    selectorList limit' (s.shift k) = moved k (Located.shift k) (selectorList limit s) := by
  rw [selectorList, selectorList, selectors_shift_all.1 s limit' suits]
  refine moved_bind fun items _ => ?_
  simp

end Stylesheet.Grammar
