import Stylesheet.Proofs.Regular.Value

/-!
# Selectors are regular

The parts of a selector are simple selectors and combinators. White space becomes a combinator only
once a simple selector follows it, and only if the part before it is no combinator, so it stands
between two simple selectors.
-/

namespace Stylesheet.Grammar

open Located Node

variable {limit : Nat} {kind : Option NodeKind} {space : Option Token} {s after : Scope}
variable {t last : Token} {ts : List Token} {next : Nat} {p : Simple} {n : Located}
variable {ns : List Located}

/-! ### Simple selectors -/

/-- A simple selector of a kind of simple selectors; only pseudo selectors have arguments. -/
inductive Simple.IsRegular : Simple → Prop
  | node {n : Located} (simple : n.kind.isSimpleSelector = true) (regular : n.RegularTree) :
    IsRegular (.node n)
  | functional {kind : NodeKind} {name : String} {span : Span} {argument : Scope}
      (pseudo : kind = .pseudoClassSelector ∨ kind = .pseudoElementSelector) :
    IsRegular (.functional kind name span argument)

theorem isRegular_leaf {kind : NodeKind} {detail : Detail} {span : Span}
    (simple : kind.isSimpleSelector = true) : (Simple.node (leaf kind detail span)).IsRegular := by
  refine .node simple (regularTree_leaf ?_)
  cases kind with
  | pseudoClassSelector | pseudoElementSelector => exact ⟨Nat.zero_le _, by rintro _ ⟨⟩⟩
  | typeSelector | idSelector | classSelector | attributeSelector | nestingSelector => rfl
  | _ => cases simple

theorem typeSelector_isRegular (t : Token) (rest : Scope) :
    (Simple.node (typeSelector t rest).1).IsRegular := by
  unfold typeSelector
  dsimp only
  split
  · split <;> exact isRegular_leaf rfl
  · exact isRegular_leaf rfl

theorem attributeSelector_isRegular {rest : Scope}
    (h : attributeSelector limit t rest = .ok (p, after)) : p.IsRegular := by
  unfold attributeSelector at h
  dsimp only at h
  split at h
  · cases h
  · obtain ⟨detail, -, h⟩ := bind_eq_ok_iff.mp h
    cases h
    exact isRegular_leaf rfl

theorem pseudoNamed_isRegular {kind : NodeKind} {colon : Token}
    (pseudo : kind = .pseudoClassSelector ∨ kind = .pseudoElementSelector)
    (h : pseudoNamed limit kind colon s = .ok (p, after)) : p.IsRegular := by
  unfold pseudoNamed at h
  split at h
  · cases h
  · split at h
    · cases h
      refine isRegular_leaf ?_
      obtain rfl | rfl := pseudo <;> rfl
    · dsimp only at h
      split at h
      · cases h
      · cases h
        exact .functional pseudo
    · cases h

theorem pseudoSelector_isRegular {rest : Scope}
    (h : pseudoSelector limit t rest = .ok (p, after)) : p.IsRegular := by
  unfold pseudoSelector at h
  split at h
  · split at h
    · exact pseudoNamed_isRegular (.inr rfl) h
    · exact pseudoNamed_isRegular (.inl rfl) h
  · exact pseudoNamed_isRegular (.inl rfl) h

theorem classSelector_isRegular {rest : Scope} (h : classSelector t rest = .ok (p, after)) :
    p.IsRegular := by
  unfold classSelector at h
  split at h
  · cases h
  · split at h
    · cases h
      exact isRegular_leaf rfl
    · cases h

theorem simpleSelector_isRegular {rest : Scope}
    (h : simpleSelector limit t rest = .ok (p, after)) : p.IsRegular := by
  have named (h : Except.ok (ε := SyntaxError)
      (Simple.node (typeSelector t rest).1, (typeSelector t rest).2) = .ok (p, after)) :
      p.IsRegular := by
    cases h
    exact typeSelector_isRegular t rest
  unfold simpleSelector at h
  split at h
  · exact named h
  · cases h
    exact isRegular_leaf rfl
  · exact attributeSelector_isRegular h
  · exact pseudoSelector_isRegular h
  · split at h
    · exact named h
    · cases h
      exact isRegular_leaf rfl
    · exact classSelector_isRegular h
    · cases h
  · cases h

/-! ### Lists of selectors and the parts of a selector -/

/-- Reading a list of selectors in `s` answers with some regular selectors. -/
def ListRegular (limit : Nat) (s : Scope) : Prop :=
  ∀ ns, selectors limit s = .ok ns →
    ns ≠ [] ∧ ∀ n ∈ ns, n.kind = .selector ∧ n.RegularTree

/-- The node before the parts that are still to be read, if there is one, is a part of a selector,
and white space is only remembered after such a node. -/
structure Resumes (kind : Option NodeKind) (space : Option Token) : Prop where
  part : ∀ k, kind = some k → k.isSimpleSelector = true ∨ k = .combinator
  after : kind = none → space = none

/-- The parts of a selector that follow a node of a kind. Only after a simple selector may they
start with the descendant combinator. -/
structure PartsFollow (kind : Option NodeKind) (ns : List Located) : Prop where
  part : ∀ n ∈ ns, n.kind.isSimpleSelector = true ∨ n.kind = .combinator
  regular : ∀ n ∈ ns, n.RegularTree
  first : ∀ n ∈ ns.head?, n.IsDescendant → ∃ k, kind = some k ∧ k.isSimpleSelector = true
  last : ∀ n ∈ ns.getLast?, ¬n.IsDescendant
  neighbours : ns.IsChain fun a b =>
    (a.IsDescendant → b.kind.isSimpleSelector = true) ∧
      (b.IsDescendant → a.kind.isSimpleSelector = true)

/-- Reading the parts of a selector in `s` answers with parts that may follow. -/
def PartsRegular (limit : Nat) (kind : Option NodeKind) (space : Option Token) (s : Scope) : Prop :=
  ∀ ns, selectorParts limit kind space s = .ok ns → Resumes kind space → PartsFollow kind ns

theorem partsFollow_nil : PartsFollow kind [] :=
  ⟨by rintro _ ⟨⟩, by rintro _ ⟨⟩, by rintro _ ⟨⟩, by rintro _ ⟨⟩, .nil⟩

/-- A part goes in front of those that follow it. -/
theorem PartsFollow.cons (h : PartsFollow (some n.kind) ns) (regular : n.RegularTree)
    (part : n.kind.isSimpleSelector = true ∨ n.kind = .combinator)
    (first : n.IsDescendant → ∃ k, kind = some k ∧ k.isSimpleSelector = true)
    (next : n.IsDescendant → ∃ m ∈ ns.head?, m.kind.isSimpleSelector = true) :
    PartsFollow kind (n :: ns) := by
  refine ⟨List.forall_mem_cons.mpr ⟨part, h.part⟩, List.forall_mem_cons.mpr ⟨regular, h.regular⟩,
    ?_, ?_, List.isChain_cons.mpr ⟨?_, h.neighbours⟩⟩
  · rintro _ ⟨⟩
    exact first
  · intro m hm
    rw [List.getLast?_cons, Option.mem_def, Option.some.injEq] at hm
    cases hl : ns.getLast? with
    | none =>
      rw [hl, Option.getD_none] at hm
      subst hm
      intro descends
      obtain ⟨_, found, -⟩ := next descends
      rw [List.getLast?_eq_none_iff.mp hl] at found
      cases found
    | some l =>
      rw [hl, Option.getD_some] at hm
      exact hm ▸ h.last l hl
  · intro m hm
    refine ⟨fun descends => ?_, fun descends => ?_⟩
    · obtain ⟨m', found, simple⟩ := next descends
      obtain rfl : m' = m := Option.some.inj (found.symm.trans hm)
      exact simple
    · obtain ⟨_, ⟨⟩, simple⟩ := h.first m hm descends
      exact simple

theorem not_isDescendant (h : n.kind.isSimpleSelector = true) : ¬n.IsDescendant := by
  rintro ⟨hk, -⟩
  rw [hk] at h
  cases h

/-- A simple selector goes in front of the parts that follow it, after the combinator that the white
space before it stands for. -/
theorem PartsFollow.simple (h : PartsFollow (some n.kind) ns) (regular : n.RegularTree)
    (simple : n.kind.isSimpleSelector = true) (resumes : Resumes kind space) :
    PartsFollow kind (descendant kind space ++ n :: ns) := by
  have follows {kind : Option NodeKind} : PartsFollow kind (n :: ns) :=
    h.cons regular (.inl simple) (fun d => absurd d (not_isDescendant simple))
      fun d => absurd d (not_isDescendant simple)
  unfold descendant
  split
  · split
    · exact follows
    · rename_i w other
      refine follows.cons (n := leaf .combinator (.name " ") w.span) (regularTree_leaf rfl)
        (.inr rfl) (fun _ => ?_) fun _ => ⟨n, rfl, simple⟩
      obtain ⟨k, rfl⟩ : ∃ k, kind = some k := by
        cases kind with
        | none => cases resumes.after rfl
        | some k => exact ⟨k, rfl⟩
      refine ⟨k, rfl, (resumes.part k rfl).resolve_right ?_⟩
      rintro rfl
      exact other rfl
  · exact follows

theorem resumes_simple (h : n.kind.isSimpleSelector = true) : Resumes (some n.kind) none :=
  ⟨by rintro _ ⟨⟩; exact .inl h, fun _ => rfl⟩

theorem resumes_combinator : Resumes (some .combinator) none :=
  ⟨by rintro _ ⟨⟩; exact .inr rfl, fun _ => rfl⟩

/-- A combinator that is written out is not white space. -/
theorem explicitCombinator_name {name : String} {rest : Scope}
    (h : explicitCombinator t rest = some (name, last, after)) : name ≠ " " := by
  unfold explicitCombinator at h
  split at h
  · cases h
    decide
  · cases h
    decide
  · cases h
    decide
  · split at h
    · split at h
      · cases h
        decide
      · cases h
    · cases h
  · cases h

/-- A simple selector is regular if its argument, when it is a list of selectors, is. -/
theorem finish_regular (regular : p.IsRegular) (h : p.finish limit = .ok n)
    (list : ∀ kind name span argument, p = .functional kind name span argument →
      (kind = .pseudoClassSelector && takesSelectors name) = true →
        argument.tokens.isEmpty = false → ListRegular limit argument) :
    n.kind.isSimpleSelector = true ∧ n.RegularTree := by
  cases regular with
  | node simple regular =>
    cases h
    exact ⟨simple, regular⟩
  | @functional kind name span argument pseudo =>
    rw [Simple.finish] at h
    obtain ⟨child, hc, h⟩ := bind_eq_ok_iff.mp h
    cases h
    suffices held : (child.kind = .selectorList ∨ child.kind = .raw) ∧ child.RegularTree by
      refine ⟨by obtain rfl | rfl := pseudo <;> rfl, regularTree_iff.mpr ⟨?_, ?_⟩⟩
      · have one : [child].length ≤ 1 ∧ ∀ c ∈ [child], c.kind = .selectorList ∨ c.kind = .raw :=
          ⟨Nat.le_refl _, List.forall_mem_singleton.mpr held.1⟩
        obtain rfl | rfl := pseudo <;> exact one
      · exact List.forall_mem_singleton.mpr held.2
    unfold argumentNode at hc
    split at hc
    · rename_i takes
      split at hc
      · cases hc
      · rename_i he
        obtain ⟨items, hi, hc⟩ := bind_eq_ok_iff.mp hc
        cases hc
        obtain ⟨nonempty, held⟩ := list _ _ _ _ rfl takes (by simpa using he) items hi
        exact ⟨.inl rfl, regularTree_iff.mpr
          ⟨⟨nonempty, fun m hm => (held m hm).1⟩, fun m hm => (held m hm).2⟩⟩
    · cases hc
      exact ⟨.inr rfl, regularTree_raw argument⟩

/-- A scope that is trimmed starts with a token that matters. -/
theorem trim_head (h : s.trim.tokens = t :: ts) : t.kind.isTrivia = false := by
  have front : s.trim.tokens <+: Token.significant s.tokens := by
    rw [← List.reverse_suffix]
    simpa [Scope.trim, Token.significant] using List.dropWhile_suffix _
  obtain ⟨rest, eq⟩ := front
  rw [h, List.cons_append] at eq
  have := List.head?_dropWhile_not (fun t : Token => t.kind.isTrivia) s.tokens
  rw [show s.tokens.dropWhile (fun t : Token => t.kind.isTrivia) = _ from eq.symm] at this
  simpa using this

/-- A scope that starts with a token that matters has a part. -/
theorem selectorParts_ne_nil (h : selectorParts limit kind space ⟨t :: ts, next⟩ = .ok ns)
    (ht : t.kind.isTrivia = false) : ns ≠ [] := by
  have hk : t.kind ≠ .whiteSpace := by
    intro hk
    rw [hk] at ht
    cases ht
  have hc : t.kind ≠ .comment := by
    intro hc
    rw [hc] at ht
    cases ht
  cases hx : explicitCombinator t ⟨ts, next⟩ with
  | some found =>
    obtain ⟨name, last, after⟩ := found
    rw [selectorParts_combinator hk hc hx] at h
    obtain ⟨rest, -, h⟩ := bind_eq_ok_iff.mp h
    cases h
    exact List.cons_ne_nil _ _
  | none =>
    rw [selectorParts_simple hk hc hx] at h
    obtain ⟨_, -, h⟩ := bind_eq_ok_iff.mp h
    obtain ⟨_, -, h⟩ := bind_eq_ok_iff.mp h
    obtain ⟨_, -, h⟩ := bind_eq_ok_iff.mp h
    cases h
    exact List.append_ne_nil_of_right_ne_nil _ (List.cons_ne_nil _ _)

/-- A selector that is read from a trimmed scope. -/
theorem selectorNode_regular (h : selectorParts limit none none s.trim = .ok ns)
    (nonempty : s.trim.tokens.isEmpty = false) (parts : PartsRegular limit none none s.trim) :
    (⟨.selector, .none, s.trim.span, ns⟩ : Located).RegularTree := by
  obtain ⟨part, regular, first, last, neighbours⟩ := parts ns h ⟨by rintro _ ⟨⟩, fun _ => rfl⟩
  refine regularTree_iff.mpr ⟨⟨?_, part, ?_, last, neighbours⟩, regular⟩
  · cases hs : s.trim.tokens with
    | nil =>
      rw [hs] at nonempty
      cases nonempty
    | cons t ts =>
      have trimmed : s.trim = ⟨t :: ts, s.trim.next⟩ := by rw [← hs]
      rw [trimmed] at h
      exact selectorParts_ne_nil h (trim_head hs)
  · intro n hn descends
    obtain ⟨_, ⟨⟩, -⟩ := first n hn descends

theorem selectors_regular_all : (∀ s, ListRegular limit s) ∧
    ∀ kind space s, PartsRegular limit kind space s := by
  refine selectors_induction limit ?empty ?nonempty ?done ?space ?comment ?combinator ?failed
    ?simple
  case empty =>
    intro s hp ns h
    rw [selectors, if_pos hp] at h
    cases h
  case nonempty =>
    intro s hp parts later ns h
    rw [selectors_nonempty hp] at h
    obtain ⟨children, hc, h⟩ := bind_eq_ok_iff.mp h
    obtain ⟨more, hr, h⟩ := bind_eq_ok_iff.mp h
    cases h
    refine ⟨List.cons_ne_nil _ _,
      List.forall_mem_cons.mpr ⟨⟨rfl, selectorNode_regular hc hp parts⟩, ?_⟩⟩
    split at hr
    · cases hr
      rintro _ ⟨⟩
    · rename_i t ts ht
      exact (later t ts ht more hr).2
  case done =>
    intro kind space next ns h _
    rw [selectorParts] at h
    cases h
    exact partsFollow_nil
  case space =>
    intro kind space t ts next hk ih ns h resumes
    rw [selectorParts_space hk] at h
    refine ih ns h ⟨resumes.part, ?_⟩
    rintro rfl
    exact resumes.after rfl
  case comment =>
    intro kind space t ts next hk hc ih ns h resumes
    rw [selectorParts_comment hk hc] at h
    exact ih ns h resumes
  case combinator =>
    intro kind space t ts next name last after hk hc hx ih ns h _
    rw [selectorParts_combinator hk hc hx] at h
    obtain ⟨rest, hr, h⟩ := bind_eq_ok_iff.mp h
    cases h
    have written : ¬(leaf .combinator (.name name) ⟨t.start, last.stop⟩).IsDescendant := by
      rintro ⟨-, hd⟩
      exact explicitCombinator_name hx (Detail.name.inj hd)
    exact (ih rest hr resumes_combinator).cons (n := leaf .combinator (.name name) _)
      (regularTree_leaf rfl) (.inr rfl) (fun d => absurd d written) fun d => absurd d written
  case failed =>
    intro kind space t ts next e hk hc hn hx ns h
    rw [selectorParts_simple hk hc hn, hx] at h
    cases h
  case simple =>
    intro kind space t ts next p after hk hc hn hx list parts ns h resumes
    rw [selectorParts_simple hk hc hn, hx] at h
    obtain ⟨_, ⟨⟩, h⟩ := bind_eq_ok_iff.mp h
    obtain ⟨n, hfinish, h⟩ := bind_eq_ok_iff.mp h
    obtain ⟨rest, hrest, h⟩ := bind_eq_ok_iff.mp h
    cases h
    obtain ⟨simple, regular⟩ := finish_regular (simpleSelector_isRegular hx) hfinish list
    exact (parts n hfinish rest hrest (resumes_simple simple)).simple regular simple resumes

theorem selectorList_regular (h : selectorList limit s = .ok n) :
    n.kind = .selectorList ∧ n.RegularTree := by
  obtain ⟨items, hi, h⟩ := bind_eq_ok_iff.mp h
  cases h
  obtain ⟨nonempty, held⟩ := selectors_regular_all.1 s items hi
  exact ⟨rfl, regularTree_iff.mpr
    ⟨⟨nonempty, fun m hm => (held m hm).1⟩, fun m hm => (held m hm).2⟩⟩

theorem selector_regular (nonempty : s.trim.tokens.isEmpty = false)
    (h : selector limit s.trim = .ok n) : n.RegularTree := by
  obtain ⟨children, hc, h⟩ := bind_eq_ok_iff.mp h
  cases h
  exact selectorNode_regular hc nonempty (selectors_regular_all.2 none none _)

end Stylesheet.Grammar
