import Stylesheet.Grammar
import Stylesheet.Proofs.Result

/-!
# Steps of the grammar

The functions that read lists go through their scope item by item. Each equation below is one such
step: what the first tokens of a scope say about the item, and the scope in which reading goes on.
-/

namespace Stylesheet.Grammar

open Located

/-! ### Components -/

section

variable {α β : Type} (f : α → β)

theorem isSeparator_map (n : Node α) : isSeparator (n.map f) = isSeparator n := by
  simp only [isSeparator, Node.isOperator, Node.map_kind, Node.map_detail]

theorem continues_map (ns : List (Node α)) : continues (ns.map (Node.map f)) = continues ns := by
  simp only [continues, List.dropWhile_map, Function.comp_def, Node.map_kind]
  cases ns.dropWhile fun n => n.kind = .whiteSpace with
  | nil => rfl
  | cons n ns => exact congrArg (!·) (isSeparator_map f n)

theorem tidyAfter_map (gap : Bool) (ns : List (Node α)) :
    tidyAfter gap (ns.map (Node.map f)) = (tidyAfter gap ns).map (Node.map f) := by
  induction ns generalizing gap with
  | nil => rfl
  | cons n ns ih =>
    rw [List.map_cons, tidyAfter, tidyAfter, continues_map, ih, ih, ih, isSeparator_map,
      Node.map_kind]
    split
    · split <;> rfl
    · rfl

/-- What white space separates does not depend on what is known about the nodes. -/
theorem tidy_map (ns : List (Node α)) :
    tidy (ns.map (Node.map f)) = (tidy ns).map (Node.map f) :=
  tidyAfter_map f false ns

end

section

variable {t : Token} {ts : List Token} {next : Nat}

theorem components_nil : components ⟨[], next⟩ = ⟨[], []⟩ := by
  rw [components]

theorem components_comment (hc : t.kind = .comment) :
    components ⟨t :: ts, next⟩ = components ⟨ts, next⟩ := by
  rw [components]
  dsimp only
  rw [if_pos hc]

theorem components_token (hc : t.kind ≠ .comment) (plain : t.kind.opensBlock = false) :
    components ⟨t :: ts, next⟩ =
      Parsed.cons ⟨tokenNode t, tokenErrors t⟩ (components ⟨ts, next⟩) := by
  rw [components]
  dsimp only
  rw [if_neg hc, plain, if_neg Bool.false_ne_true]

/-- Curly brackets mean nothing in a value, and what they hold is not read. -/
theorem components_curly (hk : t.kind = .leftCurly) :
    components ⟨t :: ts, next⟩ =
      Parsed.cons
        ⟨blockNode (Scope.enter t ⟨ts, next⟩) [], (Scope.enter t ⟨ts, next⟩).errors⟩
        (components (Scope.enter t ⟨ts, next⟩).after) := by
  rw [components]
  simp only [hk, reduceCtorEq, ↓reduceIte]
  rfl

theorem components_block (opens : t.kind.opensBlock = true) (hk : t.kind ≠ .leftCurly) :
    components ⟨t :: ts, next⟩ =
      Parsed.cons
        ⟨blockNode (Scope.enter t ⟨ts, next⟩)
            (tidy (components (Scope.enter t ⟨ts, next⟩).inner).value),
          (components (Scope.enter t ⟨ts, next⟩).inner).errors ++
            (Scope.enter t ⟨ts, next⟩).errors⟩
        (components (Scope.enter t ⟨ts, next⟩).after) := by
  have hc : t.kind ≠ .comment := by
    intro hc
    rw [hc] at opens
    cases opens
  rw [components]
  dsimp only
  rw [if_neg hc, opens, if_pos rfl, if_neg hk]

end

/-- The media queries after a comma, if there is one. -/
def laterQueries (s : Scope) : Parsed (List Located) :=
  match s.tokens with
  | [] => ⟨[], []⟩
  | _ :: ts => mediaQueries ⟨ts, s.next⟩

theorem mediaQueries_eq (s : Scope) :
    mediaQueries s =
      if (s.cut (· = .comma)).1.trim.tokens.isEmpty then laterQueries (s.cut (· = .comma)).2
      else
        (sequenceNode .mediaQuery (s.cut (· = .comma)).1.trim).cons
          (laterQueries (s.cut (· = .comma)).2) := by
  have later : laterQueries (s.cut (· = .comma)).2 =
      match (s.cut (· = .comma)).2.tokens with
      | [] => ⟨[], []⟩
      | _ :: ts => mediaQueries ⟨ts, s.next⟩ := rfl
  rw [mediaQueries, later]
  cases (s.cut (· = .comma)).2.tokens <;> rfl

/-! ### Selectors -/

section

variable {limit : Nat} {s after : Scope} {t last : Token} {space : Option Token}
variable {kind : Option NodeKind} {ts : List Token} {next : Nat}

theorem kind_of_isDelim {c : Char} (h : t.isDelim c = true) : t.kind = .delim := by
  by_cases hk : t.kind = .delim
  · exact hk
  · simp [Token.isDelim, Token.delim?, hk] at h

theorem selectorParts_space (hk : t.kind = .whiteSpace) :
    selectorParts limit kind space ⟨t :: ts, next⟩ =
      selectorParts limit kind (if kind.isSome && space.isNone then some t else space)
        ⟨ts, next⟩ := by
  rw [selectorParts]
  dsimp only
  rw [if_pos hk]

theorem selectorParts_comment (hk : t.kind ≠ .whiteSpace) (hc : t.kind = .comment) :
    selectorParts limit kind space ⟨t :: ts, next⟩ = selectorParts limit kind space ⟨ts, next⟩ := by
  rw [selectorParts]
  dsimp only
  rw [if_neg hk, if_pos hc]

theorem selectorParts_combinator {name : String} (hk : t.kind ≠ .whiteSpace)
    (hc : t.kind ≠ .comment)
    (hx : explicitCombinator t ⟨ts, next⟩ = some (name, last, after)) :
    selectorParts limit kind space ⟨t :: ts, next⟩ =
      selectorParts limit (some .combinator) none after >>= fun rest =>
        .ok (leaf .combinator (.name name) ⟨t.start, last.stop⟩ :: rest) := by
  rw [selectorParts]
  dsimp only
  rw [if_neg hk, if_neg hc]
  split
  · rename_i heq
    rw [hx] at heq
    cases heq
    rfl
  · rename_i heq
    rw [hx] at heq
    cases heq

/-- The argument of a pseudo selector: a list of selectors for some pseudo-classes, otherwise text
that is kept as it is. -/
def argumentNode (limit : Nat) (kind : NodeKind) (name : String) (argument : Scope) :
    SelectorResult Located :=
  if kind = .pseudoClassSelector && takesSelectors name then
    if argument.tokens.isEmpty then .error ⟨.selectorExpected, argument.start⟩
    else do
      let items ← selectors limit argument
      .ok ⟨.selectorList, .none, argument.span, items⟩
  else .ok (raw argument)

/-- The node of a simple selector, once its argument has been read. -/
def Simple.finish (limit : Nat) : Simple → SelectorResult Located
  | .node n => .ok n
  | .functional kind name span argument => do
    let child ← argumentNode limit kind name argument
    .ok ⟨kind, .name name, span, [child]⟩

theorem finish_kind {kind : NodeKind} {name : String} {span : Span} {argument : Scope} {n : Located}
    (h : Simple.finish limit (.functional kind name span argument) = .ok n) : n.kind = kind := by
  rw [Simple.finish] at h
  obtain ⟨child, -, h⟩ := bind_eq_ok_iff.mp h
  cases h
  rfl

theorem selectorParts_simple (hk : t.kind ≠ .whiteSpace) (hc : t.kind ≠ .comment)
    (hn : explicitCombinator t ⟨ts, next⟩ = none) :
    selectorParts limit kind space ⟨t :: ts, next⟩ =
      simpleSelector limit t ⟨ts, next⟩ >>= fun found =>
        found.1.finish limit >>= fun n =>
          selectorParts limit (some n.kind) none found.2 >>= fun rest =>
            .ok (descendant kind space ++ n :: rest) := by
  rw [selectorParts]
  dsimp only
  rw [if_neg hk, if_neg hc]
  split
  · rename_i heq
    rw [hn] at heq
    cases heq
  · split
    · rename_i heq
      rw [heq]
      rfl
    · rename_i heq
      rw [heq]
      rfl
    · rename_i argument after heq
      rw [heq]
      split
      · rename_i hs
        split
        · rename_i he
          simp only [bind, Except.bind, Simple.finish, argumentNode, hs, he, ↓reduceIte]
        · rename_i he
          cases hi : selectors limit argument with
          | error e => simp [bind, Except.bind, Simple.finish, argumentNode, hs, he, hi]
          | ok items => simp [bind, Except.bind, Simple.finish, argumentNode, hs, he, hi]
      · rename_i hs
        simp [bind, Except.bind, Simple.finish, argumentNode, hs]

theorem selectors_nonempty (hp : (s.cut (· = .comma)).1.trim.tokens.isEmpty = false) :
    selectors limit s =
      selectorParts limit none none (s.cut (· = .comma)).1.trim >>= fun children =>
        (match (s.cut (· = .comma)).2.tokens with
          | [] => .ok []
          | _ :: ts => selectors limit ⟨ts, s.next⟩) >>= fun rest =>
            .ok (⟨.selector, .none, (s.cut (· = .comma)).1.trim.span, children⟩ :: rest) := by
  rw [selectors]
  simp only [hp, Bool.false_eq_true, ↓reduceIte]
  cases selectorParts limit none none (s.cut (· = .comma)).1.trim with
  | error e => rfl
  | ok children =>
    dsimp only [bind, Except.bind]
    split
    · rename_i heq
      rw [heq]
    · rename_i heq
      rw [heq]

/-- To prove something of all lists of selectors, and of all parts of selectors, follow how they are
read: token by token, or one simple selector after the other. -/
theorem selectors_induction (limit : Nat) {list : Scope → Prop}
    {parts : Option NodeKind → Option Token → Scope → Prop}
    (empty : ∀ s, (s.cut (· = .comma)).1.trim.tokens.isEmpty = true → list s)
    (nonempty : ∀ s, (s.cut (· = .comma)).1.trim.tokens.isEmpty = false →
      parts none none (s.cut (· = .comma)).1.trim →
        (∀ t ts, (s.cut (· = .comma)).2.tokens = t :: ts → list ⟨ts, s.next⟩) → list s)
    (done : ∀ kind space next, parts kind space ⟨[], next⟩)
    (space : ∀ kind space t ts next, t.kind = .whiteSpace →
      parts kind (if kind.isSome && space.isNone then some t else space) ⟨ts, next⟩ →
        parts kind space ⟨t :: ts, next⟩)
    (comment : ∀ kind space t ts next, t.kind ≠ .whiteSpace → t.kind = .comment →
      parts kind space ⟨ts, next⟩ → parts kind space ⟨t :: ts, next⟩)
    (combinator : ∀ kind space t ts next name last after, t.kind ≠ .whiteSpace →
      t.kind ≠ .comment → explicitCombinator t ⟨ts, next⟩ = some (name, last, after) →
        parts (some .combinator) none after → parts kind space ⟨t :: ts, next⟩)
    (failed : ∀ kind space t ts next e, t.kind ≠ .whiteSpace → t.kind ≠ .comment →
      explicitCombinator t ⟨ts, next⟩ = none → simpleSelector limit t ⟨ts, next⟩ = .error e →
        parts kind space ⟨t :: ts, next⟩)
    (simple : ∀ kind space t ts next p after, t.kind ≠ .whiteSpace → t.kind ≠ .comment →
      explicitCombinator t ⟨ts, next⟩ = none →
        simpleSelector limit t ⟨ts, next⟩ = .ok (p, after) →
          (∀ kind name span argument, p = .functional kind name span argument →
            (kind = .pseudoClassSelector && takesSelectors name) = true →
              argument.tokens.isEmpty = false → list argument) →
            (∀ n, p.finish limit = .ok n → parts (some n.kind) none after) →
              parts kind space ⟨t :: ts, next⟩) :
    (∀ s, list s) ∧ ∀ kind space s, parts kind space s := by
  refine selectors.mutual_induct limit list parts
    ?empty ?list ?done ?space ?comment ?combinator ?failed ?node ?emptyArgument ?selectors ?raw
  case empty => exact empty
  case list =>
    intro s cut part hp hparts rest
    exact nonempty s (by simpa using hp) hparts rest
  case done =>
    rintro kind space ⟨_, next⟩ rfl
    exact done kind space next
  case space =>
    rintro kind space' ⟨_, next⟩ t ts rfl hk _ ih
    exact space kind space' t ts next hk ih
  case comment =>
    rintro kind space ⟨_, next⟩ t ts rfl hk hc ih
    exact comment kind space t ts next hk hc ih
  case combinator =>
    rintro kind space ⟨_, next⟩ t ts rfl hk hc name last after hx ih
    exact combinator kind space t ts next name last after hk hc hx ih
  case failed =>
    rintro kind space ⟨_, next⟩ t ts rfl hk hc hn e hx
    exact failed kind space t ts next e hk hc hn hx
  case node =>
    rintro kind space ⟨_, next⟩ t ts rfl hk hc hn n after hx ih
    refine simple kind space t ts next _ after hk hc hn hx ?_ ?_
    · rintro _ _ _ _ ⟨⟩
    · rintro _ ⟨⟩
      exact ih
  case emptyArgument =>
    rintro kind space ⟨_, next⟩ t ts rfl hk hc hn _ _ _ _ after hx takes he ih
    refine simple kind space t ts next _ after hk hc hn hx ?_ ?_
    · rintro _ _ _ _ ⟨⟩ _ hne
      rw [he] at hne
      cases hne
    · intro n hfinish
      rw [finish_kind hfinish]
      exact ih
  case selectors =>
    rintro kind space ⟨_, next⟩ t ts rfl hk hc hn _ _ _ _ after hx takes he ih hlist
    refine simple kind space t ts next _ after hk hc hn hx ?_ ?_
    · rintro _ _ _ _ ⟨⟩ _ _
      exact hlist
    · intro n hfinish
      rw [finish_kind hfinish]
      exact ih
  case raw =>
    rintro kind space ⟨_, next⟩ t ts rfl hk hc hn _ _ _ _ after hx takes ih
    refine simple kind space t ts next _ after hk hc hn hx ?_ ?_
    · rintro _ _ _ _ ⟨⟩ htakes
      exact absurd htakes takes
    · intro n hfinish
      rw [finish_kind hfinish]
      exact ih

end

/-! ### Declarations -/

/-- A declaration of an ordinary property: a name, a colon and a value. -/
theorem declaration_plain {t colon : Token} {after : List Token} {next : Nat}
    (ht : t.kind = .ident) (hc : colon.kind = .colon) (custom : isCustomProperty t.text = false)
    (trimmed : Scope.trim ⟨t :: colon :: after, next⟩ = ⟨t :: colon :: after, next⟩) :
    declaration ⟨t :: colon :: after, next⟩ =
      (plainValue colon (splitImportant (Scope.trim ⟨after, next⟩)).1).map fun c =>
        ⟨.declaration, .declaration t.text (splitImportant (Scope.trim ⟨after, next⟩)).2,
          Scope.span ⟨t :: colon :: after, next⟩, [c]⟩ := by
  have solid : Token.significant (colon :: after) = colon :: after :=
    List.dropWhile_cons_of_neg (by rw [hc]; exact Bool.false_ne_true)
  rw [declaration, trimmed]
  simp only [ht, hc, solid, custom, ne_eq, not_true_eq_false, Bool.false_eq_true, ↓reduceIte]

/-! ### Rules and block items -/

section

variable {nested top keyframes : Bool} {s : Scope} {t d : Token} {ts : List Token} {next : Nat}
variable {f : Token.Kind → Bool} {b : Block}

/-- An item ends with a block, with another token that ends it, or with its scope. -/
theorem Item.take_cases (f : Token.Kind → Bool) (s : Scope) :
    (∃ d ds, (s.cut f).2 = ⟨d :: ds, s.next⟩ ∧
      Item.take f s = ⟨(s.cut f).1, .block (Scope.enter d ⟨ds, s.next⟩),
        (Scope.enter d ⟨ds, s.next⟩).after⟩) ∨
    (∃ d ds, (s.cut f).2 = ⟨d :: ds, s.next⟩ ∧
      Item.take f s = ⟨(s.cut f).1, .semicolon d, ⟨ds, s.next⟩⟩) ∨
    ((s.cut f).2 = ⟨[], s.next⟩ ∧ Item.take f s = ⟨(s.cut f).1, .missing, ⟨[], s.next⟩⟩) := by
  have hn : (s.cut f).2.next = s.next := rfl
  generalize hc : (s.cut f).2 = rest at hn
  obtain ⟨tokens, next⟩ := rest
  obtain rfl : next = s.next := hn
  cases tokens with
  | nil => exact .inr (.inr ⟨rfl, by simp [Item.take, hc]⟩)
  | cons d ds =>
    by_cases hk : d.kind = .leftCurly
    · exact .inl ⟨d, ds, rfl, by simp [Item.take, hc, hk]⟩
    · exact .inr (.inl ⟨d, ds, rfl, by simp [Item.take, hc, hk]⟩)

theorem Item.take_prelude (f : Token.Kind → Bool) (s : Scope) :
    (Item.take f s).prelude = (s.cut f).1 := by
  obtain ⟨_, _, -, taken⟩ | ⟨_, _, -, taken⟩ | ⟨-, taken⟩ := Item.take_cases f s <;> rw [taken]

/-- The block of an item is entered at the curly bracket its prelude ends before. -/
theorem Item.exists_block (hb : (Item.take f s).ending = .block b) :
    ∃ d ds, (d.kind = .leftCurly ∧ f d.kind = true) ∧ (s.cut f).2 = ⟨d :: ds, s.next⟩ ∧
      b = Scope.enter d ⟨ds, s.next⟩ ∧ Item.take f s = ⟨(s.cut f).1, .block b, b.after⟩ := by
  have hn : (s.cut f).2.next = s.next := rfl
  have found : (s.cut f).2.tokens = (Token.spanTop f s.tokens).2 := rfl
  generalize hc : (s.cut f).2 = rest at hn found
  obtain ⟨tokens, next⟩ := rest
  obtain rfl : next = s.next := hn
  cases tokens with
  | nil => simp [Item.take, hc] at hb
  | cons d ds =>
    by_cases hk : d.kind = .leftCurly
    · obtain rfl : Scope.enter d ⟨ds, s.next⟩ = b := by simpa [Item.take, hc, hk] using hb
      exact ⟨d, ds, ⟨hk, Token.spanTop_head found.symm⟩, rfl, rfl, by simp [Item.take, hc, hk]⟩
    · simp [Item.take, hc, hk] at hb

/-- What is cut at semicolons alone does not end with a block. -/
theorem Item.take_semicolon_ne_block (b : Block) :
    (Item.take (· = .semicolon) s).ending ≠ .block b := by
  intro hb
  obtain ⟨d, ds, ⟨curly, semicolon⟩, -⟩ := Item.exists_block hb
  rw [curly] at semicolon
  cases semicolon

/-- What an at-rule holds before its block. -/
def preludeNodes (name : String) (s : Scope) : Parsed (List Located) :=
  if s.tokens.isEmpty then ⟨[], []⟩ else (atRulePrelude name s).map fun n => [n]

section

variable {rest prelude after : Scope} {block : Parsed Located}

theorem atRuleOf_block :
    atRuleOf t rest ⟨prelude, .block b, after⟩ block =
      ⟨⟨.atrule, .name (atRuleName t), ⟨t.start, b.stop⟩,
          (preludeNodes (atRuleName t) prelude.trim).value ++ [block.value]⟩,
        (preludeNodes (atRuleName t) prelude.trim).errors ++ block.errors⟩ := rfl

theorem atRuleOf_semicolon :
    atRuleOf t rest ⟨prelude, .semicolon d, after⟩ block =
      ⟨⟨.atrule, .name (atRuleName t), ⟨t.start, d.stop⟩,
          (preludeNodes (atRuleName t) prelude.trim).value ++ []⟩,
        (preludeNodes (atRuleName t) prelude.trim).errors⟩ := rfl

/-- Where an at-rule ends that has neither a block nor a semicolon. -/
def openStop (t : Token) (rest prelude : Scope) : Nat :=
  if prelude.trim.tokens.isEmpty then Scope.stop ⟨t :: rest.tokens, rest.next⟩
  else prelude.trim.stop

theorem atRuleOf_missing :
    atRuleOf t rest ⟨prelude, .missing, after⟩ block =
      ⟨⟨.atrule, .name (atRuleName t), ⟨t.start, openStop t rest prelude⟩,
          (preludeNodes (atRuleName t) prelude.trim).value ++ []⟩,
        (preludeNodes (atRuleName t) prelude.trim).errors ++
          [⟨.semicolonOrBlockExpected, openStop t rest prelude⟩]⟩ := rfl

/-- An at-rule holds its prelude, if there is one, and its block, if it ends with one. -/
theorem exists_atRuleOf_value (t : Token) (rest : Scope) (item : Item) (block : Parsed Located) :
    ∃ stop blocks, (atRuleOf t rest item block).value =
        ⟨.atrule, .name (atRuleName t), ⟨t.start, stop⟩,
          (preludeNodes (atRuleName t) item.prelude.trim).value ++ blocks⟩ ∧
      blocks.length ≤ 1 ∧ ∀ n ∈ blocks, n = block.value ∧ ∃ b, item.ending = .block b := by
  obtain ⟨prelude, ending, after⟩ := item
  cases ending with
  | block b =>
    exact ⟨_, [block.value], congrArg Parsed.value atRuleOf_block, Nat.le_refl _,
      List.forall_mem_singleton.mpr ⟨rfl, b, rfl⟩⟩
  | semicolon d =>
    exact ⟨_, [], congrArg Parsed.value atRuleOf_semicolon, Nat.zero_le _, by rintro _ ⟨⟩⟩
  | missing =>
    exact ⟨_, [], congrArg Parsed.value atRuleOf_missing, Nat.zero_le _, by rintro _ ⟨⟩⟩

end

theorem atRule_block (hb : (Item.take endsPrelude s).ending = .block b) :
    atRule nested t s = atRuleOf t s (Item.take endsPrelude s) (withBlock b
      (if BlockStyle.ofName nested (atRuleName t) = .declarations then blockItems true b.inner
        else ruleList false (BlockStyle.ofName nested (atRuleName t) = .keyframes) nested
          b.inner)) := by
  rw [atRule]
  split
  · rename_i heq
    rw [hb] at heq
    cases heq
    rfl
  · rename_i hno
    exact absurd hb (hno b)

theorem atRule_unblocked (hb : ∀ b, (Item.take endsPrelude s).ending ≠ .block b) :
    atRule nested t s =
      atRuleOf t s (Item.take endsPrelude s) ⟨raw (Item.take endsPrelude s).after, []⟩ := by
  rw [atRule]
  split
  · rename_i heq
    exact absurd heq (hb _)
  · rfl

/-- An at-rule holds what was read inside its block, if it has one. -/
theorem exists_atRuleOf (nested : Bool) (t : Token) (s : Scope) :
    ∃ block, atRule nested t s = atRuleOf t s (Item.take endsPrelude s) block ∧
      ∀ b, (Item.take endsPrelude s).ending = .block b → ∃ items, block = withBlock b items ∧
        (items = blockItems true b.inner ∨ items =
          ruleList false (BlockStyle.ofName nested (atRuleName t) = .keyframes) nested b.inner) := by
  by_cases blocked : ∃ b, (Item.take endsPrelude s).ending = .block b
  · obtain ⟨b, hb⟩ := blocked
    refine ⟨_, atRule_block hb, fun b' hb' => ?_⟩
    obtain rfl : b = b' := Ending.block.inj (hb.symm.trans hb')
    refine ⟨_, rfl, ?_⟩
    split
    · exact .inl rfl
    · exact .inr rfl
  · have unblocked := not_exists.mp blocked
    exact ⟨_, atRule_unblocked unblocked, fun b hb => absurd hb (unblocked b)⟩

theorem ruleList_nil : ruleList top keyframes nested ⟨[], next⟩ = ⟨[], []⟩ := by
  rw [ruleList]

theorem ruleList_skip
    (hk : (t.kind.isTrivia || (top && (t.kind = .cdo || t.kind = .cdc))) = true) :
    ruleList top keyframes nested ⟨t :: ts, next⟩ =
      ruleList top keyframes nested ⟨ts, next⟩ := by
  rw [ruleList]
  dsimp only
  rw [if_pos hk]

theorem ruleList_atRule
    (hk : ¬(t.kind.isTrivia || (top && (t.kind = .cdo || t.kind = .cdc))) = true)
    (ha : t.kind = .atKeyword) :
    ruleList top keyframes nested ⟨t :: ts, next⟩ =
      (atRule nested t ⟨ts, next⟩).cons
        (ruleList top keyframes nested (Item.take endsPrelude ⟨ts, next⟩).after) := by
  rw [ruleList]
  dsimp only
  rw [if_neg hk, if_pos ha]

theorem ruleList_rule
    (hk : ¬(t.kind.isTrivia || (top && (t.kind = .cdo || t.kind = .cdc))) = true)
    (ha : t.kind ≠ .atKeyword)
    (hb : (Item.take (· = .leftCurly) ⟨t :: ts, next⟩).ending = .block b) :
    ruleList top keyframes nested ⟨t :: ts, next⟩ =
      (styleRule t.start
        (rulePrelude keyframes (Scope.stop ⟨t :: ts, next⟩)
          (Item.take (· = .leftCurly) ⟨t :: ts, next⟩).prelude)
        (withBlock b (blockItems true b.inner))).cons
        (ruleList top keyframes nested (Item.take (· = .leftCurly) ⟨t :: ts, next⟩).after) := by
  rw [ruleList]
  dsimp only
  rw [if_neg hk, if_neg ha]
  split
  · rename_i heq
    rw [hb] at heq
    cases heq
    rfl
  · rename_i hno
    exact absurd hb (hno b)

theorem ruleList_rest
    (hk : ¬(t.kind.isTrivia || (top && (t.kind = .cdo || t.kind = .cdc))) = true)
    (ha : t.kind ≠ .atKeyword)
    (hb : ∀ b, (Item.take (· = .leftCurly) ⟨t :: ts, next⟩).ending ≠ .block b) :
    ruleList top keyframes nested ⟨t :: ts, next⟩ =
      ⟨[raw (Scope.trim ⟨t :: ts, next⟩)],
        [⟨.leftCurlyExpected, Scope.stop ⟨t :: ts, next⟩⟩]⟩ := by
  rw [ruleList]
  dsimp only
  rw [if_neg hk, if_neg ha]
  split
  · rename_i heq
    exact absurd heq (hb _)
  · rfl

theorem blockItems_nil : blockItems nested ⟨[], next⟩ = ⟨[], []⟩ := by
  rw [blockItems]

theorem blockItems_skip (hk : (t.kind.isTrivia || t.kind = .semicolon) = true) :
    blockItems nested ⟨t :: ts, next⟩ = blockItems nested ⟨ts, next⟩ := by
  rw [blockItems]
  dsimp only
  rw [if_pos hk]

theorem blockItems_atRule (hk : ¬(t.kind.isTrivia || t.kind = .semicolon) = true)
    (ha : t.kind = .atKeyword) :
    blockItems nested ⟨t :: ts, next⟩ =
      (atRule nested t ⟨ts, next⟩).cons
        (blockItems nested (Item.take endsPrelude ⟨ts, next⟩).after) := by
  rw [blockItems]
  dsimp only
  rw [if_neg hk, if_pos ha]

theorem blockItems_declaration (hk : ¬(t.kind.isTrivia || t.kind = .semicolon) = true)
    (ha : t.kind ≠ .atKeyword) (hd : (t.kind = .ident && startsDeclaration t ⟨ts, next⟩) = true) :
    blockItems nested ⟨t :: ts, next⟩ =
      (declaration (Item.take (· = .semicolon) ⟨t :: ts, next⟩).prelude).cons
        (blockItems nested (Item.take (· = .semicolon) ⟨t :: ts, next⟩).after) := by
  rw [blockItems]
  dsimp only
  rw [if_neg hk, if_neg ha, if_pos hd]

theorem blockItems_rule (hk : ¬(t.kind.isTrivia || t.kind = .semicolon) = true)
    (ha : t.kind ≠ .atKeyword) (hd : ¬(t.kind = .ident && startsDeclaration t ⟨ts, next⟩) = true)
    (hb : (Item.take endsPrelude ⟨t :: ts, next⟩).ending = .block b) :
    blockItems nested ⟨t :: ts, next⟩ =
      (styleRule t.start
        (rulePrelude false (Scope.stop ⟨t :: ts, next⟩)
          (Item.take endsPrelude ⟨t :: ts, next⟩).prelude)
        (withBlock b (blockItems true b.inner))).cons
        (blockItems nested (Item.take endsPrelude ⟨t :: ts, next⟩).after) := by
  rw [blockItems]
  dsimp only
  rw [if_neg hk, if_neg ha, if_neg hd]
  split
  · rename_i heq
    rw [hb] at heq
    cases heq
    rfl
  · rename_i hno
    exact absurd hb (hno b)

theorem blockItems_loose (hk : ¬(t.kind.isTrivia || t.kind = .semicolon) = true)
    (ha : t.kind ≠ .atKeyword) (hd : ¬(t.kind = .ident && startsDeclaration t ⟨ts, next⟩) = true)
    (hb : ∀ b, (Item.take endsPrelude ⟨t :: ts, next⟩).ending ≠ .block b) :
    blockItems nested ⟨t :: ts, next⟩ =
      (looseItem t (Item.take endsPrelude ⟨t :: ts, next⟩).prelude).cons
        (blockItems nested (Item.take endsPrelude ⟨t :: ts, next⟩).after) := by
  rw [blockItems]
  dsimp only
  rw [if_neg hk, if_neg ha, if_neg hd]
  split
  · rename_i heq
    exact absurd heq (hb _)
  · rfl

/-- To prove something of all at-rules, all lists of rules and all lists of items, follow how they
are read: item by item, and within each item the block that it ends with. -/
theorem items_induction {ofAtRule : Bool → Token → Scope → Prop}
    {ofRules : Bool → Bool → Bool → Scope → Prop} {ofItems : Bool → Scope → Prop}
    (atRule_of : ∀ (nested : Bool) (t : Token) (rest : Scope),
      (∀ b, (Item.take endsPrelude rest).ending = .block b → ofItems true b.inner ∧
        ofRules false (BlockStyle.ofName nested (atRuleName t) = .keyframes) nested b.inner) →
          ofAtRule nested t rest)
    (rulesEnd : ∀ top keyframes nested next, ofRules top keyframes nested ⟨[], next⟩)
    (rulesSkip : ∀ (top keyframes nested : Bool) (t : Token) (ts : List Token) (next : Nat),
      (t.kind.isTrivia || (top && (t.kind = .cdo || t.kind = .cdc))) = true →
        ofRules top keyframes nested ⟨ts, next⟩ → ofRules top keyframes nested ⟨t :: ts, next⟩)
    (rulesAtRule : ∀ (top keyframes nested : Bool) (t : Token) (ts : List Token) (next : Nat),
      ¬(t.kind.isTrivia || (top && (t.kind = .cdo || t.kind = .cdc))) = true →
        t.kind = .atKeyword → ofAtRule nested t ⟨ts, next⟩ →
          ofRules top keyframes nested (Item.take endsPrelude ⟨ts, next⟩).after →
            ofRules top keyframes nested ⟨t :: ts, next⟩)
    (rulesRule : ∀ (top keyframes nested : Bool) (t : Token) (ts : List Token) (next : Nat)
      (b : Block),
      ¬(t.kind.isTrivia || (top && (t.kind = .cdo || t.kind = .cdc))) = true →
        t.kind ≠ .atKeyword → (Item.take (· = .leftCurly) ⟨t :: ts, next⟩).ending = .block b →
          ofItems true b.inner →
            ofRules top keyframes nested (Item.take (· = .leftCurly) ⟨t :: ts, next⟩).after →
              ofRules top keyframes nested ⟨t :: ts, next⟩)
    (rulesRest : ∀ (top keyframes nested : Bool) (t : Token) (ts : List Token) (next : Nat),
      ¬(t.kind.isTrivia || (top && (t.kind = .cdo || t.kind = .cdc))) = true →
        t.kind ≠ .atKeyword →
          (∀ b, (Item.take (· = .leftCurly) ⟨t :: ts, next⟩).ending ≠ .block b) →
            ofRules top keyframes nested ⟨t :: ts, next⟩)
    (itemsEnd : ∀ nested next, ofItems nested ⟨[], next⟩)
    (itemsSkip : ∀ (nested : Bool) (t : Token) (ts : List Token) (next : Nat),
      (t.kind.isTrivia || t.kind = .semicolon) = true →
        ofItems nested ⟨ts, next⟩ → ofItems nested ⟨t :: ts, next⟩)
    (itemsAtRule : ∀ (nested : Bool) (t : Token) (ts : List Token) (next : Nat),
      ¬(t.kind.isTrivia || t.kind = .semicolon) = true →
        t.kind = .atKeyword → ofAtRule nested t ⟨ts, next⟩ →
          ofItems nested (Item.take endsPrelude ⟨ts, next⟩).after → ofItems nested ⟨t :: ts, next⟩)
    (itemsDeclaration : ∀ (nested : Bool) (t : Token) (ts : List Token) (next : Nat),
      ¬(t.kind.isTrivia || t.kind = .semicolon) = true →
        t.kind ≠ .atKeyword → (t.kind = .ident && startsDeclaration t ⟨ts, next⟩) = true →
          ofItems nested (Item.take (· = .semicolon) ⟨t :: ts, next⟩).after →
            ofItems nested ⟨t :: ts, next⟩)
    (itemsRule : ∀ (nested : Bool) (t : Token) (ts : List Token) (next : Nat) (b : Block),
      ¬(t.kind.isTrivia || t.kind = .semicolon) = true →
        t.kind ≠ .atKeyword → ¬(t.kind = .ident && startsDeclaration t ⟨ts, next⟩) = true →
          (Item.take endsPrelude ⟨t :: ts, next⟩).ending = .block b → ofItems true b.inner →
            ofItems nested (Item.take endsPrelude ⟨t :: ts, next⟩).after →
              ofItems nested ⟨t :: ts, next⟩)
    (itemsLoose : ∀ (nested : Bool) (t : Token) (ts : List Token) (next : Nat),
      ¬(t.kind.isTrivia || t.kind = .semicolon) = true →
        t.kind ≠ .atKeyword → ¬(t.kind = .ident && startsDeclaration t ⟨ts, next⟩) = true →
          (∀ b, (Item.take endsPrelude ⟨t :: ts, next⟩).ending ≠ .block b) →
            ofItems nested (Item.take endsPrelude ⟨t :: ts, next⟩).after →
              ofItems nested ⟨t :: ts, next⟩) :
    (∀ nested t rest, ofAtRule nested t rest) ∧
      (∀ top keyframes nested s, ofRules top keyframes nested s) ∧
        ∀ nested s, ofItems nested s := by
  refine atRule.mutual_induct ofAtRule ofRules ofItems
    ?atBlock ?atOther ?rulesEnd ?rulesSkip ?rulesAtRule ?rulesRule ?rulesRest ?itemsEnd ?itemsSkip
    ?itemsAtRule ?itemsDeclaration ?itemsRule ?itemsLoose
  case atBlock =>
    intro nested t rest item b hb style items rules
    refine atRule_of nested t rest fun b' hb' => ?_
    obtain rfl : b = b' := Ending.block.inj (hb.symm.trans hb')
    exact ⟨items, rules⟩
  case atOther =>
    intro nested t rest item hno
    exact atRule_of nested t rest fun b hb => absurd hb (hno b)
  case rulesEnd =>
    rintro top keyframes nested ⟨_, next⟩ rfl
    exact rulesEnd top keyframes nested next
  case rulesSkip =>
    rintro top keyframes nested ⟨_, next⟩ t ts rfl
    exact rulesSkip top keyframes nested t ts next
  case rulesAtRule =>
    rintro top keyframes nested ⟨_, next⟩ t ts rfl
    exact rulesAtRule top keyframes nested t ts next
  case rulesRule =>
    rintro top keyframes nested ⟨_, next⟩ t ts rfl hk ha item b
    exact rulesRule top keyframes nested t ts next b hk ha
  case rulesRest =>
    rintro top keyframes nested ⟨_, next⟩ t ts rfl
    exact rulesRest top keyframes nested t ts next
  case itemsEnd =>
    rintro nested ⟨_, next⟩ rfl
    exact itemsEnd nested next
  case itemsSkip =>
    rintro nested ⟨_, next⟩ t ts rfl
    exact itemsSkip nested t ts next
  case itemsAtRule =>
    rintro nested ⟨_, next⟩ t ts rfl
    exact itemsAtRule nested t ts next
  case itemsDeclaration =>
    rintro nested ⟨_, next⟩ t ts rfl
    exact itemsDeclaration nested t ts next
  case itemsRule =>
    rintro nested ⟨_, next⟩ t ts rfl hk ha hd item b
    exact itemsRule nested t ts next b hk ha hd
  case itemsLoose =>
    rintro nested ⟨_, next⟩ t ts rfl
    exact itemsLoose nested t ts next

end

end Stylesheet.Grammar
