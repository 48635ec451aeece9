import Stylesheet.Proofs.Kept.Item

/-!
# What parts of a scope inherit

Much of what is known about a scope is known about its parts, too: that it lies in the text, say, or
how its tokens are spelt. Whatever follows from it for each simple selector, each combinator and each
item follows then for all that are read, at any depth.
-/

namespace Stylesheet.Grammar

open Located Scope

variable {S : Scope → Prop} {P : Located → Prop} {s : Scope}

/-- To prove something of all parts of the selectors that are read in a scope, prove it of
combinators and of simple selectors, of these with what holds of the parts of their argument. -/
theorem selectors_forall (limit : Nat) (part : ∀ {p s : Scope}, p.IsPart s → S s → S p)
    (descendant : ∀ kind space, ∀ n ∈ descendant kind space, P n)
    (combinator : ∀ {t ts next name last after}, S ⟨t :: ts, next⟩ →
      explicitCombinator t ⟨ts, next⟩ = some (name, last, after) →
        P (leaf .combinator (.name name) ⟨t.start, last.stop⟩))
    (simple : ∀ {t ts next p after n}, S ⟨t :: ts, next⟩ →
      simpleSelector limit t ⟨ts, next⟩ = .ok (p, after) → p.finish limit = .ok n →
        (∀ kind name span argument, p = .functional kind name span argument →
          (kind = .pseudoClassSelector && takesSelectors name) = true →
            argument.tokens.isEmpty = false → S argument → ∀ ns, selectors limit argument = .ok ns →
              ∀ n ∈ ns, n.kind = .selector ∧ n.detail = .none ∧ ∀ c ∈ n.children, P c) →
          P n) :
    (∀ s, S s → ∀ ns, selectors limit s = .ok ns →
      ∀ n ∈ ns, n.kind = .selector ∧ n.detail = .none ∧ ∀ c ∈ n.children, P c) ∧
    ∀ kind space s, S s → ∀ ns, selectorParts limit kind space s = .ok ns → ∀ n ∈ ns, P n := by
  refine selectors_induction limit ?empty ?nonempty ?done ?space ?comment ?combinator ?failed
    ?simple
  case empty =>
    intro s hp _ ns h
    rw [selectors, if_pos hp] at h
    cases h
  case nonempty =>
    intro s hp parts later hs ns h
    rw [selectors_nonempty hp] at h
    obtain ⟨children, hc, h⟩ := bind_eq_ok_iff.mp h
    obtain ⟨more, hr, h⟩ := bind_eq_ok_iff.mp h
    cases h
    have first : S (s.cut (· = .comma)).1.trim :=
      part ((trim_isPart _).trans (cut_fst_isPart (· = .comma) s)) hs
    refine List.forall_mem_cons.mpr ⟨⟨rfl, rfl, parts first children hc⟩, ?_⟩
    split at hr
    · cases hr
      rintro _ ⟨⟩
    · rename_i t ts ht
      exact later t ts ht (part (cut_rest_isPart ht) hs) more hr
  case done =>
    intro kind space next _ ns h
    rw [selectorParts] at h
    cases h
    rintro _ ⟨⟩
  case space =>
    intro kind space t ts next hk ih hs ns h
    rw [selectorParts_space hk] at h
    exact ih (part isPart_tail hs) ns h
  case comment =>
    intro kind space t ts next hk hc ih hs ns h
    rw [selectorParts_comment hk hc] at h
    exact ih (part isPart_tail hs) ns h
  case combinator =>
    intro kind space t ts next name last after hk hc hx ih hs ns h
    rw [selectorParts_combinator hk hc hx] at h
    obtain ⟨rest, hr, h⟩ := bind_eq_ok_iff.mp h
    cases h
    have later := part (explicitCombinator_follows hx).isPart hs
    exact List.forall_mem_cons.mpr ⟨combinator hs hx, ih later rest hr⟩
  case failed =>
    intro kind space t ts next e hk hc hn hx _ ns h
    rw [selectorParts_simple hk hc hn, hx] at h
    cases h
  case simple =>
    intro kind space t ts next p after hk hc hn hx list parts hs ns h
    rw [selectorParts_simple hk hc hn, hx] at h
    obtain ⟨_, ⟨⟩, h⟩ := bind_eq_ok_iff.mp h
    obtain ⟨n, made, h⟩ := bind_eq_ok_iff.mp h
    obtain ⟨rest, hrest, h⟩ := bind_eq_ok_iff.mp h
    cases h
    obtain ⟨last, follows, -⟩ := simpleSelector_readOff hx
    have later := parts n made (part follows.isPart hs) rest hrest
    refine List.forall_mem_append.mpr ⟨descendant kind space,
      List.forall_mem_cons.mpr ⟨simple hs hx made ?_, later⟩⟩
    exact fun kind name span argument same takes some inside =>
      list kind name span argument same takes some inside

/-- What is known of a scope is known of all that items are read from in it. -/
structure Inherits (S : Scope → Prop) : Prop where
  tail : ∀ {t ts next}, t.kind.opensBlock = false → S ⟨t :: ts, next⟩ → S ⟨ts, next⟩
  trim : ∀ {s}, S s → S s.trim
  prelude : ∀ {f s}, S s → S (Item.take f s).prelude
  inner : ∀ {f s b}, (Item.take f s).ending = .block b → S s → S b.inner
  after : ∀ {f s}, EndsItems f → S s → S (Item.take f s).after

/-- What is known of the parts of a scope is. -/
theorem Inherits.of_part (part : ∀ {p s : Scope}, p.IsPart s → S s → S p) : Inherits S where
  tail _ := part isPart_tail
  trim := part (trim_isPart _)
  prelude := part (item_prelude_isPart _ _)
  inner hb := part (item_inner_isPart hb)
  after _ := part (item_after_isPart _ _)

/-- To prove something of all items that are read in a scope, prove it of raw text, of declarations
and of what is read in the place of one, and of rules and at-rules with what holds of the items of
their blocks. -/
theorem items_forall (inherits : Inherits S)
    (raw : ∀ {s : Scope}, S s → P (raw s)) (declaration : ∀ {s}, S s → P (declaration s).value)
    (rule : ∀ {f s b start limit keyframes} {items : Parsed (List Located)}, S s →
      (Item.take f s).ending = .block b → (∀ n ∈ items.value, P n) →
        P (styleRule start (rulePrelude keyframes limit (Item.take f s).prelude)
          (withBlock b items)).value)
    (atRule_of : ∀ {nested t rest block}, S ⟨t :: rest.tokens, rest.next⟩ → t.kind = .atKeyword →
      atRule nested t rest = atRuleOf t rest (Item.take endsPrelude rest) block →
        (∀ b, (Item.take endsPrelude rest).ending = .block b → ∃ items, block = withBlock b items ∧
          ∀ n ∈ items.value, P n) →
            P (atRule nested t rest).value) :
    (∀ nested t rest, S ⟨t :: rest.tokens, rest.next⟩ → t.kind = .atKeyword →
      P (atRule nested t rest).value) ∧
    (∀ top keyframes nested s, S s → ∀ n ∈ (ruleList top keyframes nested s).value, P n) ∧
    ∀ nested s, S s → ∀ n ∈ (blockItems nested s).value, P n := by
  have loose (t : Token) {s : Scope} (hs : S s) : P (looseItem t s).value := by
    unfold looseItem
    split
    · exact declaration hs
    · exact raw (inherits.trim hs)
  refine items_induction ?atRule ?rulesEnd ?rulesSkip ?rulesAtRule ?rulesRule ?rulesRest ?itemsEnd
    ?itemsSkip ?itemsAtRule ?itemsDeclaration ?itemsRule ?itemsLoose
  case atRule =>
    intro nested t rest within hs keyword
    obtain ⟨block, read, items⟩ := exists_atRuleOf nested t rest
    refine atRule_of hs keyword read fun b hb => ?_
    obtain ⟨ofItems, ofRules⟩ := within b hb
    have inner := inherits.inner hb (inherits.tail (by rw [keyword]; rfl) hs)
    obtain ⟨items, rfl, rfl | rfl⟩ := items b hb
    · exact ⟨_, rfl, ofItems inner⟩
    · exact ⟨_, rfl, ofRules inner⟩
  case rulesEnd =>
    intro top keyframes nested next _
    rw [ruleList_nil]
    rintro _ ⟨⟩
  case rulesSkip =>
    intro top keyframes nested t ts next hk ih hs
    rw [ruleList_skip hk]
    exact ih (inherits.tail (Token.Kind.opensBlock_of_separatesRules hk) hs)
  case rulesAtRule =>
    intro top keyframes nested t ts next hk ha hat ih hs
    have after := inherits.after endsItems_endsPrelude (inherits.tail (by rw [ha]; rfl) hs)
    rw [ruleList_atRule hk ha]
    exact List.forall_mem_cons.mpr ⟨hat hs ha, ih after⟩
  case rulesRule =>
    intro top keyframes nested t ts next b hk ha hb items ih hs
    rw [ruleList_rule hk ha hb]
    exact List.forall_mem_cons.mpr ⟨rule hs hb (items (inherits.inner hb hs)),
      ih (inherits.after endsItems_leftCurly hs)⟩
  case rulesRest =>
    intro top keyframes nested t ts next hk ha hno hs
    rw [ruleList_rest hk ha hno]
    exact List.forall_mem_singleton.mpr (raw (inherits.trim hs))
  case itemsEnd =>
    intro nested next _
    rw [blockItems_nil]
    rintro _ ⟨⟩
  case itemsSkip =>
    intro nested t ts next hk ih hs
    rw [blockItems_skip hk]
    exact ih (inherits.tail (Token.Kind.opensBlock_of_separatesItems hk) hs)
  case itemsAtRule =>
    intro nested t ts next hk ha hat ih hs
    have after := inherits.after endsItems_endsPrelude (inherits.tail (by rw [ha]; rfl) hs)
    rw [blockItems_atRule hk ha]
    exact List.forall_mem_cons.mpr ⟨hat hs ha, ih after⟩
  case itemsDeclaration =>
    intro nested t ts next hk ha hd ih hs
    rw [blockItems_declaration hk ha hd]
    exact List.forall_mem_cons.mpr ⟨declaration (inherits.prelude hs),
      ih (inherits.after endsItems_semicolon hs)⟩
  case itemsRule =>
    intro nested t ts next b hk ha hd hb items ih hs
    rw [blockItems_rule hk ha hd hb]
    exact List.forall_mem_cons.mpr ⟨rule hs hb (items (inherits.inner hb hs)),
      ih (inherits.after endsItems_endsPrelude hs)⟩
  case itemsLoose =>
    intro nested t ts next hk ha hd hno ih hs
    rw [blockItems_loose hk ha hd hno]
    exact List.forall_mem_cons.mpr ⟨loose t (inherits.prelude hs),
      ih (inherits.after endsItems_endsPrelude hs)⟩

/-! ### All nodes -/

/-- What there is to prove of rules and of declarations, and of all other nodes by their kind, in
order to have it of every node that is read. -/
structure Covers (S : Scope → Prop) (Q : Located → Prop) : Prop extends Inherits S where
  ofDeclaration : ∀ {s}, S s → Q (declaration s).value
  ofRule : ∀ {f s b start limit keyframes} {items : Parsed (List Located)}, S s →
    (Item.take f s).ending = .block b →
      Q (styleRule start (rulePrelude keyframes limit (Item.take f s).prelude)
        (withBlock b items)).value
  other : ∀ {n}, n.kind ≠ .declaration → n.kind ≠ .rule → Q n

namespace Covers

open Node

variable {Q : Located → Prop} {f : Token.Kind → Bool} {t : Token} {rest : Scope} {b : Block}
variable {n : Located} {items : Parsed (List Located)}

theorem nodes_children (here : Q n) (below : ∀ c ∈ n.children, ∀ m ∈ c.nodes, Q m) :
    ∀ m ∈ n.nodes, Q m := by
  intro m hm
  obtain rfl | ⟨c, hc, hm⟩ := mem_nodes_iff.mp hm
  · exact here
  · exact below c hc m hm

theorem nodes_plain (h : Covers S Q) (regular : n.RegularTree) (plain : n.kind.isStructural = false) :
    ∀ m ∈ n.nodes, Q m := by
  intro m hm
  have plain := plain_nodes n regular plain m hm
  refine h.other ?_ ?_ <;> intro kind <;> rw [kind] at plain <;> cases plain

theorem nodes_raw (h : Covers S Q) (s : Scope) : ∀ m ∈ (raw s).nodes, Q m :=
  h.nodes_plain (regularTree_raw s) rfl

theorem nodes_declaration (h : Covers S Q) (hs : S s) : ∀ m ∈ (declaration s).value.nodes, Q m := by
  obtain ⟨kind, regular⟩ := declaration_regular s
  refine nodes_children (h.ofDeclaration hs) fun c hc => h.nodes_plain ?_ ?_
  · exact (regularTree_iff.mp regular).2 c hc
  · exact regular.plain_inside (kind.imp_right fun hk => by rw [hk]; rfl) c hc c
      (mem_nodes_iff.mpr (.inl rfl))

theorem nodes_withBlock (h : Covers S Q) (inner : ∀ n ∈ items.value, ∀ m ∈ n.nodes, Q m) :
    ∀ m ∈ (withBlock b items).value.nodes, Q m :=
  nodes_children (h.other nofun nofun) inner

theorem nodes_styleRule {start limit : Nat} {keyframes : Bool} (h : Covers S Q) (hs : S s)
    (hb : (Item.take f s).ending = .block b) (inner : ∀ n ∈ items.value, ∀ m ∈ n.nodes, Q m) :
    ∀ m ∈ (styleRule start (rulePrelude keyframes limit (Item.take f s).prelude)
      (withBlock b items)).value.nodes, Q m := by
  obtain ⟨kinds, regular⟩ := rulePrelude_regular keyframes limit (Item.take f s).prelude
  refine nodes_children (h.ofRule hs hb) (List.forall_mem_cons.mpr
    ⟨h.nodes_plain regular ?_, List.forall_mem_singleton.mpr (h.nodes_withBlock inner)⟩)
  obtain kind | kind := kinds <;> rw [kind] <;> rfl

theorem nodes_atRuleOf {item : Item} {block : Parsed Located} (h : Covers S Q)
    (inner : ∀ b, item.ending = .block b → ∀ m ∈ block.value.nodes, Q m) :
    ∀ m ∈ (atRuleOf t rest item block).value.nodes, Q m := by
  obtain ⟨-, preludes⟩ := preludeNodes_regular (atRuleName t) item.prelude.trim
  obtain ⟨stop, blocks, node, -, held⟩ := exists_atRuleOf_value t rest item block
  rw [node]
  refine nodes_children (h.other nofun nofun)
    (List.forall_mem_append.mpr ⟨fun n hn => ?_, fun n hn => ?_⟩)
  · obtain ⟨kind, regular⟩ := preludes n hn
    exact h.nodes_plain regular (by rw [kind]; rfl)
  · obtain ⟨rfl, b, hb⟩ := held n hn
    exact inner b hb

theorem nodes_items (h : Covers S Q) :
    (∀ nested t rest, S ⟨t :: rest.tokens, rest.next⟩ → t.kind = .atKeyword →
      ∀ m ∈ (atRule nested t rest).value.nodes, Q m) ∧
    (∀ top keyframes nested s, S s →
      ∀ n ∈ (ruleList top keyframes nested s).value, ∀ m ∈ n.nodes, Q m) ∧
    ∀ nested s, S s → ∀ n ∈ (blockItems nested s).value, ∀ m ∈ n.nodes, Q m := by
  refine items_forall (P := fun n => ∀ m ∈ n.nodes, Q m) h.toInherits ?raw ?declaration ?rule
    ?atRule
  case raw => exact fun _ => h.nodes_raw _
  case declaration => exact h.nodes_declaration
  case rule => exact h.nodes_styleRule
  case atRule =>
    intro nested t rest block _ _ read items
    rw [read]
    refine h.nodes_atRuleOf fun b hb => ?_
    obtain ⟨items, rfl, held⟩ := items b hb
    exact h.nodes_withBlock held

theorem trimStart (h : Covers S Q) : ∀ {s : Scope}, S s → S s.trimStart := by
  rintro ⟨tokens, next⟩ hs
  rw [Scope.trimStart]
  dsimp only
  induction tokens with
  | nil => exact hs
  | cons t ts ih =>
    rw [Token.significant, List.dropWhile_cons]
    split
    · rename_i trivia
      exact ih (h.tail (Token.Kind.opensBlock_of_isTrivia trivia) hs)
    · exact hs

theorem nodes_rawRest (h : Covers S Q) (fault : Fault) :
    ∀ m ∈ (rawRest fault s).1.value.nodes, Q m :=
  h.nodes_raw _

theorem nodes_qualifiedRule (h : Covers S Q) (hs : S s) :
    ∀ m ∈ (qualifiedRule s).1.value.nodes, Q m := by
  unfold qualifiedRule
  dsimp only
  split
  · rename_i b hb
    exact h.nodes_styleRule hs hb (h.nodes_items.2.2 true b.inner (h.inner hb hs))
  · exact h.nodes_raw _

theorem nodes_oneAtRule (h : Covers S Q) (hs : S s) : ∀ m ∈ (oneAtRule s).value.nodes, Q m := by
  have trimmed := h.trimStart hs
  unfold oneAtRule
  dsimp only
  rw [noMore_value]
  generalize s.trimStart = s at trimmed
  split
  · rename_i t ts ht
    obtain ⟨tokens, next⟩ := s
    obtain rfl : tokens = t :: ts := ht
    split
    · rename_i keyword
      exact h.nodes_items.1 false t ⟨ts, next⟩ trimmed keyword
    · exact h.nodes_rawRest _
  · exact h.nodes_rawRest _

theorem nodes_oneRule (h : Covers S Q) (hs : S s) : ∀ m ∈ (oneRule s).value.nodes, Q m := by
  have trimmed := h.trimStart hs
  unfold oneRule
  dsimp only
  rw [noMore_value]
  generalize s.trimStart = s at trimmed
  split
  · rename_i t ts ht
    obtain ⟨tokens, next⟩ := s
    obtain rfl : tokens = t :: ts := ht
    split
    · rename_i keyword
      exact h.nodes_items.1 false t ⟨ts, next⟩ trimmed keyword
    · exact h.nodes_qualifiedRule trimmed
  · exact h.nodes_rawRest _

/-- Whatever a text is read as, every node is covered. -/
theorem nodes_readScope (h : Covers S Q) (context : Context) {list : TokenList}
    (hs : S (wholeScope list)) : ∀ m ∈ (readScope context list).value.nodes, Q m := by
  obtain ⟨-, rules, items⟩ := h.nodes_items
  unfold readScope
  dsimp only
  cases context with
  | stylesheet => exact nodes_children (h.other nofun nofun) (rules true false false _ hs)
  | atrule => exact h.nodes_oneAtRule hs
  | rule => exact h.nodes_oneRule hs
  | atrulePrelude => exact h.nodes_plain (sequenceNode_regular (.inr (.inl rfl)) _) rfl
  | mediaQueryList => exact h.nodes_plain (mediaQueryList_regular _) rfl
  | mediaQuery => exact h.nodes_plain (sequenceNode_regular (.inr (.inr (.inl rfl))) _) rfl
  | condition => exact h.nodes_plain (sequenceNode_regular (.inr (.inr (.inr rfl))) _) rfl
  | selectorList =>
    obtain ⟨kinds, regular⟩ := orRaw_regular (s := (wholeScope list).trim)
      (r := selectorList (wholeScope list).stop (wholeScope list).trim) fun n => selectorList_regular
    refine h.nodes_plain regular ?_
    obtain kind | kind := kinds <;> rw [kind] <;> rfl
  | selector =>
    dsimp only
    split
    · exact h.nodes_raw _
    · rename_i some
      cases hr : selector (wholeScope list).stop (wholeScope list).trim with
      | ok n =>
        refine h.nodes_plain (selector_regular (by simpa using some) hr) ?_
        obtain ⟨children, -, made⟩ := bind_eq_ok_iff.mp hr
        cases made
        rfl
      | error e => exact h.nodes_raw _
  | block => exact nodes_children (h.other nofun nofun) (items false _ hs)
  | declarationList => exact nodes_children (h.other nofun nofun) (items false _ hs)
  | declaration => exact h.nodes_declaration (h.prelude (h.trim hs))
  | value => exact h.nodes_plain (sequenceNode_regular (.inl rfl) _) rfl

end Covers

end Stylesheet.Grammar
