import Stylesheet.Proofs.Kept.Item

/-!
# Only separators are dropped

Every token of a list of items lies inside one of them or separates them. So it is of the items of
every block, since the blocks of a text hold the tokens between their brackets, and of a style sheet.
-/

namespace Stylesheet

namespace Grammar

open Located Scope Node

variable {source : String} {whole s : Scope} {f skips : Token.Kind → Bool} {t : Token} {b : Block}
variable {n : Located} {ns : List Located} {items : Parsed (List Located)}

/-- The node is a block whose tokens stand in a list, and all that it drops of them are separators. -/
structure KeepsBlock (list : List Token) (n : Located) (b : Block) : Prop where
  stands : b.tokens <:+: list
  opens : b.opener.kind = .leftCurly
  note : n.note = b.span
  closed : ∀ c, b.closer = some c →
    b.opener.inside = some b.inner.tokens.length ∧ c.kind = .rightCurly
  unclosed : b.closer = none → b.opener.inside = none
  content : ∀ u ∈ b.inner.tokens, u.kind.separatesItems = true ∨
    ∃ c ∈ n.children, c.note.start ≤ u.start ∧ u.stop ≤ c.note.stop

/-- All blocks at or below a node keep what they hold. -/
def KeepsBlocks (list : List Token) (n : Located) : Prop :=
  ∀ m ∈ n.nodes, m.kind = .block → ∃ b, KeepsBlock list m b

/-- Every token of the scope is skipped or lies inside one of the nodes, and so in their blocks. -/
structure Keeps (list : List Token) (skips : Token.Kind → Bool) (s : Scope) (ns : List Located) :
    Prop where
  tokens : ∀ u ∈ s.tokens, skips u.kind = true ∨
    ∃ n ∈ ns, n.note.start ≤ u.start ∧ u.stop ≤ n.note.stop
  blocks : ∀ n ∈ ns, KeepsBlocks list n

theorem keepsBlocks_of_plain {list : List Token} (h : n.RegularTree)
    (kind : n.kind = .declaration ∨ n.kind = .raw) : KeepsBlocks list n := by
  intro m hm hk
  obtain rfl | plain := h.plain_below (kind.imp_right fun hk => by rw [hk]; rfl) m hm
  · rw [hk] at kind
    obtain kind | kind := kind <;> cases kind
  · rw [hk] at plain
    cases plain

/-- The blocks at or below a node that is no block are those of its children. -/
theorem keepsBlocks_of_children {list : List Token} (hk : n.kind ≠ .block)
    (h : ∀ c ∈ n.children, KeepsBlocks list c) : KeepsBlocks list n := by
  intro m hm hm'
  obtain rfl | ⟨c, hc, hm⟩ := mem_nodes_iff.mp hm
  · exact absurd hm' hk
  · exact h c hc m hm hm'

theorem keepsBlocks_of_regular {list : List Token} (h : n.RegularTree)
    (plain : n.kind.isStructural = false) : KeepsBlocks list n := by
  intro m hm hk
  have := plain_nodes n h plain m hm
  rw [hk] at this
  cases this

/-- An item in front of the others. -/
theorem Keeps.cons {list : List Token} {after : Scope} (takes : Takes skips s n after)
    (blocks : KeepsBlocks list n) (rest : Keeps list skips after ns) :
    Keeps list skips s (n :: ns) := by
  refine ⟨fun u hu => ?_, List.forall_mem_cons.mpr ⟨blocks, rest.blocks⟩⟩
  obtain skip | within | later := takes u hu
  · exact .inl skip
  · exact .inr ⟨n, List.mem_cons_self, within⟩
  · obtain skip | ⟨m, hm, within⟩ := rest.tokens u later
    · exact .inl skip
    · exact .inr ⟨m, List.mem_cons_of_mem n hm, within⟩

/-- A separator in front of the items. -/
theorem Keeps.skip {list : List Token} {ts : List Token} {next : Nat} (h : skips t.kind = true)
    (rest : Keeps list skips ⟨ts, next⟩ ns) : Keeps list skips ⟨t :: ts, next⟩ ns :=
  ⟨List.forall_mem_cons.mpr ⟨.inl h, rest.tokens⟩, rest.blocks⟩

theorem isInfix_of_isPart (h : s.IsPart whole) : s.tokens <:+: whole.tokens := by
  obtain ⟨front, back, split, -⟩ := h
  exact ⟨front, back, by rw [split, List.append_assoc]⟩

/-- The block of an item keeps what it holds if its items do. -/
theorem withBlock_keeps (part : s.IsPart whole) (matched : Token.Matched s.tokens)
    (hb : (Item.take f s).ending = .block b)
    (separates : ∀ k : Token.Kind, skips k = true → k.separatesItems = true)
    (kept : Keeps whole.tokens skips b.inner items.value) :
    KeepsBlocks whole.tokens (withBlock b items).value := by
  have ends := item_blockEnds matched hb
  have stands : b.tokens <:+: s.tokens := ⟨_, _, (List.append_assoc ..).trans ends.tokens.symm⟩
  intro m hm hk
  obtain rfl | ⟨c, hc, hm⟩ := mem_nodes_iff.mp hm
  · exact ⟨b, stands.trans (isInfix_of_isPart part), ends.opens, rfl, ends.closed, ends.unclosed,
      fun u hu => (kept.tokens u hu).imp_left (separates _)⟩
  · exact kept.blocks c hc m hm hk

theorem styleRule_keeps {list : List Token} {start limit : Nat} {keyframes : Bool}
    (h : KeepsBlocks list (withBlock b items).value) :
    KeepsBlocks list
      (styleRule start (rulePrelude keyframes limit s) (withBlock b items)).value := by
  obtain ⟨kind, regular⟩ := rulePrelude_regular keyframes limit s
  refine keepsBlocks_of_children NodeKind.noConfusion (List.forall_mem_cons.mpr
    ⟨keepsBlocks_of_regular regular ?_, List.forall_mem_singleton.mpr h⟩)
  obtain kind | kind := kind <;> rw [kind] <;> rfl

theorem atRuleOf_keeps {list : List Token} {rest : Scope} {item : Item} {block : Parsed Located}
    (h : ∀ b, item.ending = .block b → KeepsBlocks list block.value) :
    KeepsBlocks list (atRuleOf t rest item block).value := by
  obtain ⟨-, preludes⟩ := preludeNodes_regular (atRuleName t) item.prelude.trim
  obtain ⟨stop, blocks, node, -, held⟩ := exists_atRuleOf_value t rest item block
  rw [node]
  refine keepsBlocks_of_children NodeKind.noConfusion
    (List.forall_mem_append.mpr ⟨fun n hn => ?_, fun n hn => ?_⟩)
  · obtain ⟨kind, regular⟩ := preludes n hn
    exact keepsBlocks_of_regular regular (by rw [kind]; rfl)
  · obtain ⟨rfl, b, hb⟩ := held n hn
    exact h b hb

/-- Reading the items of a scope keeps its tokens. -/
def KeptBy (source : String) (whole : Scope) (skips : Token.Kind → Bool)
    (read : Scope → Parsed (List Located)) (s : Scope) : Prop :=
  s.IsPart whole → whole.LiesIn source → Token.Matched s.tokens →
    Keeps whole.tokens skips s (read s).value

/-- Reading an at-rule keeps its tokens. -/
def AtRuleKept (source : String) (whole : Scope) (nested : Bool) (t : Token) (rest : Scope) :
    Prop :=
  rest.IsPart whole → whole.LiesIn source → Token.Matched rest.tokens →
    KeepsBlocks whole.tokens (atRule nested t rest).value

/-- An at-rule takes its tokens, whatever its block is read as. -/
theorem takes_atRule_read (nested : Bool) (rest : Scope)
    (h : LiesIn source ⟨t :: rest.tokens, rest.next⟩) (matched : Token.Matched rest.tokens)
    (trivia : ∀ k : Token.Kind, k.isTrivia = true → skips k = true) :
    Takes skips ⟨t :: rest.tokens, rest.next⟩ (atRule nested t rest).value
      (Item.take endsPrelude rest).after := by
  obtain ⟨block, read, -⟩ := exists_atRuleOf nested t rest
  rw [read]
  exact takes_atRule rest h matched trivia

section

variable {ts : List Token} {next limit : Nat} {nested keyframes : Bool}
variable {read : Scope → Parsed (List Located)} {item : Parsed Located}

/-- An at-rule in front of a list. -/
theorem KeptBy.atRule (ha : t.kind = .atKeyword)
    (trivia : ∀ k : Token.Kind, k.isTrivia = true → skips k = true)
    (step : read ⟨t :: ts, next⟩ = (Grammar.atRule nested t ⟨ts, next⟩).cons
      (read (Item.take endsPrelude ⟨ts, next⟩).after))
    (kept : AtRuleKept source whole nested t ⟨ts, next⟩)
    (rest : KeptBy source whole skips read (Item.take endsPrelude ⟨ts, next⟩).after) :
    KeptBy source whole skips read ⟨t :: ts, next⟩ := by
  intro part lies matched
  have tail : Token.Matched ts := matched.of_leaf (by rw [ha]; rfl)
  have behind : IsPart ⟨ts, next⟩ whole := isPart_tail.trans part
  rw [step]
  exact .cons (takes_atRule_read nested ⟨ts, next⟩ (part.liesIn lies) tail trivia)
    (kept behind lies tail)
    (rest ((item_after_isPart endsPrelude _).trans behind) lies
      (item_after_matched endsItems_endsPrelude tail))

/-- A rule in front of a list. -/
theorem KeptBy.rule {prelude : Scope} (hb : (Item.take f s).ending = .block b)
    (step : read s = (styleRule s.start (rulePrelude keyframes limit prelude)
      (withBlock b (blockItems true b.inner))).cons (read (Item.take f s).after))
    (content : KeptBy source whole Token.Kind.separatesItems (blockItems true) b.inner)
    (rest : KeptBy source whole skips read (Item.take f s).after) :
    KeptBy source whole skips read s := by
  intro part lies matched
  have inner := (item_inner_isPart hb).trans part
  have ends := item_blockEnds matched hb
  rw [step]
  exact .cons (takes_block (part.liesIn lies) matched hb rfl)
    (styleRule_keeps (withBlock_keeps part matched hb (fun _ h => h)
      (content inner lies ends.inner)))
    (rest ((item_after_isPart _ _).trans part) lies ends.after)

/-- An item without a block that spans its trimmed prelude, in front of a list. -/
theorem KeptBy.trimmed (hf : EndsItems f) (hno : ∀ b, (Item.take f s).ending ≠ .block b)
    (step : read s = item.cons (read (Item.take f s).after))
    (note : (Item.take f s).prelude.LiesIn source →
      item.value.note = (Item.take f s).prelude.trim.span)
    (regular : (item.value.kind = .declaration ∨ item.value.kind = .raw) ∧ item.value.RegularTree)
    (rest : KeptBy source whole Token.Kind.separatesItems read (Item.take f s).after) :
    KeptBy source whole Token.Kind.separatesItems read s := by
  intro part lies matched
  have h := part.liesIn lies
  rw [step]
  exact .cons (takes_trimmed h hf hno (note ((item_prelude_isPart f s).liesIn h)))
    (keepsBlocks_of_plain regular.2 regular.1)
    (rest ((item_after_isPart _ _).trans part) lies (item_after_matched hf matched))

end

theorem items_kept_all :
    (∀ nested t rest, AtRuleKept source whole nested t rest) ∧
      (∀ top keyframes nested s,
        KeptBy source whole (Token.Kind.separatesRules top) (ruleList top keyframes nested) s) ∧
        ∀ nested s, KeptBy source whole Token.Kind.separatesItems (blockItems nested) s := by
  refine items_induction ?atRule ?rulesEnd ?rulesSkip ?rulesAtRule ?rulesRule ?rulesRest ?itemsEnd
    ?itemsSkip ?itemsAtRule ?itemsDeclaration ?itemsRule ?itemsLoose
  case atRule =>
    intro nested t rest within part lies matched
    obtain ⟨block, read, items⟩ := exists_atRuleOf nested t rest
    rw [read]
    refine atRuleOf_keeps fun b hb => ?_
    obtain ⟨ofItems, ofRules⟩ := within b hb
    have inner := (item_inner_isPart hb).trans part
    have content := (item_blockEnds matched hb).inner
    obtain ⟨_, rfl, rfl | rfl⟩ := items b hb
    · exact withBlock_keeps part matched hb (fun _ h => h) (ofItems inner lies content)
    · exact withBlock_keeps part matched hb
        (fun _ h => Token.Kind.separatesItems_of_separatesRules h) (ofRules inner lies content)
  case rulesEnd =>
    intro top keyframes nested next _ _ _
    rw [ruleList_nil]
    exact ⟨by rintro _ ⟨⟩, by rintro _ ⟨⟩⟩
  case rulesSkip =>
    intro top keyframes nested t ts next hk ih part lies matched
    have tail := matched.of_leaf (Token.Kind.opensBlock_of_separatesRules hk)
    rw [ruleList_skip hk]
    exact (ih (isPart_tail.trans part) lies tail).skip hk
  case rulesAtRule =>
    intro top keyframes nested t ts next hk ha hat ih
    exact .atRule ha (fun _ h => Token.Kind.separatesRules_of_isTrivia top h)
      (ruleList_atRule hk ha) hat ih
  case rulesRule =>
    intro top keyframes nested t ts next b hk ha hb items ih
    exact .rule hb (ruleList_rule hk ha hb) items ih
  case rulesRest =>
    intro top keyframes nested t ts next hk ha hno part lies matched
    have trimmed := (trim_isPart ⟨t :: ts, next⟩).liesIn (part.liesIn lies)
    rw [ruleList_rest hk ha hno]
    refine ⟨fun u hu => ?_, List.forall_mem_singleton.mpr
      (keepsBlocks_of_regular (regularTree_raw _) rfl)⟩
    obtain trivia | hu := mem_trim hu
    · exact .inl (Token.Kind.separatesRules_of_isTrivia top trivia)
    · exact .inr ⟨_, List.mem_singleton_self _, trimmed.start_le hu, trimmed.endsBy_stop u hu⟩
  case itemsEnd =>
    intro nested next _ _ _
    rw [blockItems_nil]
    exact ⟨by rintro _ ⟨⟩, by rintro _ ⟨⟩⟩
  case itemsSkip =>
    intro nested t ts next hk ih part lies matched
    have tail := matched.of_leaf (Token.Kind.opensBlock_of_separatesItems hk)
    rw [blockItems_skip hk]
    exact (ih (isPart_tail.trans part) lies tail).skip hk
  case itemsAtRule =>
    intro nested t ts next hk ha hat ih
    exact .atRule ha (fun _ h => Token.Kind.separatesItems_of_isTrivia h)
      (blockItems_atRule hk ha) hat ih
  case itemsDeclaration =>
    intro nested t ts next hk ha hd ih
    exact .trimmed endsItems_semicolon Item.take_semicolon_ne_block
      (blockItems_declaration hk ha hd) (fun h => (declaration_placed h).2)
      (declaration_regular _) ih
  case itemsRule =>
    intro nested t ts next b hk ha hd hb items ih
    exact .rule hb (blockItems_rule hk ha hd hb) items ih
  case itemsLoose =>
    intro nested t ts next hk ha hd hno ih
    exact .trimmed endsItems_endsPrelude hno (blockItems_loose hk ha hd hno)
      (fun h => (looseItem_placed h).2) (looseItem_regular t _) ih

end Grammar

/-! ### Numbered trees -/

/-- The token lies inside the span of one of the nodes. -/
def Token.LiesInside (u : Token) (ns : List (Node Mark)) : Prop :=
  ∃ n ∈ ns, ∃ span, n.note.span = some span ∧ span.contains u.span = true

/-- The node is a block of the text: it starts with a curly bracket, stops with the token that closes
it if there is one, and each token in between separates its children or lies inside one of them. -/
def Node.KeepsTokens (list : TokenList) (n : Node Mark) : Prop :=
  ∃ i opener stop, list.tokens[i]? = some opener ∧ opener.kind = .leftCurly ∧
    n.note.span = some ⟨opener.start, stop⟩ ∧
    (∀ c, list.close? i = some c →
      ∃ closer, list.tokens[c]? = some closer ∧ closer.kind = .rightCurly ∧ closer.stop = stop) ∧
    ∀ j u, list.tokens[j]? = some u → i < j → (∀ c, list.close? i = some c → j < c) →
      (list.close? i = none → u.start < stop) →
        u.kind.separatesItems = true ∨ u.LiesInside n.children

namespace Node

open Located

variable {text : String}

mutual

/-- Numbering keeps every place, since all of them fit. -/
theorem numberFrom_spans : ∀ (n : Located) (next : Nat), Placed text n →
    ((n.map some).numberFrom text.utf8ByteSize next).1.map Mark.span = n.map some
  | ⟨kind, detail, span, children⟩, next, h => by
    obtain ⟨lies, placed⟩ := placed_iff.mp h
    rw [map, numberFrom, map, ofPlace_some lies]
    exact congrArg _ (numberAllFrom_spans children (Mark.nextId next) _ _ placed)

theorem numberAllFrom_spans : ∀ (ns : List Located) (next lo hi : Nat), PlacedIn text lo hi ns →
    mapAll Mark.span (numberAllFrom text.utf8ByteSize next (mapAll some ns)).1 = mapAll some ns
  | [], _, _, _, _ => rfl
  | n :: ns, next, lo, hi, h => by
    obtain ⟨-, -, hn, hns⟩ := placedIn_cons.mp h
    rw [mapAll, numberAllFrom, mapAll, numberFrom_spans n next hn]
    exact congrArg (_ :: ·) (numberAllFrom_spans ns _ _ _ hns)

end

/-- A token lies inside one of the nodes if it does before they are numbered. -/
theorem liesInside_of_spans {u : Token} {ns : List (Node Mark)} {ms : List Located}
    (same : ns.map (map Mark.span) = ms.map (map some))
    (h : ∃ m ∈ ms, m.note.start ≤ u.start ∧ u.stop ≤ m.note.stop) : u.LiesInside ns := by
  obtain ⟨m, hm, start, stop⟩ := h
  have found : m.map some ∈ ns.map (map Mark.span) := same ▸ List.mem_map_of_mem hm
  obtain ⟨n, hn, heq⟩ := List.mem_map.mp found
  have note := congrArg Node.note heq
  rw [map_note, map_note] at note
  exact ⟨n, hn, m.note, note, by simp [Span.contains, Token.span, start, stop]⟩

end Node

/-- The nodes of a text stand where they were read. -/
theorem Document.treeOf_spans (text : String) (context : Context) :
    (treeOf true context (tokenize text)).value.map Mark.span =
      (Grammar.readScope context (tokenize text)).value.map some := by
  obtain ⟨run, size⟩ := tokenize_run text
  rw [treeOf_eq, size]
  exact Node.numberFrom_spans _ 1 (Grammar.readScope_placed context run)

namespace Grammar

open Scope

variable {source : String} {list : TokenList} {b : Block}

/-- What a block keeps, told by the places of tokens in the list. -/
theorem KeepsBlock.keepsTokens {n : Located} {m : Node Mark}
    (lies : (wholeScope list).LiesIn source) (h : KeepsBlock list.tokens n b)
    (same : m.map Mark.span = n.map some) : m.KeepsTokens list := by
  obtain ⟨front, back, split⟩ := h.stands
  have opener : list.tokens[front.length]? = some b.opener := by
    rw [← split, List.append_assoc, List.getElem?_append_right (Nat.le_refl _), Nat.sub_self]
    rfl
  have close : list.close? front.length = b.opener.inside.map (front.length + 1 + ·) := by
    rw [TokenList.close?, opener, Option.bind_some]
  have rest : list.tokens = (front ++ [b.opener]) ++ (b.inner.tokens ++ (b.closer.toList ++ back)) := by
    rw [← split, Block.tokens]
    simp
  have after (k : Nat) : list.tokens[front.length + 1 + k]? =
      (b.inner.tokens ++ (b.closer.toList ++ back))[k]? := by
    rw [rest, List.getElem?_append_right (by simp)]
    simp
  have note : m.note.span = some ⟨b.opener.start, b.stop⟩ := by
    have := congrArg Node.note same
    rwa [Node.map_note, Node.map_note, h.note] at this
  have children : m.children.map (Node.map Mark.span) = n.children.map (Node.map some) := by
    have := congrArg Node.children same
    rwa [Node.map_children, Node.map_children] at this
  refine ⟨front.length, b.opener, b.stop, opener, h.opens, note, ?_, ?_⟩
  · intro c hc
    rw [close] at hc
    cases hcl : b.closer with
    | none =>
      rw [h.unclosed hcl] at hc
      cases hc
    | some closer =>
      obtain ⟨inside, kind⟩ := h.closed closer hcl
      rw [inside] at hc
      cases hc
      refine ⟨closer, ?_, kind, by rw [Block.stop, hcl]⟩
      rw [after, List.getElem?_append_right (Nat.le_refl _), Nat.sub_self, hcl]
      rfl
  · intro j u hj lt closed unclosed
    obtain ⟨k, rfl⟩ : ∃ k, j = front.length + 1 + k := ⟨j - (front.length + 1), by omega⟩
    rw [after] at hj
    have held (hu : u ∈ b.inner.tokens) : u.kind.separatesItems = true ∨ u.LiesInside m.children :=
      (h.content u hu).imp_right (Node.liesInside_of_spans children)
    by_cases within : k < b.inner.tokens.length
    · rw [List.getElem?_append_left within] at hj
      exact held (List.mem_of_getElem? hj)
    · cases hcl : b.closer with
      | none =>
        have := unclosed (by rw [close, h.unclosed hcl]; rfl)
        rw [List.getElem?_append_right (by omega), hcl] at hj
        have hu : u ∈ back := List.mem_of_getElem? hj
        obtain ⟨l, hl, stop⟩ := stop_mem (s := ⟨b.tokens, 0⟩) (List.cons_ne_nil _ _)
        have before := stop_le_start lies split.symm (List.mem_append_right front hl) hu
        rw [block_stop b 0] at this
        omega
      | some closer =>
        obtain ⟨inside, -⟩ := h.closed closer hcl
        have := closed (front.length + 1 + b.inner.tokens.length) (by rw [close, inside]; rfl)
        omega

end Grammar

open Grammar in
/-- Read as a style sheet, a text without limits always has a tree, and no tree that is read with
spans drops anything but separators: each token of the text is white space, a comment, `<!--` or
`-->` or lies inside a child of the root, and each token between the brackets of a block is white
space, a comment or a semicolon or lies inside a child of the block. -/
theorem parse_keeps (text : String) (options : ParseOptions) (clock : Clock) :
    (∃ d, parse text { options with captureSpans := true, budgets := {} } clock = .ok d) ∧
      ∀ d, parse text { options with captureSpans := true } clock = .ok d →
        (∀ u ∈ (tokenize text).tokens,
          u.kind.separatesRules true = true ∨ u.LiesInside d.root.children) ∧
          ∀ n ∈ d.root.nodes, n.kind = .block → n.KeepsTokens (tokenize text) := by
  constructor
  · exact exists_parse text { options with captureSpans := true } clock
  · intro d h
    obtain ⟨run, size⟩ := tokenize_run text
    have lies : (wholeScope (tokenize text)).LiesIn text := by
      rw [Scope.LiesIn, Scope.start, wholeScope, run.startOf_eq]
      exact run
    have kept := items_kept_all.2.1 true false false _ (.refl _) lies (tokenize_matched text)
    have same : d.root.map Mark.span =
        (readScope .stylesheet (tokenize text)).value.map some := by
      rw [parse_root h, Document.treeOf_eq, size]
      exact Node.numberFrom_spans _ 1 (readScope_placed .stylesheet run)
    constructor
    · intro u hu
      have children := congrArg Node.children same
      rw [Node.map_children, Node.map_children] at children
      exact (kept.tokens u hu).imp_right (Node.liesInside_of_spans children)
    · intro n hn hk
      have found : n.map Mark.span ∈ (d.root.map Mark.span).nodes := by
        rw [Node.nodes_map]
        exact List.mem_map_of_mem hn
      rw [same, Node.nodes_map] at found
      obtain ⟨m, hm, heq⟩ := List.mem_map.mp found
      have kind := congrArg Node.kind heq
      rw [Node.map_kind, Node.map_kind, hk] at kind
      have blocks := keepsBlocks_of_children (n := (readScope .stylesheet (tokenize text)).value)
        NodeKind.noConfusion kept.blocks
      obtain ⟨b, keeps⟩ := blocks m hm kind
      exact keeps.keepsTokens lies heq.symm

end Stylesheet
