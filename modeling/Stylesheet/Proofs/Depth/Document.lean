import Stylesheet.Proofs.Canonical
import Stylesheet.Proofs.Depth.Selector
import Stylesheet.Proofs.Limits.Prepared
import Stylesheet.Proofs.Placement.Document

/-!
# The depth of documents

A rule takes two levels of the tree for each block that it stands in, and a selector or a value that it
holds a fixed number of levels besides those of its own blocks. Blocks are nested no deeper than
`maxDepth` with content, and one more without, so the tree of every text has a depth that is known
before it is read.
-/

namespace Stylesheet

open Token

namespace Grammar

open Located Node Scope

variable {s rest : Scope} {t : Token} {b : Block} {room k : Nat} {items : Parsed (List Located)}
variable {f : Token.Kind → Bool}

/-! ### Items -/

/-- The block of an item has room for fewer blocks. -/
theorem item_inner_shallow (hb : (Item.take f s).ending = .block b) (h : s.Shallow room) :
    ∃ less, room = less + 1 ∧ b.inner.Shallow less := by
  obtain ⟨d, ds, ⟨curly, -⟩, cut, rfl, -⟩ := Item.exists_block hb
  have found : IsPart ⟨d :: ds, s.next⟩ s := cut ▸ cut_snd_isPart f s
  exact enter_shallow (s := ⟨ds, s.next⟩) (by rw [curly]; rfl) (found.shallow h)

theorem rulePrelude_depth (keyframes : Bool) (limit : Nat) (h : s.Shallow room) :
    (rulePrelude keyframes limit s).value.depth ≤ 3 * room + 3 := by
  have trimmed := (trim_isPart s).shallow h
  unfold rulePrelude
  dsimp only
  split
  · exact depth_leaf_le
  · split
    · exact depth_leaf_le
    · exact orRaw_depth fun n hn => selectorList_depth hn trimmed

theorem withBlock_depth (h : ∀ n ∈ items.value, n.depth ≤ k) :
    (withBlock b items).value.depth ≤ k + 1 :=
  depth_le_succ h

/-- Reading items answers with trees of a depth that the blocks of their scope allow. -/
def ItemsShallow (read : Scope → Parsed (List Located)) (s : Scope) : Prop :=
  ∀ room, s.Shallow room → ∀ n ∈ (read s).value, n.depth ≤ 3 * room + 5

/-- A style rule is two levels deeper than the items of its block. -/
theorem styleRule_depth (start limit : Nat) (keyframes : Bool)
    (hb : (Item.take f s).ending = .block b) (h : s.Shallow room) {read : Scope → Parsed (List Located)}
    (items : ItemsShallow read b.inner) :
    (styleRule start (rulePrelude keyframes limit (Item.take f s).prelude)
      (withBlock b (read b.inner))).value.depth ≤ 3 * room + 5 := by
  obtain ⟨less, rfl, shallow⟩ := item_inner_shallow hb h
  have prelude := rulePrelude_depth keyframes limit ((item_prelude_isPart f s).shallow h)
  have block : (withBlock b (read b.inner)).value.depth ≤ 3 * (less + 1) + 3 :=
    Nat.le_trans (withBlock_depth (items less shallow)) (by omega)
  refine Nat.le_trans (depth_le_succ (k := 3 * (less + 1) + 3) ?_) (by omega)
  exact List.forall_mem_cons.mpr ⟨prelude, List.forall_mem_singleton.mpr block⟩

theorem preludeNodes_depth (name : String) (h : s.Shallow room) :
    ∀ n ∈ (preludeNodes name s).value, n.depth ≤ room + 4 := by
  unfold preludeNodes
  split
  · rintro _ ⟨⟩
  · exact List.forall_mem_singleton.mpr (atRulePrelude_depth name h)

/-- An at-rule is one level deeper than its prelude and its block. -/
theorem atRuleOf_depth {block : Parsed Located} (h : rest.Shallow room)
    (hb : ∀ b, (Item.take endsPrelude rest).ending = .block b → block.value.depth ≤ 3 * room + 4) :
    (atRuleOf t rest (Item.take endsPrelude rest) block).value.depth ≤ 3 * room + 5 := by
  have part := (trim_isPart _).trans (item_prelude_isPart endsPrelude rest)
  have preludes : ∀ n ∈ (preludeNodes (atRuleName t) (Item.take endsPrelude rest).prelude.trim).value,
      n.depth ≤ 3 * room + 4 := fun n hn =>
    Nat.le_trans (preludeNodes_depth (atRuleName t) (part.shallow h) n hn) (by omega)
  obtain ⟨stop, blocks, node, -, held⟩ :=
    exists_atRuleOf_value t rest (Item.take endsPrelude rest) block
  rw [node]
  refine depth_le_succ (List.forall_mem_append.mpr ⟨preludes, fun n hn => ?_⟩)
  obtain ⟨rfl, b, ending⟩ := held n hn
  exact hb b ending

theorem looseItem_depth (t : Token) (h : s.Shallow room) :
    (looseItem t s).value.depth ≤ 3 * room + 5 := by
  unfold looseItem
  split
  · exact Nat.le_trans (declaration_depth h) (by omega)
  · exact depth_leaf_le

theorem items_shallow_all :
    (∀ nested t rest, ∀ room, rest.Shallow room →
      (atRule nested t rest).value.depth ≤ 3 * room + 5) ∧
      (∀ top keyframes nested s, ItemsShallow (ruleList top keyframes nested) s) ∧
        ∀ nested s, ItemsShallow (blockItems nested) s := by
  refine items_induction ?atRule ?rulesEnd ?rulesSkip ?rulesAtRule ?rulesRule ?rulesRest ?itemsEnd
    ?itemsSkip ?itemsAtRule ?itemsDeclaration ?itemsRule ?itemsLoose
  case atRule =>
    intro nested t rest within room h
    obtain ⟨block, read, items⟩ := exists_atRuleOf nested t rest
    rw [read]
    refine atRuleOf_depth h fun b hb => ?_
    obtain ⟨less, rfl, shallow⟩ := item_inner_shallow hb h
    obtain ⟨ofItems, ofRules⟩ := within b hb
    obtain ⟨_, rfl, rfl | rfl⟩ := items b hb
    · exact Nat.le_trans (withBlock_depth (ofItems less shallow)) (by omega)
    · exact Nat.le_trans (withBlock_depth (ofRules less shallow)) (by omega)
  case rulesEnd =>
    intro top keyframes nested next room _
    rw [ruleList_nil]
    rintro _ ⟨⟩
  case rulesSkip =>
    intro top keyframes nested t ts next hk ih room h
    rw [ruleList_skip hk]
    exact ih room (isPart_tail.shallow h)
  case rulesAtRule =>
    intro top keyframes nested t ts next hk ha hat ih room h
    have tail := isPart_tail.shallow h
    rw [ruleList_atRule hk ha]
    exact List.forall_mem_cons.mpr
      ⟨hat room tail, ih room ((item_after_isPart endsPrelude _).shallow tail)⟩
  case rulesRule =>
    intro top keyframes nested t ts next b hk ha hb items ih room h
    rw [ruleList_rule hk ha hb]
    exact List.forall_mem_cons.mpr ⟨styleRule_depth _ _ _ hb h items,
      ih room ((item_after_isPart (· = .leftCurly) _).shallow h)⟩
  case rulesRest =>
    intro top keyframes nested t ts next hk ha hno room _
    rw [ruleList_rest hk ha hno]
    exact List.forall_mem_singleton.mpr depth_leaf_le
  case itemsEnd =>
    intro nested next room _
    rw [blockItems_nil]
    rintro _ ⟨⟩
  case itemsSkip =>
    intro nested t ts next hk ih room h
    rw [blockItems_skip hk]
    exact ih room (isPart_tail.shallow h)
  case itemsAtRule =>
    intro nested t ts next hk ha hat ih room h
    have tail := isPart_tail.shallow h
    rw [blockItems_atRule hk ha]
    exact List.forall_mem_cons.mpr
      ⟨hat room tail, ih room ((item_after_isPart endsPrelude _).shallow tail)⟩
  case itemsDeclaration =>
    intro nested t ts next hk ha hd ih room h
    have prelude := (item_prelude_isPart (· = .semicolon) _).shallow h
    rw [blockItems_declaration hk ha hd]
    exact List.forall_mem_cons.mpr ⟨Nat.le_trans (declaration_depth prelude) (by omega),
      ih room ((item_after_isPart (· = .semicolon) _).shallow h)⟩
  case itemsRule =>
    intro nested t ts next b hk ha hd hb items ih room h
    rw [blockItems_rule hk ha hd hb]
    exact List.forall_mem_cons.mpr ⟨styleRule_depth _ _ _ hb h items,
      ih room ((item_after_isPart endsPrelude _).shallow h)⟩
  case itemsLoose =>
    intro nested t ts next hk ha hd hno ih room h
    have prelude := (item_prelude_isPart endsPrelude _).shallow h
    rw [blockItems_loose hk ha hd hno]
    exact List.forall_mem_cons.mpr ⟨looseItem_depth t prelude,
      ih room ((item_after_isPart endsPrelude _).shallow h)⟩

/-! ### Entry points -/

theorem qualifiedRule_depth (h : s.Shallow room) :
    (qualifiedRule s).1.value.depth ≤ 3 * room + 5 := by
  unfold qualifiedRule
  dsimp only
  split
  · rename_i b hb
    exact styleRule_depth _ _ _ hb h (items_shallow_all.2.2 true b.inner)
  · exact depth_leaf_le

theorem oneAtRule_depth (h : s.Shallow room) : (oneAtRule s).value.depth ≤ 3 * room + 5 := by
  have trimmed := (trimStart_isPart s).shallow h
  unfold oneAtRule
  dsimp only
  rw [noMore_value]
  split
  · rename_i t ts ht
    split
    · exact items_shallow_all.1 false t _ room ((isPart_rest ht).shallow trimmed)
    · exact depth_leaf_le
  · exact depth_leaf_le

theorem oneRule_depth (h : s.Shallow room) : (oneRule s).value.depth ≤ 3 * room + 5 := by
  have trimmed := (trimStart_isPart s).shallow h
  unfold oneRule
  dsimp only
  rw [noMore_value]
  split
  · rename_i t ts ht
    split
    · exact items_shallow_all.1 false t _ room ((isPart_rest ht).shallow trimmed)
    · exact qualifiedRule_depth trimmed
  · exact depth_leaf_le

theorem oneDeclaration_depth (h : s.Shallow room) :
    (oneDeclaration s).value.depth ≤ room + 3 :=
  declaration_depth (((item_prelude_isPart (· = .semicolon) _).trans (trim_isPart s)).shallow h)

/-- Whatever some tokens are read as, how deep they are nested bounds the depth of the tree. -/
theorem readScope_depth (context : Context) {list : TokenList}
    (h : (wholeScope list).Shallow room) : (readScope context list).value.depth ≤ 3 * room + 6 := by
  have trimmed := (trim_isPart (wholeScope list)).shallow h
  have node {kind : NodeKind} {ns : List Located} (held : ∀ n ∈ ns, n.depth ≤ 3 * room + 5) :
      (⟨kind, .none, wholeSpan list, ns⟩ : Located).depth ≤ 3 * room + 6 := depth_le_succ held
  have sequence (kind : NodeKind) :
      (sequenceNode kind (wholeScope list).trim).value.depth ≤ 3 * room + 6 :=
    Nat.le_trans (sequenceNode_depth kind trimmed) (by omega)
  have items := items_shallow_all.2.2 false (wholeScope list) room h
  unfold readScope
  dsimp only
  cases context with
  | stylesheet => exact node (items_shallow_all.2.1 true false false (wholeScope list) room h)
  | atrule => exact Nat.le_succ_of_le (oneAtRule_depth h)
  | rule => exact Nat.le_succ_of_le (oneRule_depth h)
  | atrulePrelude => exact sequence .atrulePrelude
  | mediaQueryList => exact Nat.le_trans (mediaQueryList_depth trimmed) (by omega)
  | mediaQuery => exact sequence .mediaQuery
  | condition => exact sequence .condition
  | selectorList =>
    refine orRaw_depth fun n hn => Nat.le_trans (selectorList_depth hn trimmed) ?_
    omega
  | selector =>
    dsimp only
    split
    · exact depth_leaf_le
    · refine orRaw_depth fun n hn => Nat.le_trans (selector_depth hn trimmed) ?_
      omega
  | block => exact node items
  | declarationList => exact node items
  | declaration => exact Nat.le_trans (oneDeclaration_depth h) (by omega)
  | value => exact sequence .value

end Grammar

/-- The tree of a text is as deep as its nodes say, however they are numbered. -/
theorem Document.treeOf_depth (spans : Bool) (context : Context) (text : String) :
    (treeOf spans context (tokenize text)).value.depth ≤ 3 * (maxDepth + 1) + 6 := by
  obtain ⟨n, levels⟩ := tokenize_levels text
  rw [← Node.depth_map fun _ => ()]
  change (treeOf spans context (tokenize text)).value.strip.depth ≤ _
  rw [treeOf_sameShape spans context (tokenize text), Node.strip, Node.depth_map]
  exact Grammar.readScope_depth context levels.bound

/-- Read as a style sheet or as any part of one, a text without limits always has a tree, and no tree
that is read is deeper than three levels for each block that may be nested and eight more. -/
theorem parseAs_depth (text : String) (context : Context) (options : ParseOptions)
    (clock : Clock) :
    (∃ d, parseAs text context { options with budgets := {} } clock = .ok d) ∧
      ∀ d, parseAs text context options clock = .ok d ∨ parse text options clock = .ok d →
        d.root.depth ≤ 3 * 257 + 8 := by
  have within (part : Context) :
      (Document.treeOf options.captureSpans part (tokenize text)).value.depth ≤ 3 * 257 + 8 := by
    refine Nat.le_trans (Document.treeOf_depth options.captureSpans part text) ?_
    decide
  constructor
  · exact exists_parseAs text context options clock
  · rintro d (h | h)
    · rw [parseAs_root h]
      exact within context
    · rw [parse_root h]
      exact within .stylesheet

end Stylesheet
