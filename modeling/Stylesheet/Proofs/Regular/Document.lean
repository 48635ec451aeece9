import Stylesheet.Proofs.Numbering
import Stylesheet.Proofs.Placement.Document
import Stylesheet.Proofs.Regular.Selector

/-!
# Documents are regular

Every item of a list is a declaration, a rule, an at-rule or raw text, and what it holds is regular
as soon as the items of its block are. So whatever a text is read as, its tree is regular.
-/

namespace Stylesheet

namespace Grammar

open Located Node

variable {t : Token} {b : Block} {n : Located} {ns : List Located} {items : Parsed (List Located)}

/-! ### Items -/

theorem orRaw_regular {s : Scope} {r : SelectorResult Located} {kind : NodeKind}
    (h : ∀ n, r = .ok n → n.kind = kind ∧ n.RegularTree) :
    ((orRaw s r).value.kind = kind ∨ (orRaw s r).value.kind = .raw) ∧
      (orRaw s r).value.RegularTree := by
  cases r with
  | ok n => exact ⟨.inl (h n rfl).1, (h n rfl).2⟩
  | error e => exact ⟨.inr rfl, regularTree_raw s⟩

theorem rulePrelude_regular (keyframes : Bool) (limit : Nat) (s : Scope) :
    ((rulePrelude keyframes limit s).value.kind = .selectorList ∨
        (rulePrelude keyframes limit s).value.kind = .raw) ∧
      (rulePrelude keyframes limit s).value.RegularTree := by
  unfold rulePrelude
  dsimp only
  split
  · exact ⟨.inr rfl, regularTree_raw _⟩
  · split
    · exact ⟨.inr rfl, regularTree_raw _⟩
    · exact orRaw_regular fun n => selectorList_regular

/-- An item of a list: of the kinds that stand in any list, or a declaration where those may. -/
def IsItem (declarations : Bool) (n : Located) : Prop :=
  ((n.kind = .rule ∨ n.kind = .atrule ∨ n.kind = .raw) ∨
      declarations = true ∧ n.kind = .declaration) ∧
    n.RegularTree

theorem isItem_raw {declarations : Bool} (s : Scope) : IsItem declarations (raw s) :=
  ⟨.inl (.inr (.inr rfl)), regularTree_raw s⟩

theorem IsItem.kind_rules (h : IsItem false n) :
    n.kind = .rule ∨ n.kind = .atrule ∨ n.kind = .raw :=
  h.1.resolve_right fun h => Bool.false_ne_true h.1

theorem IsItem.kind_items {declarations : Bool} (h : IsItem declarations n) :
    n.kind = .declaration ∨ n.kind = .rule ∨ n.kind = .atrule ∨ n.kind = .raw :=
  h.1.elim .inr fun h => .inl h.2

theorem withBlock_regular {declarations : Bool} (h : ∀ n ∈ items.value, IsItem declarations n) :
    (withBlock b items).value.RegularTree :=
  regularTree_iff.mpr ⟨fun n hn => (h n hn).kind_items, fun n hn => (h n hn).2⟩

/-- A style rule is regular if the items of its block are. -/
theorem styleRule_isItem (declarations : Bool) (start limit : Nat) (keyframes : Bool) (s : Scope)
    (h : ∀ n ∈ items.value, IsItem true n) :
    IsItem declarations
      (styleRule start (rulePrelude keyframes limit s) (withBlock b items)).value := by
  obtain ⟨kind, regular⟩ := rulePrelude_regular keyframes limit s
  refine ⟨.inl (.inl rfl), regularTree_iff.mpr ⟨⟨_, _, rfl, kind, rfl⟩, ?_⟩⟩
  exact List.forall_mem_cons.mpr ⟨regular, List.forall_mem_singleton.mpr (withBlock_regular h)⟩

/-- What stands before the block of an at-rule is at most one prelude. -/
theorem preludeNodes_regular (name : String) (s : Scope) :
    (preludeNodes name s).value.length ≤ 1 ∧
      ∀ n ∈ (preludeNodes name s).value, n.kind = .atrulePrelude ∧ n.RegularTree := by
  unfold preludeNodes
  split
  · exact ⟨Nat.zero_le _, by rintro _ ⟨⟩⟩
  · exact ⟨Nat.le_refl _, List.forall_mem_singleton.mpr (atRulePrelude_regular name s)⟩

/-- An at-rule is regular if its block is, if it has one. -/
theorem atRuleOf_isItem {declarations : Bool} (t : Token) (rest : Scope) (item : Item)
    {block : Parsed Located}
    (h : ∀ b, item.ending = .block b → block.value.kind = .block ∧ block.value.RegularTree) :
    IsItem declarations (atRuleOf t rest item block).value := by
  obtain ⟨few, preludes⟩ := preludeNodes_regular (atRuleName t) item.prelude.trim
  obtain ⟨stop, blocks, node, one, held⟩ := exists_atRuleOf_value t rest item block
  have inner : ∀ n ∈ blocks, n.kind = .block ∧ n.RegularTree := by
    intro n hn
    obtain ⟨rfl, b, hb⟩ := held n hn
    exact h b hb
  rw [node]
  refine ⟨.inl (.inr (.inl rfl)), regularTree_iff.mpr ⟨?_, ?_⟩⟩
  · exact ⟨_, _, rfl, few, fun n hn => (preludes n hn).1, one, fun n hn => (inner n hn).1⟩
  · exact List.forall_mem_append.mpr
      ⟨fun n hn => (preludes n hn).2, fun n hn => (inner n hn).2⟩

theorem plainValue_regular (colon : Token) (value : Scope) :
    (plainValue colon value).value.kind = .value ∧
      (plainValue colon value).value.RegularTree := by
  obtain ⟨spaced, inner⟩ := componentSequence_regular value
  exact ⟨rfl, regularTree_iff.mpr ⟨spaced, inner⟩⟩

theorem declaration_regular (s : Scope) :
    ((declaration s).value.kind = .declaration ∨ (declaration s).value.kind = .raw) ∧
      (declaration s).value.RegularTree := by
  unfold declaration
  dsimp only
  generalize s.trim = s
  split
  · exact ⟨.inr rfl, regularTree_raw s⟩
  · rename_i t ts ht
    split
    · exact ⟨.inr rfl, regularTree_raw s⟩
    · split
      · exact ⟨.inr rfl, regularTree_raw s⟩
      · rename_i colon after hc
        split
        · exact ⟨.inr rfl, regularTree_raw s⟩
        · refine ⟨.inl rfl, regularTree_iff.mpr ⟨⟨_, _, _, rfl, rfl, ?_⟩, ?_⟩⟩
          · split <;> rfl
          · refine List.forall_mem_singleton.mpr ?_
            split
            · exact regularTree_leaf rfl
            · exact (plainValue_regular colon _).2

theorem looseItem_regular (t : Token) (s : Scope) :
    ((looseItem t s).value.kind = .declaration ∨ (looseItem t s).value.kind = .raw) ∧
      (looseItem t s).value.RegularTree := by
  unfold looseItem
  split
  · exact declaration_regular s
  · exact ⟨.inr rfl, regularTree_raw s.trim⟩

/-- A declaration, or the raw text that stands in its place, is an item where those may stand. -/
theorem isItem_declaration (h : (n.kind = .declaration ∨ n.kind = .raw) ∧ n.RegularTree) :
    IsItem true n :=
  ⟨h.1.elim (fun hk => .inr ⟨rfl, hk⟩) fun hk => .inl (.inr (.inr hk)), h.2⟩

theorem isItem_cons {declarations : Bool} {first : Parsed Located} {rest : Parsed (List Located)}
    (h : IsItem declarations first.value) (later : ∀ n ∈ rest.value, IsItem declarations n) :
    ∀ n ∈ (first.cons rest).value, IsItem declarations n :=
  List.forall_mem_cons.mpr ⟨h, later⟩

theorem items_regular_all :
    (∀ nested t rest, ∀ declarations, IsItem declarations (atRule nested t rest).value) ∧
      (∀ top keyframes nested s, ∀ n ∈ (ruleList top keyframes nested s).value, IsItem false n) ∧
        ∀ nested s, ∀ n ∈ (blockItems nested s).value, IsItem true n := by
  refine items_induction ?atRule ?rulesEnd ?rulesSkip ?rulesAtRule ?rulesRule ?rulesRest ?itemsEnd
    ?itemsSkip ?itemsAtRule ?itemsDeclaration ?itemsRule ?itemsLoose
  case atRule =>
    intro nested t rest within declarations
    obtain ⟨block, read, items⟩ := exists_atRuleOf nested t rest
    rw [read]
    refine atRuleOf_isItem t rest _ fun b hb => ?_
    obtain ⟨ofItems, ofRules⟩ := within b hb
    obtain ⟨_, rfl, rfl | rfl⟩ := items b hb
    · exact ⟨rfl, withBlock_regular ofItems⟩
    · exact ⟨rfl, withBlock_regular ofRules⟩
  case rulesEnd =>
    intro top keyframes nested next
    rw [ruleList_nil]
    rintro _ ⟨⟩
  case rulesSkip =>
    intro top keyframes nested t ts next hk ih
    rw [ruleList_skip hk]
    exact ih
  case rulesAtRule =>
    intro top keyframes nested t ts next hk ha hat ih
    rw [ruleList_atRule hk ha]
    exact isItem_cons (hat false) ih
  case rulesRule =>
    intro top keyframes nested t ts next b hk ha hb items ih
    rw [ruleList_rule hk ha hb]
    exact isItem_cons (styleRule_isItem _ _ _ _ _ items) ih
  case rulesRest =>
    intro top keyframes nested t ts next hk ha hno
    rw [ruleList_rest hk ha hno]
    exact List.forall_mem_singleton.mpr (isItem_raw _)
  case itemsEnd =>
    intro nested next
    rw [blockItems_nil]
    rintro _ ⟨⟩
  case itemsSkip =>
    intro nested t ts next hk ih
    rw [blockItems_skip hk]
    exact ih
  case itemsAtRule =>
    intro nested t ts next hk ha hat ih
    rw [blockItems_atRule hk ha]
    exact isItem_cons (hat true) ih
  case itemsDeclaration =>
    intro nested t ts next hk ha hd ih
    rw [blockItems_declaration hk ha hd]
    exact isItem_cons (isItem_declaration (declaration_regular _)) ih
  case itemsRule =>
    intro nested t ts next b hk ha hd hb items ih
    rw [blockItems_rule hk ha hd hb]
    exact isItem_cons (styleRule_isItem _ _ _ _ _ items) ih
  case itemsLoose =>
    intro nested t ts next hk ha hd hno ih
    rw [blockItems_loose hk ha hd hno]
    exact isItem_cons (isItem_declaration (looseItem_regular _ _)) ih

/-! ### Entry points -/

theorem qualifiedRule_regular (s : Scope) : (qualifiedRule s).1.value.RegularTree := by
  unfold qualifiedRule
  dsimp only
  split
  · rename_i b hb
    exact (styleRule_isItem true _ _ _ _ (items_regular_all.2.2 true b.inner)).2
  · exact regularTree_raw _

theorem singleAtRule_regular (t : Token) (rest : Scope) :
    (singleAtRule t rest).1.value.RegularTree :=
  (items_regular_all.1 false t rest true).2

theorem oneAtRule_regular (s : Scope) : (oneAtRule s).value.RegularTree := by
  unfold oneAtRule
  dsimp only
  rw [noMore_value]
  split
  · split
    · exact singleAtRule_regular _ _
    · exact regularTree_raw _
  · exact regularTree_raw _

theorem oneRule_regular (s : Scope) : (oneRule s).value.RegularTree := by
  unfold oneRule
  dsimp only
  rw [noMore_value]
  split
  · split
    · exact singleAtRule_regular _ _
    · exact qualifiedRule_regular _
  · exact regularTree_raw _

/-- Whatever the tokens of a text are read as, the tree is regular. -/
theorem readScope_regular (context : Context) (list : TokenList) :
    (readScope context list).value.RegularTree := by
  obtain ⟨-, rules, items⟩ := items_regular_all
  have node {kind : NodeKind} (ns : List Located) (h : kind = .block ∨ kind = .declarationList)
      (held : ∀ n ∈ ns, IsItem true n) :
      (⟨kind, .none, wholeSpan list, ns⟩ : Located).RegularTree := by
    refine regularTree_iff.mpr ⟨?_, fun n hn => (held n hn).2⟩
    obtain rfl | rfl := h <;> exact fun n hn => (held n hn).kind_items
  unfold readScope
  dsimp only
  cases context with
  | stylesheet =>
    have held := rules true false false (wholeScope list)
    exact regularTree_iff.mpr ⟨fun n hn => (held n hn).kind_rules, fun n hn => (held n hn).2⟩
  | atrule => exact oneAtRule_regular _
  | rule => exact oneRule_regular _
  | atrulePrelude => exact sequenceNode_regular (.inr (.inl rfl)) _
  | mediaQueryList => exact mediaQueryList_regular _
  | mediaQuery => exact sequenceNode_regular (.inr (.inr (.inl rfl))) _
  | condition => exact sequenceNode_regular (.inr (.inr (.inr rfl))) _
  | selectorList => exact (orRaw_regular fun n => selectorList_regular).2
  | selector =>
    dsimp only
    split
    · exact regularTree_raw _
    · rename_i h
      cases hr : selector (wholeScope list).stop (wholeScope list).trim with
      | ok n => exact selector_regular (by simpa using h) hr
      | error e => exact regularTree_raw _
  | block => exact node _ (.inl rfl) (items false (wholeScope list))
  | declarationList => exact node _ (.inr rfl) (items false (wholeScope list))
  | declaration => exact (declaration_regular _).2
  | value => exact sequenceNode_regular (.inl rfl) _

end Grammar

open Node in
/-- The tree of a text is regular, however its nodes are numbered. -/
theorem Document.treeOf_regular (spans : Bool) (context : Context) (list : TokenList) :
    (treeOf spans context list).value.RegularTree := by
  have regular := Grammar.readScope_regular context list
  rw [← regularTree_map fun _ => ()] at regular ⊢
  rwa [show (treeOf spans context list).value.map (fun _ => ()) = _ from
    treeOf_sameShape spans context list]

/-- Read as any part of a style sheet, a text without limits always has a tree, and in every tree
that is read the children of each node are what its kind says. -/
theorem parseAs_regular (text : String) (context : Context) (options : ParseOptions)
    (clock : Clock) :
    (∃ d, parseAs text context { options with budgets := {} } clock = .ok d) ∧
      ∀ d, parseAs text context options clock = .ok d → ∀ n ∈ d.root.nodes, n.Regular := by
  constructor
  · exact exists_parseAs text context options clock
  · intro d h
    rw [parseAs_root h]
    exact Document.treeOf_regular options.captureSpans context (tokenize text)

end Stylesheet
