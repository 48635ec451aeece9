import Stylesheet.Proofs.Canonical
import Stylesheet.Proofs.Enclosed.Token
import Stylesheet.Proofs.Shift.Rule
import Stylesheet.Proofs.Spelling.Rule

/-!
# The rule around a text

Between curly brackets a text is the block of a style rule, and the block holds the items of the text.
Which declarations these are does not depend on whether the items are nested: only the at-rules among
them know about that.
-/

namespace Stylesheet

namespace Grammar

open Located Token Plain

section

variable {t semicolon : Token} {front us : List Token}
variable {stop : Token.Kind → Bool}

/-! ### Declarations among items -/

/-- The declarations among some nodes. -/
def declarationsOf (ns : List Located) : List Located := ns.filter fun n => n.kind = .declaration

theorem declarationsOf_cons {ns ms : List Located} (n : Located)
    (same : declarationsOf ns = declarationsOf ms) :
    declarationsOf (n :: ns) = declarationsOf (n :: ms) := by
  unfold declarationsOf at same ⊢
  rw [List.filter_cons, List.filter_cons, same]

theorem atRule_kind (nested : Bool) (t : Token) (rest : Scope) :
    (atRule nested t rest).value.kind = .atrule := by
  obtain ⟨block, whole, -⟩ := exists_atRuleOf nested t rest
  obtain ⟨stop, blocks, value, -, -⟩ :=
    exists_atRuleOf_value t rest (Item.take endsPrelude rest) block
  rw [whole, value]

/-- Where items are nested, there are the same declarations among them. -/
theorem declarationsOf_blockItems (nested : Bool) (s : Scope) :
    declarationsOf (blockItems nested s).value = declarationsOf (blockItems true s).value := by
  refine (@items_induction (fun _ _ _ => True) (fun _ _ _ _ => True)
    (fun nested s =>
      declarationsOf (blockItems nested s).value = declarationsOf (blockItems true s).value)
    (fun _ _ _ _ => trivial) (fun _ _ _ _ => trivial) (fun _ _ _ _ _ _ _ _ => trivial)
    (fun _ _ _ _ _ _ _ _ _ _ => trivial) (fun _ _ _ _ _ _ _ _ _ _ _ _ => trivial)
    (fun _ _ _ _ _ _ _ _ _ => trivial) ?itemsEnd ?itemsSkip ?itemsAtRule ?itemsDeclaration
    ?itemsRule ?itemsLoose).2.2 nested s
  case itemsEnd =>
    intro nested next
    rw [blockItems_nil, blockItems_nil]
  case itemsSkip =>
    intro nested t ts next hk ih
    rw [blockItems_skip hk, blockItems_skip hk]
    exact ih
  case itemsAtRule =>
    intro nested t ts next hk ha _ ih
    have left (nested : Bool) (ns : List Located) :
        declarationsOf ((atRule nested t ⟨ts, next⟩).value :: ns) = declarationsOf ns := by
      refine List.filter_cons_of_neg ?_
      rw [atRule_kind]
      exact Bool.false_ne_true
    rw [blockItems_atRule hk ha, blockItems_atRule hk ha]
    exact (left nested _).trans (ih.trans (left true _).symm)
  case itemsDeclaration =>
    intro nested t ts next hk ha hd ih
    rw [blockItems_declaration hk ha hd, blockItems_declaration hk ha hd]
    exact declarationsOf_cons _ ih
  case itemsRule =>
    intro nested t ts next b hk ha hd hb _ ih
    rw [blockItems_rule hk ha hd hb, blockItems_rule hk ha hd hb]
    exact declarationsOf_cons _ ih
  case itemsLoose =>
    intro nested t ts next hk ha hd hb ih
    rw [blockItems_loose hk ha hd hb, blockItems_loose hk ha hd hb]
    exact declarationsOf_cons _ ih

/-! ### Where an item ends -/

/-- A search at the top level passes over closed tokens that have nothing to find outside blocks. -/
theorem spanTop_front (closed : Closed front) (none : ∀ t ∈ topLevel front, stop t.kind = false)
    (found : stop t.kind = true) : spanTop stop (front ++ t :: us) = (front, t :: us) := by
  induction closed with
  | nil => exact spanTop_found found
  | @leaf u ts plain _ ih =>
    rw [topLevel_leaf plain] at none
    obtain ⟨first, later⟩ := List.forall_mem_cons.mp none
    rw [List.cons_append, spanTop_plain first plain, ih later]
  | @block opener closer inner ts paired inside _ _ _ ih =>
    have opens := Kind.opensBlock_of_closing paired
    rw [topLevel_block opens inside] at none
    obtain ⟨first, later⟩ := List.forall_mem_cons.mp none
    rw [List.cons_append, List.append_assoc, List.cons_append, spanTop_block first opens inside,
      ih later]

/-- An item ends at the first semicolon outside blocks, if no curly bracket opens before. -/
theorem take_semicolon (closed : Closed front) (none : ∀ t ∈ topLevel front, stop t.kind = false)
    (found : stop .semicolon = true) (kind : semicolon.kind = .semicolon) (us : List Token)
    (next : Nat) : Item.take stop ⟨front ++ semicolon :: us, next⟩ =
      ⟨⟨front, semicolon.start⟩, .semicolon semicolon, ⟨us, next⟩⟩ := by
  have cut : Scope.cut stop ⟨front ++ semicolon :: us, next⟩ =
      (⟨front, semicolon.start⟩, ⟨semicolon :: us, next⟩) := by
    rw [Scope.cut, spanTop_front closed none (by rw [kind]; exact found)]
    rfl
  have other : semicolon.kind ≠ .leftCurly := by
    rw [kind]
    decide
  rw [Item.take, cut]
  exact if_neg other

/-- Whatever stands before the first semicolon outside blocks is at most one item, if no curly bracket
opens before, and what follows the semicolon is read as if nothing stood before. -/
theorem blockItems_resume (us : List Token) (closed : Closed front)
    (none : ∀ t ∈ topLevel front, endsPrelude t.kind = false) (kind : semicolon.kind = .semicolon)
    (nested : Bool) (next : Nat) :
    ∃ items, items.length ≤ 1 ∧ (blockItems nested ⟨front ++ semicolon :: us, next⟩).value =
      items ++ (blockItems nested ⟨us, next⟩).value := by
  induction front with
  | nil =>
    refine ⟨[], Nat.zero_le 1, ?_⟩
    rw [List.nil_append, blockItems_skip (by rw [kind]; rfl), List.nil_append]
  | cons t front ih =>
    have one (item : Parsed Located) (rest : Parsed (List Located)) :
        ∃ items, items.length ≤ 1 ∧ (item.cons rest).value = items ++ rest.value :=
      ⟨[item.value], Nat.le_refl 1, rfl⟩
    have whole := take_semicolon closed none (by rfl) kind us next
    rw [List.cons_append] at whole ⊢
    by_cases skip : (t.kind.isTrivia || t.kind = .semicolon) = true
    · have plain : t.kind.opensBlock = false := by
        cases hk : t.kind <;> first | rfl | (rw [hk] at skip; cases skip)
      rw [topLevel_leaf plain] at none
      rw [blockItems_skip skip]
      exact ih (closed.of_leaf plain) (List.forall_mem_cons.mp none).2
    by_cases keyword : t.kind = .atKeyword
    · have plain : t.kind.opensBlock = false := by rw [keyword]; rfl
      rw [topLevel_leaf plain] at none
      have rest := take_semicolon (closed.of_leaf plain) (List.forall_mem_cons.mp none).2
        (by rfl) kind us next
      rw [blockItems_atRule skip keyword, rest]
      exact one _ _
    by_cases starts : (t.kind = .ident && startsDeclaration t ⟨front ++ semicolon :: us, next⟩) = true
    · have ends : ∀ u ∈ topLevel (t :: front), decide (u.kind = .semicolon) = false := by
        intro u hu
        exact (Bool.or_eq_false_iff.mp (none u hu)).2
      have item : Item.take (· = .semicolon) ⟨t :: (front ++ semicolon :: us), next⟩ = _ :=
        take_semicolon closed ends rfl kind us next
      rw [blockItems_declaration skip keyword starts, item]
      exact one _ _
    · have unblocked (b : Block) :
          (Item.take endsPrelude ⟨t :: (front ++ semicolon :: us), next⟩).ending ≠ .block b := by
        rw [whole]
        exact nofun
      rw [blockItems_loose skip keyword starts unblocked, whole]
      exact one _ _

end

/-! ### The block -/

open Plain in
/-- The selector `a`. -/
def typeA : Selectors := .last (.last (.typed (.named ⟨['a'], by decide⟩) .none))

theorem strip_styleRule {prelude : Parsed Located} {selectors : Selectors}
    (h : prelude.map Node.strip = ⟨selectors.node, []⟩) (start : Nat) (b : Block)
    (items : Parsed (List Located)) :
    (styleRule start prelude (withBlock b items)).value.strip =
      ruleNode selectors (shapes items.value) := by
  have shape : prelude.value.strip = selectors.node := congrArg Parsed.value h
  rw [styleRule, withBlock, strip_mk, shapes, List.map_cons, List.map_singleton, strip_mk, shape]
  rfl

theorem shapes_shift (k : Nat) (ns : List Located) : shapes (ns.map (Located.shift k)) = shapes ns := by
  rw [shapes, shapes, List.map_map]
  exact List.map_congr_left fun n _ => Node.strip_map _ n

/-- The block of the rule. -/
def enclosedBlock (inner : List Token) (size : Nat) : Block :=
  ⟨opening inner.length, Scope.shift 2 ⟨inner, size⟩,
    some ((Word.single .rightCurly '}').token (size + 2)), ⟨[], size + 3⟩⟩

/-- The tokens are one item, which ends with the block. -/
theorem take_enclosed (inner : List Token) (size : Nat) :
    Item.take (· = .leftCurly) ⟨braced inner size, size + 3⟩ =
      ⟨⟨typeA.forest.tokens 0, 1⟩, .block (enclosedBlock inner size), ⟨[], size + 3⟩⟩ := by
  have cut : Scope.cut (· = .leftCurly) ⟨braced inner size, size + 3⟩ =
      (⟨typeA.forest.tokens 0, 1⟩, ⟨(braced inner size).tail, size + 3⟩) := by
    rw [Scope.cut, braced, spanTop_plain rfl rfl, spanTop_found rfl]
    rfl
  have closed : (opening inner.length).inside = some (inner.map (Token.shift 2)).length := by
    rw [List.length_map]
    rfl
  rw [Item.take, cut, braced]
  dsimp only [List.tail]
  rw [Scope.enter_closed closed]
  rfl

/-- A node of some shape has that kind, and children of these shapes. -/
theorem of_strip_eq {α : Type} {n : Node α} {kind : NodeKind} {detail : Detail}
    {children : List (Node Unit)} (h : n.strip = Plain.node kind detail children) :
    n.kind = kind ∧ n.children.map Node.strip = children := by
  have kinds := congrArg Node.kind h
  have below := congrArg Node.children h
  rw [Node.strip, Node.map_kind] at kinds
  rw [Node.strip, Node.map_children] at below
  exact ⟨kinds, below⟩

/-- The only rule of a style sheet holds a list of selectors and a block. -/
theorem exists_rule {α : Type} {root : Node α} {selectors : Selectors} {items : List (Node Unit)}
    (shape : root.strip = Plain.node .styleSheet .none [ruleNode selectors items]) :
    ∃ n list block, root.kind = .styleSheet ∧ root.children = [n] ∧ n.kind = .rule ∧
      n.children = [list, block] ∧ list.strip = selectors.node ∧
      block.strip = Plain.node .block .none items := by
  obtain ⟨sheet, children⟩ := of_strip_eq shape
  obtain ⟨n, _, only, ruleShape, none⟩ := List.map_eq_cons_iff.mp children
  obtain rfl := List.map_eq_nil_iff.mp none
  obtain ⟨kind, parts⟩ := of_strip_eq ruleShape
  obtain ⟨list, _, two, listShape, parts⟩ := List.map_eq_cons_iff.mp parts
  obtain ⟨block, _, rfl, blockShape, none⟩ := List.map_eq_cons_iff.mp parts
  obtain rfl := List.map_eq_nil_iff.mp none
  exact ⟨n, list, block, sheet, only, kind, two, listShape, blockShape⟩

/-- What stands between curly brackets is read as the block of the only rule, wherever it stands. -/
theorem readScope_enclosed (inner : List Token) (size : Nat) (truncated : List Nat) :
    (readScope .stylesheet ⟨braced inner size, truncated, size + 3⟩).value.strip =
      Plain.node .styleSheet .none
        [ruleNode typeA (shapes (blockItems true ⟨inner, size⟩).value)] := by
  have item := take_enclosed inner size
  have rules : ruleList true false false ⟨braced inner size, size + 3⟩ =
      (styleRule 0 (rulePrelude false (Scope.stop ⟨braced inner size, size + 3⟩)
        ⟨typeA.forest.tokens 0, 1⟩) (withBlock (enclosedBlock inner size)
          (blockItems true (Scope.shift 2 ⟨inner, size⟩)))).cons ⟨[], []⟩ := by
    have ending := congrArg Item.ending item
    rw [braced] at item ending ⊢
    rw [ruleList_rule (by exact Bool.false_ne_true) (by decide) ending, item, ruleList_nil]
    rfl
  have items : shapes (blockItems true (Scope.shift 2 ⟨inner, size⟩)).value =
      shapes (blockItems true ⟨inner, size⟩).value := by
    rw [items_shift_all.2.2 true ⟨inner, size⟩]
    exact shapes_shift 2 _
  have prelude : (rulePrelude false (Scope.stop ⟨braced inner size, size + 3⟩)
      ⟨typeA.forest.tokens 0, 1⟩).map Node.strip = ⟨typeA.node, []⟩ :=
    rulePrelude_read typeA _
  have rule := strip_styleRule prelude 0 (enclosedBlock inner size)
    (blockItems true (Scope.shift 2 ⟨inner, size⟩))
  rw [items] at rule
  rw [readScope, wholeScope, rules, Parsed.map_value, strip_mk, Parsed.cons, shapes, List.map_cons,
    rule]
  rfl

end Grammar

open Grammar Plain Token

/-- A text that is read as some tokens in front of a curly bracket is the block of the only rule where
it stands between two of these. -/
theorem Document.treeOf_enclosed {x : String} (h : (tokenize x).Statements) (f : Forest)
    (fits : Word.AllFit f.words ['}']) (room : f.depth < maxDepth) (spans : Bool) :
    (treeOf spans .stylesheet
        (tokenize ("a\x7b" ++ (x ++ String.ofList (Word.textOf f.words)) ++ "\x7d"))).value.strip =
      Plain.node .styleSheet .none [ruleNode typeA (shapes (blockItems true
        ⟨(tokenize x).tokens ++ f.tokens x.utf8ByteSize, x.utf8ByteSize + f.width⟩).value)] := by
  rw [tokenize_statements h f fits room]
  exact (treeOf_sameShape spans .stylesheet _).trans (readScope_enclosed _ _ [])

end Stylesheet
