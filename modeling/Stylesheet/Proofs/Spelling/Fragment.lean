import Stylesheet.Proofs.Numbering
import Stylesheet.Proofs.Spelling.Rule

/-!
# Plain fragments

A list of plain selectors and a list of plain declarations are read back from the text that is
generated from them. What limits this is how deeply the brackets of the text are nested, and the
tree says how deeply that is: `Node.nesting`.
-/

namespace Stylesheet

/-! ### Nesting of brackets -/

/-- Tells whether brackets stand around what a node holds. A pseudo selector has parentheses only if
it has an argument. -/
def NodeKind.encloses (kind : NodeKind) (holds : Bool) : Bool :=
  match kind with
  | .block | .attributeSelector | .function | .parentheses | .brackets => true
  | .pseudoClassSelector | .pseudoElementSelector => holds
  | _ => false

namespace Node

variable {α β : Type}

mutual

/-- How deeply brackets are nested in the text of a tree. -/
def nesting : Node α → Nat
  | ⟨kind, _, _, children⟩ =>
    nestingAll children + (kind.encloses !children.isEmpty).toNat

/-- How deeply brackets are nested in the texts of some trees. -/
def nestingAll : List (Node α) → Nat
  | [] => 0
  | n :: ns => max n.nesting (nestingAll ns)

end

mutual

theorem nesting_map (f : α → β) : ∀ n : Node α, (n.map f).nesting = n.nesting
  | ⟨_, _, _, children⟩ => by
    rw [map, nesting, nesting, nestingAll_mapAll f children, mapAll_eq_map, List.isEmpty_map]

theorem nestingAll_mapAll (f : α → β) :
    ∀ ns : List (Node α), nestingAll (mapAll f ns) = nestingAll ns
  | [] => rfl
  | n :: ns => by rw [mapAll, nestingAll, nestingAll, nesting_map f n, nestingAll_mapAll f ns]

end

/-- Trees of the same shape are nested alike. -/
theorem SameShape.nesting_eq {n : Node α} {m : Node β} (h : n.SameShape m) :
    n.nesting = m.nesting := by
  rw [← nesting_map (fun _ => ()) n, ← nesting_map (fun _ => ()) m]
  exact congrArg nesting h

/-- Trees of the same shape have the same text. -/
theorem SameShape.generate_eq {n : Node α} {m : Node β} (h : n.SameShape m) :
    n.generate = m.generate := by
  rw [← generate_map (fun _ => ()) n, ← generate_map (fun _ => ()) m]
  exact congrArg generate h

theorem nestingAll_append (ns ms : List (Node α)) :
    nestingAll (ns ++ ms) = max (nestingAll ns) (nestingAll ms) := by
  induction ns with
  | nil => exact (Nat.zero_max _).symm
  | cons n ns ih => rw [List.cons_append, nestingAll, ih, nestingAll, Nat.max_assoc]

end Node

namespace Plain

open Token (Word Forest Firm)

open Node (nesting nestingAll)

@[simp] theorem depth_append (f g : Forest) : (f ++ g).depth = max f.depth g.depth := by
  induction f with
  | nil => exact (Nat.zero_max _).symm
  | leaf w plain rest ih => exact ih
  | block opener inner closer paired rest _ ih =>
    rw [Forest.block_append, Forest.depth, ih, Forest.depth, Nat.max_assoc]

theorem nesting_node (kind : NodeKind) (detail : Detail) (ns : List (Node Unit)) :
    (node kind detail ns).nesting = nestingAll ns + (kind.encloses !ns.isEmpty).toNat := by
  rw [node, nesting]

/-! The words of a tree are nested as the tree says, one case for each constructor. -/

mutual

theorem Component.depth_forest : ∀ c : Component, c.forest.depth = c.node.nesting
  | .identifier _ | .number _ | .percentage _ | .dimension _ _ | .hash _ | .string _ | .url _ => rfl
  | .function _ _ inner | .parentheses inner | .brackets inner => by
    have depth := Components.depth_forest inner
    simp only [Component.node, nesting_node, NodeKind.encloses, Bool.toNat_true, ← depth]
    exact Nat.max_zero _

theorem Components.depth_forest : ∀ cs : Components, cs.forest.depth = nestingAll cs.nodes
  | .none => rfl
  | .some first more => by
    rw [Components.forest, depth_append, Component.depth_forest first, More.depth_forest more,
      Components.nodes, nestingAll]

theorem More.depth_forest : ∀ m : More, m.forest.depth = nestingAll m.nodes
  | .done => rfl
  | .next joint component more => by
    have flat : joint.node.nesting = 0 := by cases joint <;> rfl
    rw [More.forest, Forest.depth, depth_append, Component.depth_forest component,
      More.depth_forest more, More.nodes, nestingAll, nestingAll, flat, Nat.zero_max]

end

theorem Attribute.depth_forest (a : Attribute) : a.forest.depth = 1 := by
  obtain ⟨name, _ | ⟨matcher, operand, flag⟩⟩ := a
  · rfl
  · cases matcher <;> cases operand <;> cases flag <;> rfl

mutual

theorem Simple.depth_forest : ∀ x : Simple, x.forest.depth = x.node.nesting
  | .id _ | .className _ | .pseudoClass _ | .pseudoElement _ | .nesting => rfl
  | .attr a => a.depth_forest
  | .functional name _ selectors => by
    have depth := Selectors.depth_forest selectors
    simp only [Simple.node, nesting_node, NodeKind.encloses, nestingAll, ← depth, Nat.max_zero]
    exact Nat.max_zero _

theorem Simples.depth_forest : ∀ xs : Simples, xs.forest.depth = nestingAll xs.nodes
  | .none => rfl
  | .some first more => by
    rw [Simples.forest, depth_append, Simple.depth_forest first, Simples.depth_forest more,
      Simples.nodes, nestingAll]

theorem Compound.depth_forest : ∀ c : Compound, c.forest.depth = nestingAll c.nodes
  | .typed name more => by
    have flat : name.forest.depth = 0 := by cases name <;> rfl
    rw [Compound.forest, depth_append, flat, Simples.depth_forest more, Compound.nodes, nestingAll]
    rfl
  | .untyped first more => by
    rw [Compound.forest, depth_append, Simple.depth_forest first, Simples.depth_forest more,
      Compound.nodes, nestingAll]

theorem Selector.depth_forest : ∀ x : Selector, x.forest.depth = nestingAll x.nodes
  | .last compound => Compound.depth_forest compound
  | .join compound joiner rest => by
    have flat : joiner.forest.depth = 0 := by cases joiner <;> rfl
    rw [Selector.forest, depth_append, depth_append, Compound.depth_forest compound, flat,
      Selector.depth_forest rest, Selector.nodes, Node.nestingAll_append, nestingAll]
    rfl

theorem Selectors.depth_forest : ∀ l : Selectors, l.forest.depth = nestingAll l.nodes
  | .last selector => by
    have depth := Selector.depth_forest selector
    rw [Selectors.forest, depth, Selectors.nodes, nestingAll, nesting_node]
    exact (Nat.max_zero _).symm
  | .more selector rest => by
    have depth := Selector.depth_forest selector
    rw [Selectors.forest, depth_append, depth, Forest.depth, Selectors.depth_forest rest,
      Selectors.nodes, nestingAll, nesting_node]
    rfl

end

theorem Declaration.depth_forest (d : Declaration) : d.forest.depth = d.node.nesting := by
  have flat : (flag d.important).depth = 0 := by cases d.important <;> rfl
  have depth : d.forest.depth = max d.value.forest.depth (flag d.important).depth :=
    depth_append _ _
  rw [depth, flat, d.value.depth_forest, Declaration.node, nesting_node, nestingAll, nesting_node]
  rfl

theorem Items.depth_forest (items : Items) : items.forest.depth = nestingAll items.nodes := by
  induction items with
  | nil => rfl
  | declaration d rest ih =>
    have tail : (rest.afterDeclaration rest.forest).depth = rest.forest.depth := by
      cases rest <;> rfl
    rw [Items.forest, depth_append, tail, d.depth_forest, ih, Items.nodes, nestingAll]
  | rule selectors block rest ihb ih =>
    have prelude : selectors.node.nesting = selectors.forest.depth := by
      rw [Selectors.node, nesting_node, ← selectors.depth_forest]
      rfl
    have braces (f g : Forest) : (curly f g).depth = max (f.depth + 1) g.depth := rfl
    rw [Items.forest, depth_append, braces, ih, Items.nodes, nestingAll, ruleNode, nesting_node,
      nestingAll, nestingAll, nestingAll, nesting_node, prelude, ← ihb]
    simp only [NodeKind.encloses, Bool.toNat_true, Bool.toNat_false, Nat.max_zero, Nat.add_zero,
      Nat.max_assoc]

/-! ### Reading fragments -/

open Grammar in
/-- A text that is made of the words of a forest is read as a tree if the forest's tokens are. -/
theorem parseAs_forest {f : Forest} {context : Context} {n : Node Unit}
    (fit : Word.AllFit f.words []) (room : f.depth ≤ Token.maxDepth)
    (read : (readScope context ⟨f.tokens 0, [], f.width⟩).map Node.strip = ⟨n, []⟩)
    (options : ParseOptions) (clock : Clock) :
    ∃ d, parseAs (String.ofList (Word.textOf f.words)) context { options with budgets := {} }
        clock = .ok d ∧ d.errors = [] ∧ d.root.SameShape n := by
  obtain ⟨d, hd⟩ := exists_parseAs (String.ofList (Word.textOf f.words)) context options clock
  have tree : (Document.treeOf options.captureSpans context
      (tokenize (String.ofList (Word.textOf f.words)))).map Node.strip = ⟨n, []⟩ := by
    rw [tokenize_forest f fit room, ← read]
    simp only [Document.treeOf_eq, Grammar.read, Parsed.map, Node.strip_number, Node.strip_map,
      List.map_nil, List.nil_append]
  simp only [Parsed.map, Parsed.mk.injEq] at tree
  refine ⟨d, hd, ?_, ?_⟩
  · rw [parseAs_errors hd]
    exact congrArg (Document.locate _) tree.2
  · rw [Node.SameShape, parseAs_root hd, ← tree.1]
    exact (Node.strip_map _ _).symm

/-- The node of a list of declarations, which may have style rules among them. -/
def Items.node (items : Items) : Node Unit := Plain.node .declarationList .none items.nodes

theorem Items.generate_node (items : Items) :
    items.node.generate = String.ofList (Word.textOf items.forest.words) := by
  rw [← String.toList_inj, String.toList_ofList, ← items.written_nodes]
  rfl

theorem Selectors.generate_node (l : Selectors) :
    l.node.generate = String.ofList (Word.textOf l.forest.words) := by
  rw [← String.toList_inj, String.toList_ofList, l.toList_generate]

open Grammar in
/-- A scope is read as a list of selectors if the selectors are read from its tokens. -/
theorem readScope_selectors {f : Forest} {ns : List (Node Unit)}
    (firm : Firm (f.words.map Word.kind))
    (read : ∀ limit, (selectors limit ⟨f.tokens 0, f.width⟩).map shapes = .ok ns) :
    (readScope .selectorList ⟨f.tokens 0, [], f.width⟩).map Node.strip =
      ⟨Plain.node .selectorList .none ns, []⟩ := by
  rw [← Forest.kinds_tokens f 0] at firm
  simp only [readScope, wholeScope, Scope.trim_of_tight firm.tight, selectorList]
  specialize read (Scope.stop ⟨f.tokens 0, f.width⟩)
  cases items : selectors (Scope.stop ⟨f.tokens 0, f.width⟩) ⟨f.tokens 0, f.width⟩ with
  | error e =>
    rw [items] at read
    cases read
  | ok ms =>
    rw [items] at read
    obtain rfl : shapes ms = ns := Except.ok.inj read
    simp only [bind, Except.bind, orRaw, Parsed.map, strip_mk]

open Grammar in
theorem Selectors.read_scope (l : Selectors) :
    (readScope .selectorList ⟨l.forest.tokens 0, [], l.forest.width⟩).map Node.strip =
      ⟨l.node, []⟩ :=
  readScope_selectors l.firm fun limit => l.read limit 0 l.forest.width

open Grammar in
theorem Items.read_scope (items : Items) :
    (readScope .declarationList ⟨items.forest.tokens 0, [], items.forest.width⟩).map Node.strip =
      ⟨items.node, []⟩ := by
  have read := items.read false 0 items.forest.width
  simp only [Parsed.map, Parsed.mk.injEq] at read
  simp only [readScope, wholeScope, Parsed.map, strip_mk, read]
  rfl

end Plain

section

variable {α : Type} {t : Node α}

/-- The text of a list of plain selectors is read without errors as the list, so long as its
brackets are not nested too deeply. -/
theorem parseFragment_selectorList {l : Plain.Selectors} (plain : t.SameShape l.node)
    (room : t.nesting ≤ Token.maxDepth) (options : ParseOptions) (clock : Clock) :
    ∃ d, parseFragment t.generate "selectorList" { options with budgets := {} } clock = .ok d ∧
      d.errors = [] ∧ d.root.SameShape t := by
  have depth : l.forest.depth ≤ Token.maxDepth := by
    rw [plain.nesting_eq, Plain.Selectors.node, Plain.nesting_node, ← l.depth_forest] at room
    exact room
  obtain ⟨d, read, errors, shape⟩ :=
    Plain.parseAs_forest (l.fits (by rfl)) depth l.read_scope options clock
  refine ⟨d, ?_, errors, shape.trans plain.symm⟩
  rw [plain.generate_eq, l.generate_node]
  exact read

/-- A namespace beside a column combinator, a dash match, a string with a quote and a line feed in
it, and a list within a list. -/
theorem parseFragment_selectorList_nested :
    ∃ d, parseFragment "a|b||c+.d:not([e|=\"\\\"\\a \" i]>f,#g::h &)" "selectorList" {} = .ok d ∧
      d.errors = [] ∧ d.root.nesting = 2 := by
  let name (c : Char) (h : Token.isPlainName [c] = true) : Plain.Name := ⟨[c], h⟩
  let not : Plain.Name := ⟨['n', 'o', 't'], by decide⟩
  let inner : Plain.Selectors :=
    .more
      (.join
        (.untyped (.attr ⟨name 'e' rfl, some ⟨.dashMatch, .string ⟨['"', '\n'], by decide⟩,
          some (name 'i' rfl)⟩⟩) .none)
        .child (.last (.typed (.named (name 'f' rfl)) .none)))
      (.last (.join (.untyped (.id (name 'g' rfl)) (.some (.pseudoElement (name 'h' rfl)) .none))
        .descendant (.last (.untyped .nesting .none))))
  let l : Plain.Selectors :=
    .last (.join (.typed (.qualified (name 'a' rfl) (name 'b' rfl)) .none) .column
      (.join (.typed (.named (name 'c' rfl)) .none) .next
        (.last (.untyped (.className (name 'd' rfl))
          (.some (.functional not (by decide) inner) .none)))))
  obtain ⟨d, read, errors, shape⟩ :=
    parseFragment_selectorList (show l.node.SameShape l.node from rfl) (by decide) {} {}
  have text : l.node.generate = "a|b||c+.d:not([e|=\"\\\"\\a \" i]>f,#g::h &)" := by decide +kernel
  exact ⟨d, text ▸ read, errors, shape.nesting_eq.trans (by decide)⟩

/-- The text of a list of plain declarations, with style rules among them or without, is read
without errors as the list, so long as its brackets are not nested too deeply. -/
theorem parseFragment_declarationList {items : Plain.Items} (plain : t.SameShape items.node)
    (room : t.nesting ≤ Token.maxDepth) (options : ParseOptions) (clock : Clock) :
    ∃ d, parseFragment t.generate "declarationList" { options with budgets := {} } clock =
        .ok d ∧
      d.errors = [] ∧ d.root.SameShape t := by
  have depth : items.forest.depth ≤ Token.maxDepth := by
    rw [plain.nesting_eq, Plain.Items.node, Plain.nesting_node, ← items.depth_forest] at room
    exact room
  obtain ⟨d, read, errors, shape⟩ :=
    Plain.parseAs_forest (items.fits (by rfl)) depth items.read_scope options clock
  refine ⟨d, ?_, errors, shape.trans plain.symm⟩
  rw [plain.generate_eq, items.generate_node]
  exact read

/-- A url with a space, a string with a quote, a signed dimension whose unit starts like an
exponent, a function and brackets in an important value, an empty value and a property named like a
flag. -/
theorem parseFragment_declarationList_nested :
    ∃ d, parseFragment
        "a:url(b\\ c) \"\\\"\",-1.5e/f(2%,[#g])!important;h:;important:(i)" "declarationList" {} =
          .ok d ∧
      d.errors = [] ∧ d.root.nesting = 2 := by
  let name (c : Char) (h : Token.isPlainName [c] = true) : Plain.Name := ⟨[c], h⟩
  let digit (c : Char) (h : [c].all Char.isDigit = true) : Token.Numeral.Digits :=
    ⟨[c], List.cons_ne_nil _ _, h⟩
  let marks : Plain.Components :=
    .some (.percentage ⟨.none, digit '2' rfl, none⟩)
      (.next .comma (.brackets (.some (.hash (name 'g' rfl)) .done)) .done)
  let value : Plain.Components :=
    .some (.url ⟨['b', ' ', 'c'], by decide⟩)
      (.next .space (.string ⟨['"'], by decide⟩)
        (.next .comma
          (.dimension ⟨.minus, digit '1' rfl, some (digit '5' rfl)⟩ ⟨['e'], by decide, by decide⟩)
          (.next .slash (.function (name 'f' rfl) (by decide) marks) .done)))
  let important : Plain.Name := ⟨['i', 'm', 'p', 'o', 'r', 't', 'a', 'n', 't'], by decide⟩
  let items : Plain.Items :=
    .declaration ⟨name 'a' rfl, true, value⟩
      (.declaration ⟨name 'h' rfl, false, .none⟩
        (.declaration
          ⟨important, false,
            .some (.parentheses (.some (.identifier (name 'i' rfl)) .done)) .done⟩ .nil))
  obtain ⟨d, read, errors, shape⟩ :=
    parseFragment_declarationList (show items.node.SameShape items.node from rfl) (by decide) {} {}
  have text : items.node.generate =
      "a:url(b\\ c) \"\\\"\",-1.5e/f(2%,[#g])!important;h:;important:(i)" := by
    decide +kernel
  exact ⟨d, text ▸ read, errors, shape.nesting_eq.trans (by decide)⟩

end

end Stylesheet
