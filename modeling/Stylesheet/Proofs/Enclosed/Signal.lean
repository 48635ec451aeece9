import Stylesheet.Proofs.Compiled.Identifier
import Stylesheet.Proofs.Enclosed.Rule
import Stylesheet.Proofs.Signal

/-!
# Declarations of a rule and of a text

What a text declares, read as a list of declarations, a style rule declares that has the text between
its curly brackets. What a declaration says depends on its shape and its position alone, and both are
the same: neither the brackets nor the rule around the text change which declarations there are.
-/

namespace Stylesheet

open Token Grammar Plain

/-- What a declaration says, whatever the number of its node. -/
def DeclarationSignal.unnumbered (d : DeclarationSignal) : DeclarationSignal := { d with id := 0 }

namespace Node

variable {α β : Type}

/-- The shapes of the declarations right below a node. -/
def declarations (n : Node α) : List (Node Unit) :=
  (n.children.map strip).filter fun c => c.kind = .declaration

theorem SameShape.declarations_eq {n : Node α} {m : Node β} (h : n.SameShape m) :
    n.declarations = m.declarations := by
  have children := congrArg Node.children h
  rw [strip, strip, map_children, map_children] at children
  exact congrArg (List.filter fun c => c.kind = .declaration) children

end Node

namespace Signal

/-- What a declaration of some shape says at a position. -/
def said (order : Nat) (n : Node Unit) : DeclarationSignal :=
  { id := 0
    property := Text.lower (n.detail.property?.getD "")
    value := (n.children.head?.map fun v => Text.trim v.canonical).getD ""
    important := n.detail.important
    order := order }

theorem unnumbered_declaration (order : Nat) (n : Node Mark) :
    (declaration order n).unnumbered = said order n.strip := by
  have value : n.strip.children.head?.map (fun v => Text.trim v.canonical) =
      n.children.head?.map fun v => Text.trim v.canonical := by
    rw [Node.strip, Node.map_children, List.head?_map, Option.map_map]
    refine congrArg (Option.map · _) (funext fun v => ?_)
    exact congrArg Text.trim (Node.canonical_map _ v)
  rw [said, value, Node.strip, Node.map_detail]
  rfl

/-- What the declarations below a node say depends on their shapes. -/
theorem unnumbered_declarations (n : Node Mark) :
    (declarations n).map DeclarationSignal.unnumbered = n.declarations.mapIdx said := by
  have shapes : n.declarations = (n.children.filter fun c => c.kind = .declaration).map Node.strip := by
    rw [Node.declarations, List.filter_map]
    refine congrArg (List.map Node.strip) (List.filter_congr fun c _ => ?_)
    rw [Function.comp, Node.strip, Node.map_kind]
  rw [declarations, shapes]
  apply List.ext_getElem
  · simp
  · intro i _ _
    simp [unnumbered_declaration]

/-- The first style rule of a style sheet that is a rule with the selector `a`. -/
theorem styleRules_enclosed {root : Node Mark} {items : List (Node Unit)}
    (shape : root.strip = node .styleSheet .none [ruleNode typeA items]) :
    ∃ n list block pairs, styleRules root = (n, list) :: pairs ∧ list.strip = typeA.node ∧
      n.child? .block = some block ∧ block.strip = node .block .none items := by
  obtain ⟨n, list, block, sheet, children, kind, parts, selectors, items⟩ := Grammar.exists_rule shape
  obtain ⟨listKind, -⟩ := of_strip_eq selectors
  obtain ⟨blockKind, -⟩ := of_strip_eq items
  have found : n.child? .selectorList = some list := by
    rw [Node.child?, parts, List.find?_cons_of_pos (by rw [listKind]; rfl)]
  have declares : n.child? .block = some block := by
    rw [Node.child?, parts, List.find?_cons_of_neg (by rw [listKind]; exact Bool.false_ne_true),
      List.find?_cons_of_pos (by rw [blockKind]; rfl)]
  obtain ⟨pairs, first⟩ : ∃ pairs, styleRules root = (n, list) :: pairs := by
    have other : styleRule? root = Option.none := by
      rw [styleRule?, sheet]
      rfl
    have own : styleRule? n = some (n, list) := by
      rw [styleRule?, kind, found]
      rfl
    rw [styleRules, Node.nodes_eq, List.filterMap_cons_none other, children, List.flatMap_cons,
      Node.nodes_eq n, List.cons_append, List.filterMap_cons_some own]
    exact ⟨_, rfl⟩
  exact ⟨n, list, block, pairs, first, selectors, declares, items⟩

/-- The selector `a` is supported. -/
theorem supported_typeA {list : Node Mark} (shape : list.strip = typeA.node) (text : String) :
    (SelectorList.ofNode text list []).supported = true := by
  have same : list.SameShape typeA.node := shape
  rw [SelectorList.ofNode_sameShape same]
  rfl

end Signal

/-- Between curly brackets, statements are the block of the only rule. -/
theorem sheetOf_enclosed {d : String} (h : (tokenize d).Statements) :
    (sheetOf ("a\x7b" ++ d ++ "\x7d")).strip = node .styleSheet .none
      [ruleNode typeA (shapes (blockItems true (wholeScope (tokenize d))).value)] := by
  have tree := Document.treeOf_enclosed h .nil trivial (by decide) false
  have alone : d ++ String.ofList (Word.textOf (Forest.nil).words) = d := String.append_empty
  have whole : (⟨(tokenize d).tokens ++ Forest.nil.tokens d.utf8ByteSize,
      d.utf8ByteSize + Forest.nil.width⟩ : Scope) = wholeScope (tokenize d) := by
    rw [wholeScope, (tokenize_run d).2]
    exact congrArg (Scope.mk · _) (List.append_nil _)
  rw [alone, whole] at tree
  exact tree

/-- Items have the same declarations among them, nested in a block or right in a list. -/
theorem declarations_enclosed {d : String} {block : Node Mark}
    (items : block.strip =
      node .block .none (shapes (blockItems true (wholeScope (tokenize d))).value)) :
    block.declarations =
      (Document.treeOf false .declarationList (tokenize d)).value.declarations := by
  have declared (ns : List Located) :
      (shapes ns).filter (fun c => c.kind = .declaration) = shapes (declarationsOf ns) := by
    rw [shapes, List.filter_map]
    refine congrArg (List.map Node.strip) (List.filter_congr fun n _ => ?_)
    rw [Function.comp, Node.strip, Node.map_kind]
  have list := (Document.treeOf_sameShape false .declarationList (tokenize d)).declarations_eq
  rw [list, Node.declarations, (of_strip_eq items).2, declared, Node.declarations, readScope]
  exact (congrArg shapes (declarationsOf_blockItems false _).symm).trans (declared _).symm

/-- Statements declare the same in the block of a style rule as they do alone. -/
theorem styleSignals_enclosed {d : String} (h : (tokenize d).Statements) :
    ∃ r rs, styleSignals ("a\x7b" ++ d ++ "\x7d") {} = .ok (r :: rs) ∧
      r.declarations.map DeclarationSignal.unnumbered =
        (inlineSignals d).map DeclarationSignal.unnumbered := by
  obtain ⟨document, read, root⟩ := parse_eq_sheetOf ("a\x7b" ++ d ++ "\x7d")
  obtain ⟨n, list, block, pairs, first, selectors, declares, items⟩ :=
    Signal.styleRules_enclosed (sheetOf_enclosed h)
  refine ⟨Signal.rule 0 (n, list), (Signal.all 1 pairs).filter RuleSignal.supported, ?_, ?_⟩
  · have supported : (Signal.rule 0 (n, list)).supported = true :=
      Signal.supported_typeA selectors list.canonical
    simp only [styleSignals, read, root, first]
    rw [Signal.collect_skipped rfl rfl, Signal.all_cons, List.filter_cons_of_pos supported]
  · have declared : (Signal.rule 0 (n, list)).declarations = Signal.declarations block := by
      rw [Signal.rule, declares]
      rfl
    rw [declared, Signal.unnumbered_declarations, declarations_enclosed items,
      ← Signal.unnumbered_declarations]
    rfl

/-- An at-rule, a nested rule, a custom property with a semicolon in brackets, an error and a comment
among declarations. -/
theorem styleSignals_enclosed_mixed :
    ∃ r rs, styleSignals "a\x7bb:c;@x;&\x7bd:e\x7d--y: [;] !important;f g;i:j/**/;\x7d" {} =
        .ok (r :: rs) ∧
      r.declarations.map DeclarationSignal.unnumbered =
        [⟨0, "b", "c", false, 0⟩, ⟨0, "--y", "[;]", true, 1⟩, ⟨0, "i", "j", false, 2⟩] := by
  have statements :
      (tokenize "b:c;@x;&\x7bd:e\x7d--y: [;] !important;f g;i:j/**/;").Statements := by
    refine ⟨?_, ?_, ⟨⟨.semicolon, ";", 44, none, none, ""⟩, ?_, rfl⟩, ?_⟩ <;> decide +kernel
  obtain ⟨r, rs, signals, declarations⟩ := styleSignals_enclosed statements
  refine ⟨r, rs, signals, declarations.trans ?_⟩
  decide +kernel

end Stylesheet
