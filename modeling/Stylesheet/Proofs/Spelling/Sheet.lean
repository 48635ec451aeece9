import Stylesheet.Proofs.Canonical
import Stylesheet.Proofs.Numbering
import Stylesheet.Proofs.Spelling.Rule

/-!
# Plain style sheets

A plain style sheet is a list of style rules with plain selectors and plain blocks. Its canonical
text is read as the sheet itself, without errors, so long as no block is nested too deeply. So
rewriting a text is faithful if it is read as a plain style sheet, whatever white space, comments
and semicolons it has besides.

That is not so for every text. White space may keep two operators from starting a comment, and the
canonical text drops it; raw text left behind by an error may need a semicolon, and the canonical
text has none.
-/

namespace Stylesheet

namespace Plain

open Token (Word Forest Firm)

/-- Style rules one after the other. -/
inductive Sheet where
  | nil
  | rule (selectors : Selectors) (block : Items) (rest : Sheet)

namespace Sheet

/-- The nodes of the rules. -/
def nodes : Sheet → List (Node Unit)
  | nil => []
  | rule selectors block rest => ruleNode selectors block.nodes :: rest.nodes

/-- The node of a style sheet. -/
def node (s : Sheet) : Node Unit := Plain.node .styleSheet .none s.nodes

/-- The words of a style sheet. -/
def forest : Sheet → Forest
  | nil => .nil
  | rule selectors block rest => selectors.forest ++ curly block.forest rest.forest

/-- The text of a style sheet. -/
def text (s : Sheet) : String := String.ofList (Word.textOf s.forest.words)

theorem written_nodes (s : Sheet) : written s.nodes = Word.textOf s.forest.words := by
  induction s with
  | nil => rfl
  | rule selectors block rest ih =>
    rw [nodes, written_cons, toList_rule, block.written_nodes, forest, Forest.words_append,
      Word.textOf_append, textOf_curly, ih]
    simp

theorem generate_node (s : Sheet) : s.node.generate = s.text := by
  rw [← String.toList_inj, text, String.toList_ofList, ← s.written_nodes]
  exact toList_plain s.nodes

theorem fits (s : Sheet) : Word.AllFit s.forest.words [] := by
  induction s with
  | nil => trivial
  | rule selectors block rest ih =>
    rw [forest, Forest.words_append, Word.allFit_append, curly, Forest.words_block]
    exact ⟨selectors.fits (by rfl), Word.fits_single rfl, Word.allFit_append.mpr
      ⟨block.fits (by rfl), Word.fits_single rfl, ih⟩⟩

open Grammar

/-- The rules of a style sheet are read one after the other. -/
theorem read_rules (s : Sheet) (o next : Nat) :
    (ruleList true false false ⟨s.forest.tokens o, next⟩).map shapes = ⟨s.nodes, []⟩ := by
  induction s generalizing o with
  | nil =>
    rw [forest, Forest.tokens, ruleList_nil]
    rfl
  | rule selectors block rest ih =>
    obtain ⟨t, ts, front, trivia, kind, -⟩ :=
      selectors.exists_head (curly block.forest rest.forest) o
    have avoids : selectors.forest.avoids (· = .leftCurly) :=
      selectors.avoids fun _ h _ => decide_eq_false h
    obtain ⟨b, p, q, r, item, inside, closed⟩ :=
      take_curly avoids rfl block.forest rest.forest o next
    have items : (blockItems true b.inner).map shapes = ⟨block.nodes, []⟩ := by
      rw [inside]
      exact block.read true q r
    simp only [List.mem_cons, List.not_mem_nil, or_false, not_or] at kind
    rw [forest, front]
    rw [front] at item
    rw [ruleList_rule (by simp [trivia, kind]) kind.2.1 (congrArg Item.ending item), item,
      cons_shapes, styleRule_read t.start (rulePrelude_read selectors _) items closed, ih]
    rfl

/-- The text of a plain style sheet is read as the sheet, without errors. -/
theorem read_text (s : Sheet) (room : s.forest.depth ≤ Token.maxDepth) (spans : Bool) :
    (Document.treeOf spans .stylesheet (tokenize s.text)).map Node.strip = ⟨s.node, []⟩ := by
  have rules := s.read_rules 0 s.forest.width
  simp only [Parsed.map, Parsed.mk.injEq] at rules
  rw [text, tokenize_forest s.forest s.fits room]
  simp only [Document.treeOf_eq, Grammar.read, readScope, wholeScope, Parsed.map, Node.strip_number,
    Node.strip_map, strip_mk, rules, List.map_nil, List.nil_append]
  rfl

end Sheet

/-! ### Padding -/

section

open Node (padCustom)

theorem padCustom_node {kind : NodeKind} {detail : Detail} {ns : List (Node Unit)}
    (h : detail.declaresCustom = false) (inner : ns.map padCustom = ns) :
    (node kind detail ns).padCustom = node kind detail ns := by
  rw [node, padCustom, h, if_neg Bool.false_ne_true, Node.padCustomAll_eq_map, inner]

theorem Joint.padCustom_node (j : Joint) : j.node.padCustom = j.node := by
  cases j <;> rfl

mutual

theorem Component.padCustom_node : ∀ c : Component, c.node.padCustom = c.node
  | .identifier _ | .number _ | .percentage _ | .dimension _ _ | .hash _ | .string _ | .url _ => rfl
  | .function _ _ inner | .parentheses inner | .brackets inner =>
    Plain.padCustom_node rfl (Components.padCustom_nodes inner)

theorem Components.padCustom_nodes : ∀ cs : Components, cs.nodes.map padCustom = cs.nodes
  | .none => rfl
  | .some first more => by
    rw [Components.nodes, List.map_cons, Component.padCustom_node first, More.padCustom_nodes more]

theorem More.padCustom_nodes : ∀ m : More, m.nodes.map padCustom = m.nodes
  | .done => rfl
  | .next joint component more => by
    rw [More.nodes, List.map_cons, List.map_cons, joint.padCustom_node,
      Component.padCustom_node component, More.padCustom_nodes more]

end

mutual

theorem Simple.padCustom_node : ∀ x : Simple, x.node.padCustom = x.node
  | .id _ | .className _ | .pseudoClass _ | .pseudoElement _ | .nesting => rfl
  | .attr a => by
    obtain ⟨name, test⟩ := a
    cases test <;> rfl
  | .functional _ _ selectors => by
    have list : (Plain.node .selectorList .none selectors.nodes).padCustom = _ :=
      Plain.padCustom_node rfl (Selectors.padCustom_nodes selectors)
    exact Plain.padCustom_node rfl (congrArg ([·]) list)

theorem Simples.padCustom_nodes : ∀ xs : Simples, xs.nodes.map padCustom = xs.nodes
  | .none => rfl
  | .some first more => by
    rw [Simples.nodes, List.map_cons, Simple.padCustom_node first, Simples.padCustom_nodes more]

theorem Compound.padCustom_nodes : ∀ c : Compound, c.nodes.map padCustom = c.nodes
  | .typed name more => by
    rw [Compound.nodes, List.map_cons, Simples.padCustom_nodes more]
    rfl
  | .untyped first more => by
    rw [Compound.nodes, List.map_cons, Simple.padCustom_node first, Simples.padCustom_nodes more]

theorem Selector.padCustom_nodes : ∀ x : Selector, x.nodes.map padCustom = x.nodes
  | .last compound => Compound.padCustom_nodes compound
  | .join compound joiner rest => by
    rw [Selector.nodes, List.map_append, List.map_cons, Compound.padCustom_nodes compound,
      Selector.padCustom_nodes rest]
    rfl

theorem Selectors.padCustom_nodes : ∀ l : Selectors, l.nodes.map padCustom = l.nodes
  | .last selector => by
    rw [Selectors.nodes, List.map_cons,
      Plain.padCustom_node rfl (Selector.padCustom_nodes selector)]
    rfl
  | .more selector rest => by
    rw [Selectors.nodes, List.map_cons,
      Plain.padCustom_node rfl (Selector.padCustom_nodes selector), Selectors.padCustom_nodes rest]

end

theorem Declaration.padCustom_node (d : Declaration) : d.node.padCustom = d.node :=
  Plain.padCustom_node d.property.not_custom
    (congrArg ([·]) (Plain.padCustom_node rfl d.value.padCustom_nodes))

theorem padCustom_ruleNode (selectors : Selectors) {items : List (Node Unit)}
    (h : items.map padCustom = items) :
    (ruleNode selectors items).padCustom = ruleNode selectors items := by
  have prelude : selectors.node.padCustom = selectors.node :=
    Plain.padCustom_node rfl selectors.padCustom_nodes
  refine Plain.padCustom_node rfl ?_
  rw [List.map_cons, List.map_cons, prelude, Plain.padCustom_node rfl h]
  rfl

theorem Items.padCustom_nodes (items : Items) : items.nodes.map padCustom = items.nodes := by
  induction items with
  | nil => rfl
  | declaration d rest ih => rw [Items.nodes, List.map_cons, d.padCustom_node, ih]
  | rule selectors block rest ihb ih =>
    rw [Items.nodes, List.map_cons, padCustom_ruleNode selectors ihb, ih]

theorem Sheet.padCustom_nodes (s : Sheet) : s.nodes.map padCustom = s.nodes := by
  induction s with
  | nil => rfl
  | rule selectors block rest ih =>
    rw [Sheet.nodes, List.map_cons, padCustom_ruleNode selectors block.padCustom_nodes, ih]

/-- A plain style sheet has no custom properties, so padding leaves it as it is. -/
theorem Sheet.canonical_node (s : Sheet) : s.node.canonical = s.text := by
  rw [Node.canonical_eq, Sheet.node, Plain.padCustom_node rfl s.padCustom_nodes]
  exact s.generate_node

end

end Plain

/-! ### Rewriting -/

/-- A text that is read as a plain style sheet is rewritten to the sheet's own text. -/
theorem canonicalOf_eq_text {css : String} {s : Plain.Sheet}
    (plain : (sheetOf css).SameShape s.node) : canonicalOf css = s.text := by
  rw [canonicalOf, plain.canonical, s.canonical_node]

/-- Rewriting a plain style sheet keeps its shape. -/
theorem sameShape_canonicalOf {css : String} {s : Plain.Sheet}
    (plain : (sheetOf css).SameShape s.node) (room : s.forest.depth ≤ Token.maxDepth) :
    (sheetOf (canonicalOf css)).SameShape (sheetOf css) := by
  have text := canonicalOf_eq_text plain
  have read : (sheetOf s.text).strip = s.node := congrArg Parsed.value (s.read_text room false)
  have stripped : s.node.strip = s.node := by
    rw [← read]
    exact Node.strip_map _ _
  rw [Node.SameShape] at plain ⊢
  rw [text, read, plain, stripped]

/-- The canonical text of a plain style sheet is its own canonical text. -/
theorem canonicalOf_canonicalOf {css : String} {s : Plain.Sheet}
    (plain : (sheetOf css).SameShape s.node) (room : s.forest.depth ≤ Token.maxDepth) :
    canonicalOf (canonicalOf css) = canonicalOf css :=
  (canonicalOf_eq_of_sameShape (sameShape_canonicalOf plain room)).1

/-- Optional white space is gone from the canonical text, and a semicolon that nothing follows. -/
theorem canonicalOf_canonicalOf_spaced :
    canonicalOf (canonicalOf " a \x7b b : c ; \x7d ") = canonicalOf " a \x7b b : c ; \x7d " :=
  canonicalOf_canonicalOf
    (s := .rule (.last (.last (.typed (.named ⟨['a'], by decide⟩) .none)))
      (.declaration ⟨⟨['b'], by decide⟩, false, .some (.identifier ⟨['c'], by decide⟩) .done⟩ .nil)
      .nil)
    (by decide +kernel) (by decide)

/-- Two operators that start a comment once the white space between them is gone. -/
theorem canonicalOf_comment :
    canonicalOf (canonicalOf "a\x7bb:/ *\x7d") ≠ canonicalOf "a\x7bb:/ *\x7d" := by
  decide +kernel

/-- The canonical text of a plain style sheet declares the same. -/
theorem declared_canonicalOf {css : String} {s : Plain.Sheet}
    (plain : (sheetOf css).SameShape s.node) (room : s.forest.depth ≤ Token.maxDepth) :
    (sheetOf (canonicalOf css)).declared = (sheetOf css).declared :=
  (canonicalOf_eq_of_sameShape (sameShape_canonicalOf plain room)).2

/-- A declaration and a nested rule after it. -/
theorem declared_canonicalOf_nested :
    (sheetOf (canonicalOf "a \x7b b : c ; & > d \x7b e : f ! important ; \x7d \x7d")).declared =
      (sheetOf "a \x7b b : c ; & > d \x7b e : f ! important ; \x7d \x7d").declared :=
  declared_canonicalOf
    (s := .rule (.last (.last (.typed (.named ⟨['a'], by decide⟩) .none)))
      (.declaration ⟨⟨['b'], by decide⟩, false, .some (.identifier ⟨['c'], by decide⟩) .done⟩
        (.rule
          (.last (.join (.untyped .nesting .none) .child
            (.last (.typed (.named ⟨['d'], by decide⟩) .none))))
          (.declaration
            ⟨⟨['e'], by decide⟩, true, .some (.identifier ⟨['f'], by decide⟩) .done⟩ .nil)
          .nil))
      .nil)
    (by decide +kernel) (by decide)

/-- Without a semicolon after it, raw text takes in the declaration that follows. -/
theorem declared_after_raw :
    (sheetOf (canonicalOf "a\x7bcolor red;b:c\x7d")).declared ≠
      (sheetOf "a\x7bcolor red;b:c\x7d").declared := by
  decide +kernel

/-- The canonical text of a plain style sheet is read without errors, as the same tree. -/
theorem errorsOf_canonicalOf {css : String} {s : Plain.Sheet}
    (plain : (sheetOf css).SameShape s.node) (room : s.forest.depth ≤ Token.maxDepth) :
    errorsOf (canonicalOf css) = [] ∧ (sheetOf (canonicalOf css)).SameShape (sheetOf css) := by
  refine ⟨?_, sameShape_canonicalOf plain room⟩
  rw [canonicalOf_eq_text plain]
  exact congrArg Parsed.errors (s.read_text room false)

/-- Comments and white space around a combinator and a slash. -/
theorem errorsOf_canonicalOf_comments :
    errorsOf (canonicalOf "a /**/ + b \x7b c : d /**/ / e \x7d") = [] ∧
      (sheetOf (canonicalOf "a /**/ + b \x7b c : d /**/ / e \x7d")).SameShape
        (sheetOf "a /**/ + b \x7b c : d /**/ / e \x7d") :=
  errorsOf_canonicalOf
    (s := .rule
      (.last (.join (.typed (.named ⟨['a'], by decide⟩) .none) .next
        (.last (.typed (.named ⟨['b'], by decide⟩) .none))))
      (.declaration ⟨⟨['c'], by decide⟩, false,
        .some (.identifier ⟨['d'], by decide⟩)
          (.next .slash (.identifier ⟨['e'], by decide⟩) .done)⟩ .nil)
      .nil)
    (by decide +kernel) (by decide)

/-- Without what stands between them, two operators open a comment that takes in the end of the
block, and two names become one. -/
theorem errorsOf_canonicalOf_glued :
    (errorsOf "a\x7bb:/ *\x7d" = [] ∧ errorsOf (canonicalOf "a\x7bb:/ *\x7d") ≠ []) ∧
      errorsOf "a\x7bb:c/**/d\x7d" = [] ∧
        ¬(sheetOf (canonicalOf "a\x7bb:c/**/d\x7d")).SameShape (sheetOf "a\x7bb:c/**/d\x7d") := by
  decide +kernel

end Stylesheet
