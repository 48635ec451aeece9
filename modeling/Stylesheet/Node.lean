import Stylesheet.Text.Case

/-!
# Syntax trees

A node has a kind, a scalar detail, a note and children. The note is what a stage of processing
knows about the node beyond its shape: where it was read, or its identity and span. Trees that were
written by hand or stripped carry no note, so functions on shapes work for all of them.
-/

namespace Stylesheet

/-- The kinds of syntax nodes. -/
inductive NodeKind where
  | styleSheet | atrule | atrulePrelude | rule | selectorList | selector | typeSelector | idSelector
  | classSelector | attributeSelector | pseudoClassSelector | pseudoElementSelector
  | nestingSelector | combinator | block | declarationList | declaration | value | identifier
  | number | percentage | dimension | string | url | hash | function | operator | parentheses
  | brackets | whiteSpace | raw | mediaQueryList | mediaQuery | condition
  deriving DecidableEq, Repr, Inhabited

namespace NodeKind

/-- All kinds. -/
def all : List NodeKind :=
  [styleSheet, atrule, atrulePrelude, rule, selectorList, selector, typeSelector, idSelector,
    classSelector, attributeSelector, pseudoClassSelector, pseudoElementSelector, nestingSelector,
    combinator, block, declarationList, declaration, value, identifier, number, percentage,
    dimension, string, url, hash, function, operator, parentheses, brackets, whiteSpace, raw,
    mediaQueryList, mediaQuery, condition]

/-- The name a kind is shown by. -/
def name : NodeKind → String
  | styleSheet => "StyleSheet"
  | atrule => "Atrule"
  | atrulePrelude => "AtrulePrelude"
  | rule => "Rule"
  | selectorList => "SelectorList"
  | selector => "Selector"
  | typeSelector => "TypeSelector"
  | idSelector => "IdSelector"
  | classSelector => "ClassSelector"
  | attributeSelector => "AttributeSelector"
  | pseudoClassSelector => "PseudoClassSelector"
  | pseudoElementSelector => "PseudoElementSelector"
  | nestingSelector => "NestingSelector"
  | combinator => "Combinator"
  | block => "Block"
  | declarationList => "DeclarationList"
  | declaration => "Declaration"
  | value => "Value"
  | identifier => "Identifier"
  | number => "Number"
  | percentage => "Percentage"
  | dimension => "Dimension"
  | string => "String"
  | url => "Url"
  | hash => "Hash"
  | function => "Function"
  | operator => "Operator"
  | parentheses => "Parentheses"
  | brackets => "Brackets"
  | whiteSpace => "WhiteSpace"
  | raw => "Raw"
  | mediaQueryList => "MediaQueryList"
  | mediaQuery => "MediaQuery"
  | condition => "Condition"

/-- The kind with a given name, whatever the case of its ASCII letters. -/
def ofName? (name : String) : Option NodeKind := all.find? fun k => Text.sameName k.name name

/-- The kinds that make up compound selectors. -/
def isSimpleSelector : NodeKind → Bool
  | typeSelector | idSelector | classSelector | attributeSelector | pseudoClassSelector
  | pseudoElementSelector | nestingSelector => true
  | _ => false

end NodeKind

/-- The value of an attribute selector. A string is quoted when written, an identifier is not. -/
inductive AttributeValue where
  | identifier (text : String)
  | string (text : String)
  deriving DecidableEq, Repr, Inhabited

/-- The value itself, however it is written. -/
def AttributeValue.text : AttributeValue → String
  | .identifier text | .string text => text

/-- Custom properties have names that start with two hyphens. -/
def isCustomProperty (name : String) : Bool := ['-', '-'].isPrefixOf name.toList

/-- The scalar part of a node. -/
inductive Detail where
  | none
  /-- Identifiers, functions, at-rules, combinators and most selectors. -/
  | name (name : String)
  /-- Numbers, percentages without `%`, hashes without `#`, strings and urls without escapes,
  operators, white space and raw text. -/
  | value (value : String)
  | dimension (value unit : String)
  | declaration (property : String) (important : Bool)
  | attr (name : String) (matcher : Option String) (value : Option AttributeValue)
      (flags : Option String)
  deriving DecidableEq, Repr, Inhabited

namespace Detail

/-- The name of a named node; a declaration has a property instead. -/
def name? : Detail → Option String
  | name n | attr n .. => some n
  | _ => Option.none

/-- The property of a declaration. -/
def property? : Detail → Option String
  | declaration p _ => some p
  | _ => Option.none

/-- The name or the property. -/
def label? (d : Detail) : Option String := d.name? <|> d.property?

/-- The value of a node that has one, without the unit of a dimension. -/
def value? : Detail → Option String
  | value v | dimension v _ => some v
  | _ => Option.none

/-- Tells whether this declares a custom property. -/
def declaresCustom (d : Detail) : Bool := d.property?.any isCustomProperty

/-- Tells whether this is a declaration marked as important. -/
def important : Detail → Bool
  | declaration _ i => i
  | _ => false

end Detail

/-- A syntax tree with a note of type `α` on every node. -/
structure Node (α : Type) where
  kind : NodeKind
  detail : Detail
  note : α
  children : List (Node α)
  deriving Repr, Inhabited

namespace Node

variable {α β : Type}

mutual

/-- Change every note, keeping the shape. -/
def map (f : α → β) : Node α → Node β
  | ⟨kind, detail, note, children⟩ => ⟨kind, detail, f note, mapAll f children⟩

/-- Change every note of every tree in a list. -/
def mapAll (f : α → β) : List (Node α) → List (Node β)
  | [] => []
  | n :: ns => map f n :: mapAll f ns

end

mutual

/-- Number of nodes. -/
def size : Node α → Nat
  | ⟨_, _, _, children⟩ => 1 + sizeAll children

/-- Number of nodes in a list of trees. -/
def sizeAll : List (Node α) → Nat
  | [] => 0
  | n :: ns => size n + sizeAll ns

end

mutual

/-- Number of nodes on the longest way down; a leaf has depth one. -/
def depth : Node α → Nat
  | ⟨_, _, _, children⟩ => 1 + depthAll children

/-- The greatest depth in a list of trees. -/
def depthAll : List (Node α) → Nat
  | [] => 0
  | n :: ns => max (depth n) (depthAll ns)

end

/-- The shape of a tree, without notes. -/
def strip (n : Node α) : Node Unit := n.map fun _ => ()

/-- The first child of a kind. -/
def child? (n : Node α) (kind : NodeKind) : Option (Node α) :=
  n.children.find? fun c => c.kind = kind

/-- Tells whether the node is the operator `op`. -/
def isOperator (n : Node α) (op : String) : Bool :=
  n.kind = .operator && n.detail.value? = some op

theorem mapAll_eq_map (f : α → β) (ns : List (Node α)) : mapAll f ns = ns.map (map f) := by
  induction ns with
  | nil => rfl
  | cons n ns ih => simp [mapAll, ih]

mutual

theorem map_map {γ : Type} (f : α → β) (g : β → γ) : ∀ n : Node α,
    (n.map f).map g = n.map fun a => g (f a)
  | ⟨_, _, _, children⟩ => by rw [map, map, map, mapAll_mapAll f g children]

theorem mapAll_mapAll {γ : Type} (f : α → β) (g : β → γ) : ∀ ns : List (Node α),
    mapAll g (mapAll f ns) = mapAll (fun a => g (f a)) ns
  | [] => rfl
  | n :: ns => by rw [mapAll, mapAll, mapAll, map_map f g n, mapAll_mapAll f g ns]

end

@[simp] theorem map_kind (f : α → β) (n : Node α) : (n.map f).kind = n.kind := by
  cases n; rfl

@[simp] theorem map_detail (f : α → β) (n : Node α) : (n.map f).detail = n.detail := by
  cases n; rfl

@[simp] theorem map_note (f : α → β) (n : Node α) : (n.map f).note = f n.note := by
  cases n; rfl

@[simp] theorem map_children (f : α → β) (n : Node α) :
    (n.map f).children = n.children.map (map f) := by
  cases n; simp [map, mapAll_eq_map]

mutual

theorem size_map (f : α → β) : ∀ n : Node α, (n.map f).size = n.size
  | ⟨_, _, _, children⟩ => by rw [map, size, size, sizeAll_mapAll f children]

theorem sizeAll_mapAll (f : α → β) : ∀ ns : List (Node α),
    sizeAll (mapAll f ns) = sizeAll ns
  | [] => rfl
  | n :: ns => by rw [mapAll, sizeAll, sizeAll, size_map f n, sizeAll_mapAll f ns]

end

mutual

theorem depth_map (f : α → β) : ∀ n : Node α, (n.map f).depth = n.depth
  | ⟨_, _, _, children⟩ => by rw [map, depth, depth, depthAll_mapAll f children]

theorem depthAll_mapAll (f : α → β) : ∀ ns : List (Node α),
    depthAll (mapAll f ns) = depthAll ns
  | [] => rfl
  | n :: ns => by rw [mapAll, depthAll, depthAll, depth_map f n, depthAll_mapAll f ns]

end

theorem size_pos (n : Node α) : 0 < n.size := by
  cases n; exact Nat.add_pos_left Nat.one_pos _

end Node

end Stylesheet
