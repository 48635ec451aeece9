import Stylesheet.Document
import Stylesheet.Text.Lowercase

/-!
# Selectors

A selector is compiled from its syntax tree into compounds with combinators between them. What cannot
be matched is noted and left out, so that a caller may skip the selector or refuse it.
-/

namespace Stylesheet

/-- How an attribute's value is compared. -/
inductive Matcher where
  | equals | includes | dashMatch | startsWith | endsWith | contains
  deriving DecidableEq, Repr, Inhabited

namespace Matcher

/-- All matchers. -/
def all : List Matcher := [equals, includes, dashMatch, startsWith, endsWith, contains]

/-- The operator that is written for a matcher. -/
def operator : Matcher → String
  | equals => "="
  | includes => "~="
  | dashMatch => "|="
  | startsWith => "^="
  | endsWith => "$="
  | contains => "*="

/-- The matcher that an operator is written for. -/
def ofOperator? (op : String) : Option Matcher := all.find? fun m => m.operator = op

end Matcher

/-- A test of one element. Names of types and attributes are in lower case. -/
inductive SimpleSelector where
  | type (name : String)
  /-- `*`, which every element passes. -/
  | universal
  | id (value : String)
  | className (value : String)
  /-- Without a matcher the attribute only has to be there. -/
  | attr (name : String) (matcher : Option Matcher) (value : Option String)
      (flags : Option String)
  deriving DecidableEq, Repr, Inhabited

/-- What a compound's element is to the element of the next compound. -/
inductive Combinator where
  /-- An ancestor. -/
  | descendant
  /-- The parent. -/
  | child
  deriving DecidableEq, Repr, Inhabited

/-- The combinator as written. -/
def Combinator.symbol : Combinator → String
  | descendant => " "
  | child => ">"

/-- Tests of one element, all of which it has to pass. -/
abbrev Compound := List SimpleSelector

/-- Why a part of a selector cannot be matched. -/
inductive Unsupported where
  | missingName
  | matcher (operator : String)
  | simpleSelector
  | combinator (symbol : String)
  | nothingBeforeCombinator
  | nothingAfterCombinator
  | combinatorCount
  | emptySelector
  deriving DecidableEq, Repr, Inhabited

/-- A part of a selector that cannot be matched. -/
structure UnsupportedPart where
  /-- Position of the selector in its list. -/
  index : Nat
  kind : NodeKind
  cause : Unsupported
  deriving DecidableEq, Repr, Inhabited

namespace UnsupportedPart

/-- What the name of a simple selector is called. -/
def nameOf : NodeKind → String
  | .typeSelector => "type name"
  | .idSelector => "id value"
  | .classSelector => "class value"
  | _ => "attribute name"

/-- The wording of the cause. -/
def detail (p : UnsupportedPart) : String :=
  match p.cause with
  | .missingName => "missing " ++ nameOf p.kind
  | .matcher op => "unsupported matcher " ++ op
  | .simpleSelector => "unsupported simple selector"
  | .combinator symbol => "unsupported combinator " ++ symbol
  | .nothingBeforeCombinator => "combinator without left compound"
  | .nothingAfterCombinator => "selector ends with combinator"
  | .combinatorCount => "invalid combinator count"
  | .emptySelector => "empty selector"

/-- The part and the cause in words. -/
def message (p : UnsupportedPart) : String := p.kind.name ++ " " ++ p.detail

end UnsupportedPart

/-- A compiled selector. -/
structure Selector where
  /-- Position in its list. -/
  index : Nat
  compounds : List Compound
  /-- The combinator at a position stands between the compounds at that position and the next. -/
  combinators : List Combinator
  unsupported : List UnsupportedPart
  deriving DecidableEq, Repr, Inhabited

/-- Tells whether all of a selector can be matched. -/
def Selector.supported (s : Selector) : Bool := s.unsupported.isEmpty

/-- A compiled list of selectors. -/
structure SelectorList where
  source : String
  errors : List ParseError
  selectors : List Selector
  deriving DecidableEq, Repr, Inhabited

namespace SelectorList

/-- What cannot be matched, selector by selector. -/
def unsupported (l : SelectorList) : List UnsupportedPart := l.selectors.flatMap Selector.unsupported

/-- Tells whether the list was read without errors and can be matched as a whole. -/
def supported (l : SelectorList) : Bool :=
  l.errors.isEmpty && !l.selectors.isEmpty && l.unsupported.isEmpty

end SelectorList

/-! ### Compiling -/

namespace SimpleSelector

variable {α : Type}

/-- A simple selector that has only a name. -/
def ofName (kind : NodeKind) (name : String) : Except Unsupported SimpleSelector :=
  match kind with
  | .typeSelector =>
    if name.isEmpty then .error .missingName
    else .ok (if name = "*" then universal else type (Text.lower name))
  | .idSelector => if name.isEmpty then .error .missingName else .ok (id name)
  | .classSelector => if name.isEmpty then .error .missingName else .ok (className name)
  | .attributeSelector => .error .missingName
  | _ => .error .simpleSelector

/-- The simple selector that a node stands for. -/
def ofNode (n : Node α) : Except Unsupported SimpleSelector :=
  match n.kind, n.detail with
  | .attributeSelector, .attr name op value flags =>
    if name.isEmpty then .error .missingName
    else
      match op with
      | none => .ok (attr (Text.lower name) none (value.map AttributeValue.text) flags)
      | some op =>
        match Matcher.ofOperator? op with
        | some m => .ok (attr (Text.lower name) (some m) (value.map AttributeValue.text) flags)
        | none => .error (.matcher op)
  | kind, detail => ofName kind (detail.name?.getD "")

end SimpleSelector

namespace Selector

variable {α : Type}

/-- A selector that has been compiled as far as some child. -/
structure Partial where
  compounds : List Compound := []
  combinators : List Combinator := []
  /-- The tests of the compound that is being read. -/
  current : Compound := []
  unsupported : List (NodeKind × Unsupported) := []
  deriving DecidableEq, Repr, Inhabited

namespace Partial

/-- Note a part that cannot be matched. -/
def note (p : Partial) (kind : NodeKind) (cause : Unsupported) : Partial :=
  { p with unsupported := p.unsupported ++ [(kind, cause)] }

/-- A combinator ends the compound before it. -/
def endCompound (p : Partial) (c : Combinator) : Partial :=
  { p with
    compounds := p.compounds ++ [p.current]
    combinators := p.combinators ++ [c]
    current := [] }

/-- Read a combinator as written. One that cannot be matched counts as a blank. -/
def combine (p : Partial) (symbol : String) : Partial :=
  if p.current.isEmpty then p.note .combinator .nothingBeforeCombinator
  else
    match Text.trim symbol with
    | ">" => p.endCompound .child
    | "" => p.endCompound .descendant
    | other => (p.endCompound .descendant).note .combinator (.combinator other)

/-- Read a child of a selector node. -/
def read (p : Partial) (n : Node α) : Partial :=
  if n.kind = .combinator then p.combine (n.detail.name?.getD "")
  else
    match SimpleSelector.ofNode n with
    | .ok s => { p with current := p.current ++ [s] }
    | .error cause => p.note n.kind cause

/-- The last compound ends, and the whole must have a compound more than combinators. -/
def finish (p : Partial) : Partial :=
  if !p.current.isEmpty then { p with compounds := p.compounds ++ [p.current], current := [] }
  else if p.compounds.isEmpty then p.note .selector .emptySelector
  else (p.note .combinator .nothingAfterCombinator).note .selector .combinatorCount

end Partial

/-- Compile a selector node that stands at a position in its list. -/
def ofNode (index : Nat) (n : Node α) : Selector :=
  let p := (n.children.foldl Partial.read {}).finish
  ⟨index, p.compounds, p.combinators,
    p.unsupported.map fun (kind, cause) => ⟨index, kind, cause⟩⟩

end Selector

namespace SelectorList

variable {α : Type}

/-- Compile the selectors of a list node that was read from a text. -/
def ofNode (source : String) (n : Node α) (errors : List ParseError) : SelectorList :=
  ⟨source, errors, (n.children.filter fun c => c.kind = .selector).mapIdx Selector.ofNode⟩

/-- Read and compile a text. -/
def ofText (source : String) : SelectorList :=
  let tree := Document.treeOf false .selectorList (tokenize source)
  ofNode source tree.value (Document.locate source tree.errors)

end SelectorList

end Stylesheet
