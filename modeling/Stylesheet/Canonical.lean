import Stylesheet.Node.Rebuild
import Stylesheet.Text.Class

/-!
# Canonical text

`Node.generate` writes a tree with no optional white space. Semicolons stand only after a
declaration that something follows and after an at-rule without a block; strings are quoted with
`"`, and urls are written without quotes.

`Node.canonical` is what the library calls the text of a tree: before generating, it puts a space in
front of every custom property value that does not start with white space.
-/

namespace Stylesheet

namespace Canonical

open Text

/-- A character as a hexadecimal escape with the space that ends it. -/
def hexEscape (c : Char) : List Char := '\\' :: (Nat.toDigits 16 c.toNat ++ [' '])

/-- A character inside a quoted string. -/
def quotedChar (c : Char) : List Char :=
  if c = '"' || c = '\\' then ['\\', c] else if isControl c then hexEscape c else [c]

/-- A string in double quotes. -/
def quoted (value : String) : String :=
  String.ofList ('"' :: (value.toList.flatMap quotedChar ++ ['"']))

/-- A character inside an unquoted url. -/
def urlChar (c : Char) : List Char :=
  if ['(', ')', '"', '\'', '\\', ' '].contains c then ['\\', c]
  else if isControl c || isWhiteSpace c then hexEscape c
  else [c]

/-- A url without quotes. -/
def url (value : String) : String :=
  String.ofList (['u', 'r', 'l', '('] ++ value.toList.flatMap urlChar ++ [')'])

/-- The value of an attribute selector as written. -/
def attributeValue : AttributeValue → String
  | .identifier text => text
  | .string text => quoted text

/-- An attribute selector. A matcher and a value are written only together, and flags only after
them. -/
def attributeSelector (name : String) (matcher : Option String) (value : Option AttributeValue)
    (flags : Option String) : String :=
  let test := match matcher, value with
    | some m, some v => m ++ attributeValue v ++ (flags.map (" " ++ ·)).getD ""
    | _, _ => ""
  "[" ++ name ++ test ++ "]"

/-- The text of a node's child, and the kind of the child. -/
abbrev Piece := NodeKind × String

/-- Children one after the other. -/
def plain (pieces : List Piece) : String := String.join (pieces.map (·.2))

/-- Children with commas between them. -/
def commaSeparated (pieces : List Piece) : String := ",".intercalate (pieces.map (·.2))

/-- Block items, with a semicolon after each declaration that something follows. -/
def items : List Piece → String
  | [] => ""
  | [p] => p.2
  | p :: ps => p.2 ++ (if p.1 = .declaration then ";" else "") ++ items ps

/-- An at-rule: its preludes after a space each, its blocks, or else a semicolon. -/
def atRule (name : String) (pieces : List Piece) : String :=
  let body := String.join <| pieces.map fun p => if p.1 = .block then p.2 else " " ++ p.2
  let finish := if pieces.any fun p => p.1 = .block then "" else ";"
  "@" ++ name ++ body ++ finish

/-- A pseudo selector after its colons; an argument stands in parentheses. -/
def pseudo (name : String) (pieces : List Piece) : String :=
  if pieces.isEmpty then name else name ++ "(" ++ plain pieces ++ ")"

/-- The text of a node from its kind, its detail and the texts of its children. -/
def compose (kind : NodeKind) (detail : Detail) (pieces : List Piece) : String :=
  let name := detail.label?.getD ""
  let value := detail.value?.getD ""
  match kind with
  | .styleSheet | .rule | .atrulePrelude | .selector | .mediaQuery | .condition | .value =>
    plain pieces
  | .declarationList => items pieces
  | .block => "\x7b" ++ items pieces ++ "\x7d"
  | .atrule => atRule name pieces
  | .selectorList | .mediaQueryList => commaSeparated pieces
  | .typeSelector | .identifier | .combinator => name
  | .idSelector => "#" ++ name
  | .classSelector => "." ++ name
  | .attributeSelector =>
    match detail with
    | .attr name matcher value flags => attributeSelector name matcher value flags
    | _ => ""
  | .pseudoClassSelector => ":" ++ pseudo name pieces
  | .pseudoElementSelector => "::" ++ pseudo name pieces
  | .nestingSelector => "&"
  | .declaration =>
    match detail with
    | .declaration property important =>
      property ++ ":" ++ plain pieces ++ (if important then "!important" else "")
    | _ => ""
  | .number | .operator | .raw => value
  | .whiteSpace => " "
  | .percentage => value ++ "%"
  | .dimension =>
    match detail with
    | .dimension value unit => value ++ unit
    | _ => ""
  | .hash => "#" ++ value
  | .string => quoted value
  | .url => url value
  | .function => name ++ "(" ++ plain pieces ++ ")"
  | .parentheses => "(" ++ plain pieces ++ ")"
  | .brackets => "[" ++ plain pieces ++ "]"

end Canonical

namespace Node

variable {α : Type}

mutual

/-- Write a tree. -/
def generate : Node α → String
  | ⟨kind, detail, _, children⟩ => Canonical.compose kind detail (generateAll children)

/-- Write the trees of a list, each with its kind. -/
def generateAll : List (Node α) → List Canonical.Piece
  | [] => []
  | n :: ns => (n.kind, generate n) :: generateAll ns

end

/-- Put a space in front of a raw value that starts with no white space. -/
def padRaw (n : Node α) : Node α :=
  match n.kind, n.detail with
  | .raw, .value text =>
    match text.toList with
    | [] => n
    | c :: cs =>
      if Text.isWhiteSpace c then n
      else { n with detail := .value (String.ofList (' ' :: c :: cs)) }
  | _, _ => n

mutual

/-- Pad the values of all custom properties in a tree. -/
def padCustom : Node α → Node α
  | ⟨kind, detail, note, children⟩ =>
    ⟨kind, detail, note,
      if detail.declaresCustom then (padCustomAll children).map padRaw else padCustomAll children⟩

/-- Pad the values of all custom properties in a list of trees. -/
def padCustomAll : List (Node α) → List (Node α)
  | [] => []
  | n :: ns => padCustom n :: padCustomAll ns

end

/-- The canonical text of a tree or of any node in it. Notes do not show in it. -/
def canonical (n : Node α) : String := n.unmarked.padCustom.generate

theorem generateAll_eq_map (ns : List (Node α)) :
    generateAll ns = ns.map fun n => (n.kind, n.generate) := by
  induction ns with
  | nil => rfl
  | cons n ns ih => simp [generateAll, ih]

theorem padCustomAll_eq_map (ns : List (Node α)) : padCustomAll ns = ns.map padCustom := by
  induction ns with
  | nil => rfl
  | cons n ns ih => simp [padCustomAll, ih]

end Node

end Stylesheet
