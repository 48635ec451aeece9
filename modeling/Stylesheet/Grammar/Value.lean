import Stylesheet.Grammar.Scope

/-!
# Component values

A value is a sequence of components: single tokens, functions and bracketed blocks. White space
between them is kept as one node where it separates two components, and dropped at both ends and
next to the operators `,`, `/` and `:`. At-rule preludes and media queries are such sequences too.
-/

namespace Stylesheet.Grammar

open Located

/-- The operators that take up the white space around them. -/
def isSeparator {α : Type} (n : Node α) : Bool :=
  n.isOperator "," || n.isOperator "/" || n.isOperator ":"

/-- The first node that is not white space is there and is no separator. -/
def continues {α : Type} (ns : List (Node α)) : Bool :=
  match ns.dropWhile fun n => n.kind = .whiteSpace with
  | n :: _ => !isSeparator n
  | [] => false

/-- Keep the first white space of each run that separates two components. The flag tells whether
a component that is no separator stands right before. -/
def tidyAfter {α : Type} (gap : Bool) : List (Node α) → List (Node α)
  | [] => []
  | n :: ns =>
    if n.kind = .whiteSpace then
      if gap && continues ns then n :: tidyAfter false ns else tidyAfter gap ns
    else n :: tidyAfter (!isSeparator n) ns

/-- Keep white space only where it separates two components. -/
def tidy {α : Type} (ns : List (Node α)) : List (Node α) := tidyAfter false ns

/-- The node of a token that opens no block. -/
def tokenNode (t : Token) : Located :=
  match t.kind with
  | .whiteSpace => leaf .whiteSpace (.value " ") t.span
  | .ident => leaf .identifier (.name t.text) t.span
  | .number => leaf .number (.value t.text) t.span
  | .percentage => leaf .percentage (.value (String.ofList t.text.toList.dropLast)) t.span
  | .dimension =>
    let (value, unit) := Token.Numeral.split t.text
    leaf .dimension (.dimension value unit) t.span
  | .string => leaf .string (.value (t.value.getD "")) t.span
  | .url => leaf .url (.value (t.value.getD "")) t.span
  | .hash => leaf .hash (.value (String.ofList t.text.toList.tail)) t.span
  | .delim | .colon | .comma | .semicolon => leaf .operator (.value t.text) t.span
  | _ => leaf .raw (.value t.text) t.span

/-- What is wrong with a token wherever it stands. -/
def tokenErrors (t : Token) : List SyntaxError :=
  match t.kind with
  | .badString => [⟨.unterminatedString, t.start⟩]
  | .badUrl => [⟨.badUrl, t.start⟩]
  | _ => []

/-- The name of a function, without the opening parenthesis. -/
def functionName (t : Token) : String := String.ofList t.text.toList.dropLast

/-- The node of a block, given what it holds. A function `url` that holds just a string is a url;
curly brackets mean nothing in a value and are kept as they are. -/
def blockNode (b : Block) (children : List Located) : Located :=
  match b.opener.kind with
  | .leftParen => ⟨.parentheses, .none, b.span, children⟩
  | .leftSquare => ⟨.brackets, .none, b.span, children⟩
  | .leftCurly => leaf .raw (.value (Token.sourceText b.tokens)) b.span
  | _ =>
    match children with
    | [⟨.string, detail, _, _⟩] =>
      if Text.sameName (functionName b.opener) "url" then
        leaf .url (.value (detail.value?.getD "")) b.span
      else ⟨.function, .name (functionName b.opener), b.span, children⟩
    | _ => ⟨.function, .name (functionName b.opener), b.span, children⟩

/-- All components of a scope. Comments leave no trace. -/
def components (s : Scope) : Parsed (List Located) :=
  match _h : s.tokens with
  | [] => ⟨[], []⟩
  | t :: ts =>
    if t.kind = .comment then components ⟨ts, s.next⟩
    else if t.kind.opensBlock then
      let b := Scope.enter t ⟨ts, s.next⟩
      let inner : Parsed (List Located) :=
        if t.kind = .leftCurly then ⟨[], []⟩ else components b.inner
      let node := blockNode b (tidy inner.value)
      Parsed.cons ⟨node, inner.errors ++ b.errors⟩ (components b.after)
    else Parsed.cons ⟨tokenNode t, tokenErrors t⟩ (components ⟨ts, s.next⟩)
termination_by s.tokens.length
decreasing_by
  all_goals
    have := Scope.enter_length t ⟨ts, s.next⟩
    simp only [_h, List.length_cons] at *
    omega

/-- The components of a scope with white space where it separates. -/
def componentSequence (s : Scope) : Parsed (List Located) := (components s).map tidy

/-- A node of a kind whose children are the components of its scope. -/
def sequenceNode (kind : NodeKind) (s : Scope) : Parsed Located :=
  (componentSequence s).map fun children => ⟨kind, .none, s.span, children⟩

/-- The media queries of a scope, separated by commas; empty ones are left out. -/
def mediaQueries (s : Scope) : Parsed (List Located) :=
  let cut := s.cut (· = .comma)
  let part := cut.1.trim
  let rest : Parsed (List Located) :=
    match _h : cut.2.tokens with
    | [] => ⟨[], []⟩
    | _ :: ts => mediaQueries ⟨ts, s.next⟩
  if part.tokens.isEmpty then rest else (sequenceNode .mediaQuery part).cons rest
termination_by s.tokens.length
decreasing_by
  have hl := s.cut_length (· = .comma)
  have hc : (s.cut (· = .comma)).2.tokens.length = ts.length + 1 := by
    rw [_h, List.length_cons]
  omega

/-- A list of media queries. -/
def mediaQueryList (s : Scope) : Parsed Located :=
  (mediaQueries s).map fun queries => ⟨.mediaQueryList, .none, s.span, queries⟩

/-- The prelude of the at-rule with a given name, read from a trimmed scope. -/
def atRulePrelude (name : String) (s : Scope) : Parsed Located :=
  let within (inner : Parsed Located) : Parsed Located :=
    inner.map fun n => ⟨.atrulePrelude, .none, s.span, [n]⟩
  match Text.lowerAscii name with
  | "media" | "custom-media" => within (mediaQueryList s)
  | "supports" | "container" => within (sequenceNode .condition s)
  | _ => sequenceNode .atrulePrelude s

end Stylesheet.Grammar
