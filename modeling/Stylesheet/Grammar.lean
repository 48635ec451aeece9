import Stylesheet.Context
import Stylesheet.Grammar.Rule

/-!
# Reading a text

`Grammar.read` turns the tokens of a text into a tree for one of the entry points. It always
returns a tree; blocks nested too deeply are the first errors, the others follow in the order in
which they were found.
-/

namespace Stylesheet.Grammar

open Located

/-- The scope of all tokens of a text. -/
def wholeScope (list : TokenList) : Scope := ⟨list.tokens, list.size⟩

/-- The bytes of a whole text. -/
def wholeSpan (list : TokenList) : Span := ⟨0, list.size⟩

/-- Keep the rest of a scope as raw text, since something else was expected. -/
def rawRest (fault : Fault) (s : Scope) : Parsed Located × Scope :=
  (⟨raw s.trim, [⟨fault, s.start⟩]⟩, ⟨[], s.next⟩)

/-- One style rule and what follows it. Without a block the whole scope is raw text. -/
def qualifiedRule (s : Scope) : Parsed Located × Scope :=
  let item := Item.take (· = .leftCurly) s
  match item.ending with
  | .block b =>
    (styleRule s.start (rulePrelude false s.stop item.prelude)
      (withBlock b (blockItems true b.inner)), item.after)
  | _ => (⟨raw s.trim, [⟨.leftCurlyExpected, s.stop⟩]⟩, ⟨[], s.next⟩)

/-- One at-rule whose keyword is `t`, and what follows it. -/
def singleAtRule (t : Token) (rest : Scope) : Parsed Located × Scope :=
  (atRule false t rest, (Item.take endsPrelude rest).after)

/-- Anything but white space and comments after a single item is an error. -/
def noMore (item : Parsed Located × Scope) : Parsed Located :=
  let rest := item.2.trimStart
  item.1.also (if rest.tokens.isEmpty then [] else [⟨.unexpectedInput, rest.start⟩])

/-- A text that should be one at-rule. -/
def oneAtRule (s : Scope) : Parsed Located :=
  let s := s.trimStart
  noMore <| match s.tokens with
    | t :: ts =>
      if t.kind = .atKeyword then singleAtRule t ⟨ts, s.next⟩ else rawRest .atRuleExpected s
    | [] => rawRest .atRuleExpected s

/-- A text that should be one rule of either sort. -/
def oneRule (s : Scope) : Parsed Located :=
  let s := s.trimStart
  noMore <| match s.tokens with
    | t :: ts => if t.kind = .atKeyword then singleAtRule t ⟨ts, s.next⟩ else qualifiedRule s
    | [] => rawRest .ruleExpected s

/-- A text that should be one declaration; a semicolon may end it. -/
def oneDeclaration (s : Scope) : Parsed Located :=
  let s := s.trim
  let item := Item.take (· = .semicolon) s
  noMore (declaration item.prelude, item.after)

/-- Read the tokens of a text as what a context says. -/
def readScope (context : Context) (list : TokenList) : Parsed Located :=
  let whole := wholeScope list
  let s := whole.trim
  match context with
  | .stylesheet =>
    (ruleList true false false whole).map fun rules =>
      ⟨.styleSheet, .none, wholeSpan list, rules⟩
  | .atrule => oneAtRule whole
  | .rule => oneRule whole
  | .atrulePrelude => sequenceNode .atrulePrelude s
  | .mediaQueryList => mediaQueryList s
  | .mediaQuery => sequenceNode .mediaQuery s
  | .condition => sequenceNode .condition s
  | .selectorList => orRaw s (selectorList whole.stop s)
  | .selector =>
    if s.tokens.isEmpty then ⟨raw s, [⟨.selectorExpected, s.next⟩]⟩
    else orRaw s (selector whole.stop s)
  | .block =>
    (blockItems false whole).map fun items => ⟨.block, .none, wholeSpan list, items⟩
  | .declarationList =>
    (blockItems false whole).map fun items => ⟨.declarationList, .none, wholeSpan list, items⟩
  | .declaration => oneDeclaration whole
  | .value => sequenceNode .value s

/-- Read the tokens of a text, reporting first the blocks that are nested too deeply. -/
def read (context : Context) (list : TokenList) : Parsed Located :=
  let tree := readScope context list
  ⟨tree.value, (list.truncated.map fun offset => ⟨.nestingTooDeep, offset⟩) ++ tree.errors⟩

end Stylesheet.Grammar
