/-!
# Syntax errors

Reading never fails: what is wrong is noted with the byte offset at which it was found, in the
order of discovery, and the tree keeps the text as raw nodes.
-/

namespace Stylesheet

/-- What can be wrong with a text. -/
inductive Fault where
  | nestingTooDeep
  | atRuleExpected
  | ruleExpected
  | selectorExpected
  | identifierExpected
  | colonExpected
  | leftCurlyExpected
  | semicolonOrBlockExpected
  | matcherExpected
  | attributeValueExpected
  | closingParenExpected
  | closingSquareExpected
  | closingCurlyExpected
  | unexpectedInput
  | unterminatedString
  | badUrl
  deriving DecidableEq, Repr, Inhabited

/-- The wording of a fault. -/
def Fault.message : Fault → String
  | nestingTooDeep => "Nesting is too deep"
  | atRuleExpected => "At-rule is expected"
  | ruleExpected => "Rule is expected"
  | selectorExpected => "Selector is expected"
  | identifierExpected => "Identifier is expected"
  | colonExpected => "Colon is expected"
  | leftCurlyExpected => "Left curly bracket is expected"
  | semicolonOrBlockExpected => "Semicolon or block is expected"
  | matcherExpected => "Attribute selector (=, ~=, ^=, $=, *=, |=) is expected"
  | attributeValueExpected => "Attribute value is expected"
  | closingParenExpected => ") is expected"
  | closingSquareExpected => "] is expected"
  | closingCurlyExpected => "\x7d is expected"
  | unexpectedInput => "Unexpected input"
  | unterminatedString => "Unterminated string"
  | badUrl => "Bad url"

/-- A fault and the byte offset at which it was found. -/
structure SyntaxError where
  fault : Fault
  offset : Nat
  deriving DecidableEq, Repr, Inhabited

/-- Something read, with the errors found on the way. -/
structure Parsed (α : Type) where
  value : α
  errors : List SyntaxError := []
  deriving Repr, Inhabited

namespace Parsed

variable {α β : Type}

/-- Change what was read. -/
def map (f : α → β) (p : Parsed α) : Parsed β := ⟨f p.value, p.errors⟩

/-- Add errors that were found later. -/
def also (p : Parsed α) (errors : List SyntaxError) : Parsed α := ⟨p.value, p.errors ++ errors⟩

/-- One item in front of the others. -/
def cons (p : Parsed α) (rest : Parsed (List α)) : Parsed (List α) :=
  ⟨p.value :: rest.value, p.errors ++ rest.errors⟩

@[simp] theorem map_value (f : α → β) (p : Parsed α) : (p.map f).value = f p.value := rfl
@[simp] theorem map_errors (f : α → β) (p : Parsed α) : (p.map f).errors = p.errors := rfl
@[simp] theorem also_value (p : Parsed α) (es : List SyntaxError) : (p.also es).value = p.value := rfl
@[simp] theorem also_errors (p : Parsed α) (es : List SyntaxError) :
    (p.also es).errors = p.errors ++ es := rfl
@[simp] theorem cons_value (p : Parsed α) (rest : Parsed (List α)) :
    (p.cons rest).value = p.value :: rest.value := rfl
@[simp] theorem cons_errors (p : Parsed α) (rest : Parsed (List α)) :
    (p.cons rest).errors = p.errors ++ rest.errors := rfl

end Parsed

end Stylesheet
