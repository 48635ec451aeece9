import Stylesheet.Budget
import Stylesheet.Fault
import Stylesheet.Span
import Stylesheet.Text.Class
import Stylesheet.Text.Position

/-!
# Failures and reported errors

A call fails for one of four reasons and then has no other result. A syntax error is not a failure:
it is reported next to the tree, with its place as a span and as a line and a column.
-/

namespace Stylesheet

/-- Why a call to read, tokenize or decode has no result. -/
inductive Failure where
  | budget (e : BudgetExceeded)
  | unknownContext (name : String)
  | unsupportedEncoding (label : String)
  | readFailed (reason : String)
  deriving DecidableEq, Repr, Inhabited

/-- The wording of a failure. -/
def Failure.message : Failure → String
  | budget e => e.message
  | unknownContext name => "unsupported parse context: " ++ name
  | unsupportedEncoding label => "unsupported encoding: " ++ label
  | readFailed reason => "stream read failed: " ++ reason

/-- Pass an exceeded budget on as a failure. -/
def Failure.ofBudget {α : Type} : Except BudgetExceeded α → Except Failure α
  | .ok a => .ok a
  | .error e => .error (.budget e)

theorem Failure.ofBudget_eq_ok_iff {α : Type} {x : Except BudgetExceeded α} {a : α} :
    Failure.ofBudget x = .ok a ↔ x = .ok a := by
  cases x <;> simp [Failure.ofBudget]

theorem Failure.ofBudget_eq_error_iff {α : Type} {x : Except BudgetExceeded α} {f : Failure} :
    Failure.ofBudget x = .error f ↔ ∃ e, f = .budget e ∧ x = .error e := by
  cases x with
  | ok a => simp [Failure.ofBudget]
  | error e =>
    simp only [Failure.ofBudget, Except.error.injEq]
    exact ⟨fun h => ⟨e, h.symm, rfl⟩, fun ⟨_, h, same⟩ => by rw [h, same]⟩

/-- A syntax error as it is reported. -/
structure ParseError where
  fault : Fault
  /-- The byte at which the error was found, or the end of the text. -/
  span : Span
  position : Text.Position
  deriving DecidableEq, Repr, Inhabited

namespace ParseError

/-- The code that every syntax error is reported with. -/
def code : String := "PARSER_ERROR"

/-- The words of a message, in lower case and joined by hyphens. ASCII letters and digits make
words; a message without any gets a general name. -/
def idOf (message : String) : String :=
  let cs := message.toList.map fun c =>
    if c.isAlpha || c.isDigit then c.toLower else ' '
  let slug := "-".intercalate (Text.words (String.ofList cs))
  if slug.isEmpty then "css-syntax-error" else slug

/-- Where the recovery from syntax errors is defined. It is the same for all of them. -/
def reference (_id : String) : String := "https://drafts.csswg.org/css-syntax/#error-handling"

/-- The wording of an error. -/
def message (e : ParseError) : String := e.fault.message

/-- The identifier of an error. -/
def id (e : ParseError) : String := idOf e.message

/-- Locate a syntax error in the text it was found in. -/
def ofSyntax (index : Text.LineIndex) (e : SyntaxError) : ParseError :=
  ⟨e.fault, ⟨min e.offset index.size, min (e.offset + 1) index.size⟩, index.position e.offset⟩

end ParseError

end Stylesheet
