import Stylesheet.Failure
import Stylesheet.Grammar
import Stylesheet.Options
import Stylesheet.Trace
import Stylesheet.Tree

/-!
# Documents

A document is what reading a text gives: a numbered tree, the syntax errors, and a trace if one was
asked for. Reading a text fails only for its budgets, so the tree and the errors depend on the text
and the context alone, and the spans also on whether they were asked for.

Budgets are checked as soon as their measures are known: bytes, tokens, then nodes and depth. The
time is checked twice, when the tokens are there and when the tree is.
-/

namespace Stylesheet

/-- Whether a text was read as a style sheet or as a part of one. -/
inductive DocumentKind where
  | stylesheet
  | fragment
  deriving DecidableEq, Repr, Inhabited

/-- The name a kind of document is shown by. -/
def DocumentKind.name : DocumentKind → String
  | stylesheet => "stylesheet"
  | fragment => "fragment"

/-- A text that has been read. -/
structure Document where
  kind : DocumentKind
  context : Context
  root : Node Mark
  errors : List ParseError
  trace : Option (List Event)
  deriving Inhabited

namespace Document

/-- The number of the root. -/
def id (d : Document) : Nat := d.root.note.id

/-- Read tokens and number the tree. Without `spans` no node knows its place. -/
def treeOf (spans : Bool) (context : Context) (list : TokenList) : Parsed (Node Mark) :=
  (Grammar.read context list).map fun raw =>
    (raw.map fun span => if spans then some span else none).build list.size spans

theorem treeOf_eq (spans : Bool) (context : Context) (list : TokenList) :
    treeOf spans context list = (Grammar.read context list).map fun raw =>
      (raw.map fun span => if spans then some span else none).number list.size := by
  cases spans <;> simp [treeOf, Node.build_eq, Node.map_map]

/-- Locate syntax errors in the text they were found in. -/
def locate (text : String) (errors : List SyntaxError) : List ParseError :=
  errors.map (ParseError.ofSyntax (.ofString text))

/-- A text was handed in whose size is within its limit. -/
def received (budgets : Budgets) (size : Nat) : List Happening :=
  [.decode false "utf-8" .input, .budget .maxInputBytes budgets.maxInputBytes size]

/-- A text was read, its errors noted, and its measures found within their limits. -/
def finished (budgets : Budgets) (context : Context) (tokens nodes depth : Nat)
    (errors : List ParseError) : List Happening :=
  .parse context nodes errors.length ::
    (errors.map (fun e => .parseError e.id e.span) ++
      [.budget .maxTokens budgets.maxTokens tokens, .budget .maxNodes budgets.maxNodes nodes,
        .budget .maxDepth budgets.maxDepth depth])

/-- Read a text within its budgets. -/
def readWithin (text : String) (kind : DocumentKind) (context : Context) (options : ParseOptions)
    (clock : Clock := {}) : Except BudgetExceeded Document := do
  let budgets := options.budgets
  budgets.check .maxInputBytes text.utf8ByteSize
  let trace ← (Recorder.start options.trace).recordAll budgets (received budgets text.utf8ByteSize)
  let list := tokenize text
  budgets.check .maxTokens list.tokens.length
  budgets.check .maxTimeMs clock.tokens
  let trace ← trace.record budgets (.token list.tokens.length)
  let tree := treeOf options.captureSpans context list
  let metrics := tree.value.measure
  budgets.check .maxNodes metrics.nodes
  budgets.check .maxDepth metrics.maxDepth
  budgets.check .maxTimeMs clock.tree
  let errors := locate text tree.errors
  let trace ← trace.recordAll budgets
    (finished budgets context list.tokens.length metrics.nodes metrics.maxDepth errors)
  .ok ⟨kind, context, tree.value, errors, trace.finish⟩

/-- Add to the trace of a document, if it has one. -/
def extendTrace (budgets : Budgets) (d : Document) (what : List Happening) :
    Except BudgetExceeded Document := do
  let trace ← (Recorder.resume d.trace).recordAll budgets what
  .ok { d with trace := trace.finish }

end Document

/-- Read a text as a style sheet. -/
def parse (text : String) (options : ParseOptions) (clock : Clock := {}) :
    Except Failure Document :=
  Failure.ofBudget (Document.readWithin text .stylesheet .stylesheet options clock)

/-- Read a text as a part of a style sheet. -/
def parseAs (text : String) (context : Context) (options : ParseOptions) (clock : Clock := {}) :
    Except Failure Document :=
  Failure.ofBudget (Document.readWithin text .fragment context options clock)

/-- Read a text as the part of a style sheet that a name says. -/
def parseFragment (text name : String) (options : ParseOptions) (clock : Clock := {}) :
    Except Failure Document :=
  match Context.ofName? name with
  | some context => parseAs text context options clock
  | none => .error (.unknownContext name)

/-- Tokenize a text within budgets. -/
def tokenizeWithin (text : String) (options : TokenizeOptions) (clock : Clock := {}) :
    Except Failure TokenList :=
  Failure.ofBudget do
    options.budgets.check .maxInputBytes text.utf8ByteSize
    let list := tokenize text
    options.budgets.check .maxTokens list.tokens.length
    options.budgets.check .maxTimeMs clock.tokens
    .ok list

end Stylesheet
