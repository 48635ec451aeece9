import Stylesheet.Budget
import Stylesheet.Json

/-!
# Options

Options are loaded from JSON records, whose fields go by name or by position: a record is an object
with a member for each field, or an array with the fields in order. Fields that are missing take
their defaults and members that are not known are ignored, but an array must not be longer than its
record. A field of the wrong type refuses the whole value, and so does `null` where a value is not
optional.
-/

namespace Stylesheet

namespace Json

/-- Tells whether a value can be a record with some number of fields. -/
def isRecord (fields : Nat) : Json → Bool
  | object _ => true
  | array items => items.length ≤ fields
  | _ => false

/-- The field of a record: the item of an array at a position, or else the member of an object with
a name. -/
def field? (j : Json) (position : Nat) (name : String) : Option Json :=
  match j with
  | array items => items[position]?
  | j => j.get? name

/-- Load a field with a reader, or take a default if it is missing. -/
def load {α : Type} (j : Json) (position : Nat) (name : String) (read : Json → Option α)
    (default : α) : Option α :=
  match j.field? position name with
  | some value => read value
  | none => some default

/-- Read a truth value. -/
def toBool? : Json → Option Bool
  | bool b => some b
  | _ => none

/-- Read a natural number below `2 ^ 64`. -/
def toNatural? : Json → Option Nat
  | natural n => if n < UInt64.size then some n else none
  | _ => none

/-- Read null as nothing, and anything else with a reader. -/
def orNull {α : Type} (read : Json → Option α) : Json → Option (Option α)
  | null => some none
  | j => (read j).map some

end Json

/-- Options for reading a text or bytes. -/
structure ParseOptions where
  /-- Give nodes their spans. -/
  captureSpans : Bool := false
  /-- Record a trace. -/
  trace : Bool := false
  /-- What the transport says about the encoding of bytes. -/
  transportLabel : Option String := none
  budgets : Budgets := {}
  deriving DecidableEq, Repr, Inhabited

/-- Options for tokenizing. -/
structure TokenizeOptions where
  transportLabel : Option String := none
  budgets : Budgets := {}
  deriving DecidableEq, Repr, Inhabited

/-- Options for querying a tree of elements. -/
structure QueryOptions where
  /-- Refuse selectors that are not supported. -/
  strict : Bool := false
  maxVisitedNodes : Option Nat := none
  deriving DecidableEq, Repr, Inhabited

/-- Limits on chunks of canonical text. -/
structure ChunkOptions where
  maxChars : Nat := 8192
  maxNodes : Nat := 256
  maxBytes : Option Nat := none
  deriving DecidableEq, Repr, Inhabited

/-- Options for style signals. -/
structure SignalOptions where
  /-- Keep rules whose selectors are not supported. -/
  includeUnsupported : Bool := false
  /-- Fail at the first rule whose selectors are not supported. -/
  strict : Bool := false
  budgets : Budgets := {}
  deriving DecidableEq, Repr, Inhabited

/-- Load the name of a budget: a string, or an object whose only member has that name and is null. -/
def Budget.ofJson? : Json → Option Budget
  | .string name => ofName? name
  | .object [(name, .null)] => ofName? name
  | _ => none

/-- Load budgets. -/
def Budgets.ofJson? (j : Json) : Option Budgets := do
  guard (j.isRecord 8)
  let limit (position : Nat) (b : Budget) : Option (Option Nat) :=
    j.load position b.name (Json.orNull Json.toNatural?) none
  some
    { maxInputBytes := ← limit 0 .maxInputBytes
      maxBufferedBytes := ← limit 1 .maxBufferedBytes
      maxTokens := ← limit 2 .maxTokens
      maxNodes := ← limit 3 .maxNodes
      maxDepth := ← limit 4 .maxDepth
      maxTraceEvents := ← limit 5 .maxTraceEvents
      maxTraceBytes := ← limit 6 .maxTraceBytes
      maxTimeMs := ← limit 7 .maxTimeMs }

/-- Load options for reading. Spans go by two names, of which at most one may be given. -/
def ParseOptions.ofJson? (j : Json) : Option ParseOptions := do
  guard (j.isRecord 4)
  guard !((j.get? "captureSpans").isSome && (j.get? "includeSpans").isSome)
  let spans ← (j.get? "includeSpans").elim (some false) Json.toBool?
  some
    { captureSpans := ← j.load 0 "captureSpans" Json.toBool? spans
      trace := ← j.load 1 "trace" Json.toBool? false
      transportLabel := ← j.load 2 "transportEncodingLabel" (Json.orNull Json.text?) none
      budgets := ← j.load 3 "budgets" Budgets.ofJson? {} }

/-- Load options for tokenizing. -/
def TokenizeOptions.ofJson? (j : Json) : Option TokenizeOptions := do
  guard (j.isRecord 2)
  some
    { transportLabel := ← j.load 0 "transportEncodingLabel" (Json.orNull Json.text?) none
      budgets := ← j.load 1 "budgets" Budgets.ofJson? {} }

/-- Load options for querying. -/
def QueryOptions.ofJson? (j : Json) : Option QueryOptions := do
  guard (j.isRecord 2)
  some
    { strict := ← j.load 0 "strict" Json.toBool? false
      maxVisitedNodes := ← j.load 1 "maxVisitedNodes" (Json.orNull Json.toNatural?) none }

/-- Load limits on chunks. -/
def ChunkOptions.ofJson? (j : Json) : Option ChunkOptions := do
  guard (j.isRecord 3)
  some
    { maxChars := ← j.load 0 "maxChars" Json.toNatural? 8192
      maxNodes := ← j.load 1 "maxNodes" Json.toNatural? 256
      maxBytes := ← j.load 2 "maxBytes" (Json.orNull Json.toNatural?) none }

/-- Load options for style signals. -/
def SignalOptions.ofJson? (j : Json) : Option SignalOptions := do
  guard (j.isRecord 3)
  some
    { includeUnsupported := ← j.load 0 "includeUnsupportedSelectors" Json.toBool? false
      strict := ← j.load 1 "strictSelectors" Json.toBool? false
      budgets := ← j.load 2 "budgets" Budgets.ofJson? {} }

end Stylesheet
