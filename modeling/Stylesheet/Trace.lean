import Stylesheet.Budget
import Stylesheet.Context
import Stylesheet.Json
import Stylesheet.Span

/-!
# Traces

A trace lists what a call did, in order, numbered from one. Two budgets limit it: the number of
events and the total length of their JSON texts. Both are checked after each event, so the event
that exceeds one is the last to be recorded.

A recorder may be finished and resumed from the finished trace; it then goes on as if it had never
stopped.
-/

namespace Stylesheet

/-- How the encoding of a text was found out. -/
inductive SniffSource where
  /-- There was nothing to find out, as the text was handed in. -/
  | input
  | bom
  | transport
  | charset
  | default
  deriving DecidableEq, Repr, Inhabited

/-- The name a source is shown by. -/
def SniffSource.name : SniffSource → String
  | input => "input"
  | bom => "bom"
  | transport => "transport"
  | charset => "charset"
  | default => "default"

/-- What a call did. -/
inductive Happening where
  /-- Text was handed in, or bytes were decoded after finding out their encoding. -/
  | decode (sniffed : Bool) (encoding : String) (source : SniffSource)
  | token (count : Nat)
  | parse (context : Context) (nodes errors : Nat)
  | parseError (id : String) (span : Span)
  | budget (budget : Budget) (limit : Option Nat) (actual : Nat)
  | stream (bytes : Nat)
  deriving DecidableEq, Repr, Inhabited

namespace Happening

/-- Tells whether a measure is within its limit. -/
def within (limit : Option Nat) (actual : Nat) : Bool := limit.all fun l => actual ≤ l

/-- The members that show what happened. -/
def members : Happening → List (String × Json)
  | decode sniffed encoding source =>
    [("kind", .string "decode"), ("source", .string (if sniffed then "sniff" else "input")),
      ("encoding", .string encoding), ("sniffSource", .string source.name)]
  | token count => [("kind", .string "token"), ("count", .natural count)]
  | parse context nodes errors =>
    [("kind", .string "parse"), ("context", .string context.name), ("nodeCount", .natural nodes),
      ("errorCount", .natural errors)]
  | parseError id span =>
    [("kind", .string "parseError"), ("parseErrorId", .string id),
      ("startOffset", .natural span.start), ("endOffset", .natural span.stop)]
  | budget b limit actual =>
    [("kind", .string "budget"), ("budget", .string b.name), ("limit", Json.ofOption .natural limit),
      ("actual", .natural actual),
      ("status", .string (if within limit actual then "ok" else "exceeded"))]
  | stream bytes => [("kind", .string "stream"), ("bytesRead", .natural bytes)]

end Happening

/-- A numbered entry of a trace. -/
structure Event where
  seq : Nat
  happening : Happening
  deriving DecidableEq, Repr, Inhabited

namespace Event

/-- The JSON value that shows an event. -/
def toJson (e : Event) : Json := .object (("seq", .natural e.seq) :: e.happening.members)

/-- Length of the JSON text of an event in bytes. -/
def bytes (e : Event) : Nat := e.toJson.compact.utf8ByteSize

end Event

/-- Total length of the JSON texts of events in bytes. -/
def Event.totalBytes : List Event → Nat
  | [] => 0
  | e :: es => e.bytes + totalBytes es

/-- A trace that is being recorded, or nothing if tracing is off. -/
structure Recorder where
  /-- The events so far, last first. -/
  events : Option (List Event)
  /-- Total length of their JSON texts. -/
  bytes : Nat := 0
  deriving DecidableEq, Repr, Inhabited

namespace Recorder

/-- A recorder without events. -/
def start (tracing : Bool) : Recorder := ⟨if tracing then some [] else none, 0⟩

/-- Go on with a finished trace. -/
def resume (events : Option (List Event)) : Recorder :=
  ⟨events.map List.reverse, Event.totalBytes (events.getD [])⟩

/-- The events in order. -/
def finish (r : Recorder) : Option (List Event) := r.events.map List.reverse

/-- Record what happened, within the budgets of the trace. -/
def record (budgets : Budgets) (r : Recorder) (what : Happening) :
    Except BudgetExceeded Recorder :=
  match r.events with
  | none => .ok r
  | some events => do
    let event : Event := ⟨events.length + 1, what⟩
    let bytes := r.bytes + event.bytes
    budgets.check .maxTraceEvents (events.length + 1)
    budgets.check .maxTraceBytes bytes
    .ok ⟨some (event :: events), bytes⟩

/-- Record several happenings one after the other. -/
def recordAll (budgets : Budgets) (r : Recorder) (what : List Happening) :
    Except BudgetExceeded Recorder :=
  what.foldlM (record budgets) r

end Recorder

end Stylesheet
