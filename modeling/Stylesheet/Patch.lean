import Stylesheet.Document
import Stylesheet.Edit
import Stylesheet.Text.Slice

/-!
# Patches

A patch turns a set of edits into steps that rebuild the text from front to back: slices of the old
text are copied and new text is put in between. Planning reads the text once, resolves each edit to
the range of text that it replaces and refuses ranges that overlap, as well as two insertions at one
offset, whose order would be a guess.

Replaying a plan checks that it fits the text, since plans may come from elsewhere.
-/

namespace Stylesheet

/-- A step of rebuilding a text. -/
inductive PatchStep where
  /-- Copy a part of the old text. -/
  | slice (span : Span)
  /-- Put new text in at an offset of the old text, which all before has been dealt with. -/
  | insert (offset : Nat) (text : String)
  deriving DecidableEq, Repr, Inhabited

/-- The steps of a patch and the text that they make. -/
structure PatchPlan where
  steps : List PatchStep
  result : String
  deriving DecidableEq, Repr, Inhabited

/-- What can be wrong with a set of edits. -/
inductive EditFault where
  /-- Zero is no node's number. -/
  | invalidTarget
  | nodeNotFound
  | notFromInput
  | spanMissing
  | invalidBounds
  | overlapping
  | sharedOffset
  deriving DecidableEq, Repr, Inhabited

namespace EditFault

/-- The code that a fault is reported with. -/
def code : EditFault → String
  | invalidTarget => "INVALID_EDIT_TARGET"
  | nodeNotFound => "NODE_NOT_FOUND"
  | notFromInput => "NON_INPUT_SPAN_PROVENANCE"
  | spanMissing => "MISSING_NODE_SPAN"
  | invalidBounds | overlapping | sharedOffset => "OVERLAPPING_EDITS"

/-- What is reported beyond the code. -/
def detail? : EditFault → Option String
  | notFromInput => some "none"
  | invalidBounds => some "invalid replacement bounds"
  | sharedOffset => some "multiple insertions at one offset"
  | _ => none

end EditFault

/-- Why edits cannot be planned or a plan cannot be replayed. -/
inductive PatchFailure where
  | planning (fault : EditFault) (target : Nat)
  | parse (e : Failure)
  | invalidSlice (span : Span) (cursor size : Nat)
  | misplacedInsert (offset cursor : Nat)
  deriving DecidableEq, Repr, Inhabited

/-- The wording of a failed patch. -/
def PatchFailure.message : PatchFailure → String
  | planning fault target =>
    s!"patch planning failed: {fault.code} target={target}" ++
      (fault.detail?.map fun detail => s!" ({detail})").getD ""
  | parse e => e.message
  | invalidSlice span cursor size =>
    s!"invalid patch slice {span.start}..{span.stop} (cursor {cursor}, text length {size})"
  | misplacedInsert offset cursor => s!"invalid patch insertion at {offset} (cursor {cursor})"

/-! ### Planning -/

/-- New text for a range of the old text. -/
structure Replacement where
  /-- The number of the node whose edit this is. -/
  target : Nat
  range : Span
  text : String
  deriving DecidableEq, Repr, Inhabited

namespace Replacement

/-- The replacement that an edit of a tree asks for. -/
def resolve (root : Node Mark) (edit : Edit) : Except PatchFailure Replacement :=
  if edit.target = 0 then .error (.planning .invalidTarget edit.target)
  else
    match root.indexed? edit.target with
    | none => .error (.planning .nodeNotFound edit.target)
    | some node =>
      if node.note.provenance ≠ .input then .error (.planning .notFromInput edit.target)
      else
        match node.note.span with
        | none => .error (.planning .spanMissing edit.target)
        | some span => .ok ⟨edit.target, edit.range span, edit.css⟩

/-- Order by the start and then by the end of the range. -/
def le (a b : Replacement) : Bool :=
  a.range.start < b.range.start ||
    (a.range.start = b.range.start && a.range.stop ≤ b.range.stop)

/-- Check ordered replacements in a text of `size` bytes. `reached` is the end of those before, and
`inserted` the offset of the one right before if it replaces nothing. -/
def checkFrom (size reached : Nat) (inserted : Option Nat) :
    List Replacement → Except PatchFailure Unit
  | [] => .ok ()
  | r :: rs =>
    if !r.range.fits size then .error (.planning .invalidBounds r.target)
    else if r.range.start < reached then .error (.planning .overlapping r.target)
    else if r.range.isEmpty && inserted = some r.range.start then
      .error (.planning .sharedOffset r.target)
    else
      checkFrom size (max reached r.range.stop)
        (if r.range.isEmpty then some r.range.start else none) rs

/-- Copy what lies between `cursor` and `offset`. The last slice then ends at `offset`, so that text
can be put in there, and `copied` is where it ended before. -/
def copyTo (cursor copied offset : Nat) : List PatchStep :=
  if cursor < offset ∨ copied ≠ offset then [.slice ⟨cursor, offset⟩] else []

/-- The steps for ordered replacements in a text of `size` bytes. What lies before `cursor` has been
dealt with, and `copied` is where the last slice ended. -/
def stepsFrom (size cursor copied : Nat) : List Replacement → List PatchStep
  | [] => if cursor < size then [.slice ⟨cursor, size⟩] else []
  | r :: rs =>
    copyTo cursor copied r.range.start ++
      .insert r.range.start r.text :: stepsFrom size r.range.stop r.range.start rs

end Replacement

/-! ### Replaying -/

/-- The state of rebuilding a text: how far the old text has been dealt with, and the new text. -/
structure Rebuilt where
  cursor : Nat := 0
  output : String := ""
  deriving DecidableEq, Repr, Inhabited

namespace PatchStep

/-- Do one step of rebuilding a text. -/
def apply (text : String) (r : Rebuilt) : PatchStep → Except PatchFailure Rebuilt
  | slice span =>
    if span.start < r.cursor then .error (.invalidSlice span r.cursor text.utf8ByteSize)
    else
      match Text.slice? text span.start span.stop with
      | some copied => .ok ⟨span.stop, r.output ++ copied⟩
      | none => .error (.invalidSlice span r.cursor text.utf8ByteSize)
  | insert offset added =>
    if offset = r.cursor ∧ offset ≤ text.utf8ByteSize then .ok ⟨r.cursor, r.output ++ added⟩
    else .error (.misplacedInsert offset r.cursor)

end PatchStep

/-- The text that steps make of a text. -/
def replay (text : String) (steps : List PatchStep) : Except PatchFailure String := do
  let done ← steps.foldlM (PatchStep.apply text) {}
  .ok done.output

/-- Read a text as a style sheet whose nodes know their places. -/
def readPlaces (text : String) : Except PatchFailure Document :=
  match parse text { captureSpans := true } with
  | .ok d => .ok d
  | .error e => .error (.parse e)

/-- Plan edits of a text, whose nodes are those of the style sheet that it is. Without edits the
whole text is one slice. -/
def planEdits (text : String) (edits : List Edit) : Except PatchFailure PatchPlan := do
  if edits.isEmpty then .ok ⟨[.slice ⟨0, text.utf8ByteSize⟩], text⟩
  else
    let document ← readPlaces text
    let replacements ← edits.mapM (Replacement.resolve document.root)
    let ordered := replacements.mergeSort Replacement.le
    Replacement.checkFrom text.utf8ByteSize 0 none ordered
    let steps := Replacement.stepsFrom text.utf8ByteSize 0 0 ordered
    .ok ⟨steps, ← replay text steps⟩

/-! ### Plans as JSON -/

/-- Load a step. -/
def PatchStep.ofJson? (j : Json) : Option PatchStep := do
  guard (j.isRecord 3)
  let number (position : Nat) (name : String) : Option Nat :=
    (j.field? position name).bind Json.toNatural?
  match ← (j.field? 0 "kind").bind Json.text? with
  | "slice" => some (slice ⟨← number 1 "start", ← number 2 "end"⟩)
  | "insert" => some (insert (← number 1 "at") (← (j.field? 2 "text").bind Json.text?))
  | _ => none

/-- Load a plan. -/
def PatchPlan.ofJson? (j : Json) : Option PatchPlan := do
  guard (j.isRecord 2)
  let steps ← (j.field? 0 "steps").bind Json.items?
  some ⟨← steps.mapM PatchStep.ofJson?, ← (j.field? 1 "result").bind Json.text?⟩

end Stylesheet
