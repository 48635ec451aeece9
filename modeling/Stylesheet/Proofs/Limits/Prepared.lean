import Stylesheet.Proofs.Limits.Reading
import Stylesheet.Proofs.Numbering

/-!
# Reading a text under other limits

Whether a text is read depends on its measures, on those of its trace and on the time. Raised limits
allow all that was allowed before, but the trace shows them, and so its length may change. If limits
are raised a text that was read is therefore read again in due time, unless its trace is now too long.
-/

namespace Stylesheet

/-! ### Trees without places -/

namespace Node

mutual

/-- The numbers of a tree do not depend on what is known about the places of its nodes. -/
theorem numberFrom_places {α : Type} (f g : α → Option Span) (size next : Nat) : ∀ n : Node α,
    ((n.map f).numberFrom size next).1.map Mark.id =
        ((n.map g).numberFrom size next).1.map Mark.id ∧
      ((n.map f).numberFrom size next).2 = ((n.map g).numberFrom size next).2
  | ⟨kind, detail, note, children⟩ => by
    obtain ⟨same, after⟩ := numberAllFrom_places f g size (Mark.nextId next) children
    rw [map, map, numberFrom, numberFrom]
    exact ⟨congrArg (Node.mk kind detail next) same, after⟩

theorem numberAllFrom_places {α : Type} (f g : α → Option Span) (size next : Nat) :
    ∀ ns : List (Node α),
      mapAll Mark.id (numberAllFrom size next (mapAll f ns)).1 =
          mapAll Mark.id (numberAllFrom size next (mapAll g ns)).1 ∧
        (numberAllFrom size next (mapAll f ns)).2 = (numberAllFrom size next (mapAll g ns)).2
  | [] => ⟨rfl, rfl⟩
  | n :: ns => by
    obtain ⟨same, after⟩ := numberFrom_places f g size next n
    obtain ⟨rest, last⟩ :=
      numberAllFrom_places f g size ((n.map g).numberFrom size next).2 ns
    rw [mapAll, mapAll, numberAllFrom, numberAllFrom]
    dsimp only
    rw [after, mapAll, mapAll, same, rest, last]
    exact ⟨rfl, rfl⟩

end

end Node

/-- Spans are all that a tree with spans has over one without. -/
theorem Document.treeOf_ids (spans spans' : Bool) (context : Context) (list : TokenList) :
    (treeOf spans context list).value.map Mark.id =
      (treeOf spans' context list).value.map Mark.id := by
  rw [treeOf_eq, treeOf_eq]
  exact (Node.numberFrom_places _ _ list.size 1 _).1

/-! ### Traces that show other limits -/

/-- What happened, with the limit of a measure as the budgets have it. -/
def Happening.showing (budgets : Budgets) : Happening → Happening
  | .budget b _ actual => .budget b (budgets.limit b) actual
  | what => what

/-- An event with the limit of a measure as the budgets have it. -/
def Event.showing (budgets : Budgets) (e : Event) : Event :=
  { e with happening := e.happening.showing budgets }

/-- A document whose trace shows the limits of the budgets. -/
def Document.showing (budgets : Budgets) (d : Document) : Document :=
  { d with trace := d.trace.map (List.map (Event.showing budgets)) }

theorem Happening.showing_showing (budgets budgets' : Budgets) (what : Happening) :
    (what.showing budgets).showing budgets' = what.showing budgets' := by
  cases what <;> rfl

theorem Event.map_numbered (budgets : Budgets) (first : Nat) (what : List Happening) :
    (numbered first what).map (showing budgets) =
      numbered first (what.map (Happening.showing budgets)) := by
  rw [numbered, numbered, List.map_map, List.zipIdx_map, List.map_map]
  rfl

/-- What happens while a text is read depends on the limits only where it shows them. -/
theorem Document.map_happenings (budgets : Budgets) (context : Context)
    (bytes tokens nodes depth : Nat) (errors : List ParseError) :
    (happenings {} context bytes tokens nodes depth errors).map (.showing budgets) =
      happenings budgets context bytes tokens nodes depth errors := by
  have plain : (errors.map fun e => Happening.parseError e.id e.span).map (.showing budgets) =
      errors.map fun e => Happening.parseError e.id e.span := by
    rw [List.map_map]
    rfl
  rw [happenings, finished, List.map_append, List.map_cons, List.map_cons, List.map_append, plain]
  rfl

/-! ### Measures, in no order -/

theorem Recorder.mem_measures_extended {trace : Option (List Event)} {what : List Happening}
    {m : Measure} :
    m ∈ (Event.measures ((extended trace what).getD [])).flatten ↔
      m ∈ (Event.measures (trace.getD [])).flatten ∨ m ∈ measures trace what := by
  have front : (Event.measures ((extended trace what).getD [])).take (trace.getD []).length =
      Event.measures (trace.getD []) := by
    cases trace with
    | none => rfl
    | some events => exact Event.take_measures events _
  rw [measures, ← List.mem_append, ← front, ← List.flatten_append, List.take_append_drop]

theorem Document.extendTrace_eq (budgets : Budgets) (d : Document) (what : List Happening) :
    d.extendTrace budgets what =
      checked budgets { d with trace := Recorder.extended d.trace what }
        (Recorder.measures d.trace what) := by
  rw [extendTrace, ← List.append_nil (Recorder.measures d.trace what)]
  refine checked_bind (Recorder.recordAll_resume ..) ?_
  rw [Recorder.finish_resume]
  rfl

/-! ### Reading a text that is ready -/

/-- A text that is ready to be read, as a whole or as a part of a style sheet. -/
structure Prepared where
  text : String
  kind : DocumentKind
  context : Context
  /-- What happened before, to be added to the trace. Limits are filled in then. -/
  further : List Happening

namespace Prepared

/-- Read a text and add to its trace what happened before. -/
def read (p : Prepared) (options : ParseOptions) (clock : Clock) :
    Except BudgetExceeded Document := do
  let d ← Document.readWithin p.text p.kind p.context options clock
  d.extendTrace options.budgets (p.further.map (.showing options.budgets))

variable (p : Prepared) (options : ParseOptions) (clock clock' : Clock) (budgets : Budgets)
variable (spans : Bool)

/-- The tree of the text. -/
def tree : Parsed (Node Mark) := Document.treeOf spans p.context (tokenize p.text)

/-- What is measured whether there is a trace or not, but for the time. -/
def measures : List Measure :=
  [⟨.maxInputBytes, p.text.utf8ByteSize⟩, ⟨.maxTokens, (tokenize p.text).tokens.length⟩,
    ⟨.maxNodes, (p.tree spans).value.size⟩, ⟨.maxDepth, (p.tree spans).value.depth⟩]

/-- All that happens while the text is read. -/
def happenings : List Happening :=
  (Document.happenings {} p.context p.text.utf8ByteSize (tokenize p.text).tokens.length
    (p.tree spans).value.size (p.tree spans).value.depth
    (Document.locate p.text (p.tree spans).errors) ++ p.further).map (.showing budgets)

/-- The document that the text is read as, if it is. -/
def document : Document :=
  ⟨p.kind, p.context, (p.tree options.captureSpans).value,
    Document.locate p.text (p.tree options.captureSpans).errors,
    if options.trace then
      some (Event.numbered 1 (p.happenings options.budgets options.captureSpans)) else none⟩

/-- The events of its trace. -/
def events : List Event := (p.document options).trace.getD []

theorem happenings_spans (spans' : Bool) :
    p.happenings budgets spans = p.happenings budgets spans' := by
  have same := Document.treeOf_ids spans spans' p.context (tokenize p.text)
  have size := congrArg Node.size same
  have depth := congrArg Node.depth same
  rw [Node.size_map, Node.size_map] at size
  rw [Node.depth_map, Node.depth_map] at depth
  rw [happenings, happenings, tree, tree, size, depth]
  rfl

/-- Other limits only show in the trace. -/
theorem document_showing :
    (p.document options).showing budgets = p.document { options with budgets := budgets } := by
  rw [Document.showing, document, document]
  cases options.trace with
  | false => rfl
  | true =>
    have again : (p.happenings options.budgets options.captureSpans).map (.showing budgets) =
        p.happenings budgets options.captureSpans := by
      rw [happenings, happenings, List.map_map]
      exact List.map_congr_left fun what _ => what.showing_showing _ _
    rw [if_pos rfl, Option.map_some, Event.map_numbered, again]
    rfl

theorem length_events :
    (p.events { options with budgets := budgets }).length = (p.events options).length := by
  rw [events, events, ← document_showing, Document.showing]
  cases (p.document options).trace with
  | none => rfl
  | some events => exact List.length_map _

/-- Reading the text checks its measures, the time and the measures of its trace. -/
theorem read_eq : ∃ measures,
    p.read options clock = checked options.budgets (p.document options) measures ∧
      ∀ m, m ∈ measures ↔ m ∈ p.measures options.captureSpans ∨ m ∈ clock.measures ∨
        m ∈ (Event.measures (p.events options)).flatten := by
  let list := tokenize p.text
  let tree := p.tree options.captureSpans
  let errors := Document.locate p.text tree.errors
  let before := Recorder.extended (if options.trace then some [] else none)
    (Document.happenings options.budgets p.context p.text.utf8ByteSize list.tokens.length
      tree.value.size tree.value.depth errors)
  let further := p.further.map (Happening.showing options.budgets)
  have trace : Recorder.extended before further = (p.document options).trace := by
    rw [Recorder.extended_extended, Recorder.extended_fresh, ← Document.map_happenings,
      ← List.map_append]
    rfl
  have first := Document.readWithin_eq p.text p.kind p.context options clock
  have then_trace : Document.extendTrace options.budgets
      ⟨p.kind, p.context, tree.value, errors, before⟩ further =
        checked options.budgets (p.document options) (Recorder.measures before further) := by
    rw [Document.extendTrace_eq]
    simp only [trace]
    rfl
  refine ⟨_, checked_bind first then_trace, fun m => ?_⟩
  have recorded : m ∈ (Event.measures (p.events options)).flatten ↔
      m ∈ (Event.measures (before.getD [])).flatten ∨ m ∈ Recorder.measures before further := by
    rw [events, ← trace]
    exact Recorder.mem_measures_extended
  rw [List.mem_append, Document.mem_measures, or_assoc, or_assoc, recorded]
  rfl

/-- The text is read if its measures, the time, the number of events in its trace and their length
are within their limits. -/
theorem read_eq_ok_iff {d : Document} : p.read options clock = .ok d ↔
    d = p.document options ∧ (∀ m ∈ p.measures options.captureSpans, m.Within options.budgets) ∧
      (∀ m ∈ clock.measures, m.Within options.budgets) ∧
      Measure.Within options.budgets ⟨.maxTraceEvents, (p.events options).length⟩ ∧
      Measure.Within options.budgets ⟨.maxTraceBytes, Event.totalBytes (p.events options)⟩ := by
  obtain ⟨measures, read, mem⟩ := p.read_eq options clock
  rw [read, checked_eq_ok_iff, ← Event.measures_within_iff, eq_comm (a := d)]
  simp only [mem, or_imp, forall_and]
  tauto

/-- If reading the text fails some measure is over its limit, and the failure names its budget. -/
theorem exists_of_read_eq_error {e : BudgetExceeded}
    (h : p.read options clock = .error e) :
    ∃ m : Measure, m.budget = e.budget ∧ ¬ m.Within options.budgets ∧
      (m ∈ p.measures options.captureSpans ∨ m ∈ clock.measures ∨
        m ∈ (Event.measures (p.events options)).flatten) := by
  obtain ⟨measures, read, mem⟩ := p.read_eq options clock
  rw [read, checked_eq_error_iff] at h
  obtain ⟨before, after, rfl, -, limit, exceeded⟩ := h
  refine ⟨⟨e.budget, e.actual⟩, rfl, fun within => ?_, (mem _).mp (by simp)⟩
  exact absurd (within _ limit) (Nat.not_le.mpr exceeded)

/-- If limits are raised a text that was read is read again in due time, unless its trace, which shows
the new limits, is now too long. -/
theorem read_raised {d : Document} (read : p.read options clock = .ok d)
    (raise : options.budgets.RaisedTo budgets)
    (time : ∀ m ∈ clock'.measures, m.Within budgets) :
    let again := p.read { options with budgets := budgets } clock'
    let within := Measure.Within budgets
      ⟨.maxTraceBytes, Event.totalBytes ((d.showing budgets).trace.getD [])⟩
    (within → again = .ok (d.showing budgets)) ∧
      (¬ within → ∃ e, again = .error e ∧ e.budget = .maxTraceBytes) := by
  intro again within
  obtain ⟨rfl, base, -, count, -⟩ := (p.read_eq_ok_iff options clock).mp read
  have base' : ∀ m ∈ p.measures options.captureSpans, m.Within budgets :=
    fun m hm => (base m hm).mono raise
  have count' : Measure.Within budgets
      ⟨.maxTraceEvents, (p.events { options with budgets := budgets }).length⟩ := by
    rw [p.length_events]
    exact count.mono raise
  have shown : within ↔ Measure.Within budgets ⟨.maxTraceBytes,
      Event.totalBytes (p.events { options with budgets := budgets })⟩ := by
    rw [events, ← p.document_showing]
  constructor
  · intro bytes
    rw [p.document_showing]
    exact (p.read_eq_ok_iff _ _).mpr ⟨rfl, base', time, count', shown.mp bytes⟩
  · intro too_long
    cases result : again with
    | ok d' =>
      have bytes := ((p.read_eq_ok_iff _ _).mp result).2.2.2.2
      exact absurd (shown.mpr bytes) too_long
    | error e =>
      obtain ⟨⟨b, actual⟩, budget, exceeded, hm | hm | hm⟩ :=
        p.exists_of_read_eq_error _ _ result
      · exact absurd (base' _ hm) exceeded
      · exact absurd (time _ hm) exceeded
      · obtain ⟨rfl, le⟩ | ⟨rfl, -⟩ := Event.mem_measures hm
        · exact absurd (Measure.within_of_le count' le) exceeded
        · exact ⟨e, rfl, budget.symm⟩

end Prepared

end Stylesheet
