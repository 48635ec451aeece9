import Stylesheet.Proofs.Limits.Prepared
import Stylesheet.Proofs.Limits.Stream

/-!
# What options decide

Whatever is read, it is first made into a text, and then that text is read. The transport label says
how bytes become a text. All other options decide only whether there is a document, whether its
nodes have spans and whether it has a trace, and its trace shows the limits. The clock decides only
whether there is a document.
-/

namespace Stylesheet

open Encoding (Legacy)

variable {legacy : Legacy} {label : Option String} {budgets raised : Budgets}
variable {clock clock' : Clock}

/-- Nothing that the clock shows exceeds the limit on time, if there is one. -/
def Clock.InTime (clock : Clock) (budgets : Budgets) : Prop :=
  ∀ limit, budgets.maxTimeMs = some limit →
    (∀ i, clock.chunk i ≤ limit) ∧ clock.tokens ≤ limit ∧ clock.tree ≤ limit

theorem Clock.InTime.chunk (h : clock.InTime budgets) (i : Nat) :
    Measure.Within budgets ⟨.maxTimeMs, clock.chunk i⟩ :=
  fun limit hlimit => (h limit hlimit).1 i

theorem Clock.InTime.measures (h : clock.InTime budgets) :
    ∀ m ∈ clock.measures, m.Within budgets := by
  rw [Clock.measures, List.forall_mem_cons, List.forall_mem_singleton]
  exact ⟨fun limit hlimit => (h limit hlimit).2.1, fun limit hlimit => (h limit hlimit).2.2⟩

theorem Clock.inTime_unlimited (clock : Clock) : clock.InTime {} := nofun

/-! ### Streams under other limits -/

theorem Budgets.excess?_eq_none_iff {b : Budget} {actual : Nat} :
    budgets.excess? b actual = none ↔ Measure.Within budgets ⟨b, actual⟩ := by
  have check := budgets.ofBudget_check b actual
  rw [← Budgets.check_eq_ok_iff, ← Failure.ofBudget_eq_ok_iff, check]
  cases budgets.excess? b actual <;> simp

namespace Stream

variable {items : List StreamItem} {i : Nat}

theorem failureAt_raised (raise : budgets.RaisedTo raised) (time : clock'.InTime raised)
    (h : failureAt label budgets clock items i = none) :
    failureAt label raised clock' items i = none := by
  rw [failureAt] at h ⊢
  cases item : items[i - 1]? with
  | none => rfl
  | some item' =>
    rw [item] at h
    cases item' with
    | failure reason => cases h
    | chunk bytes =>
      simp only [Option.orElse_eq_orElse, Option.orElse_eq_or, Option.or_eq_none_iff,
        Budgets.excess?_eq_none_iff] at h ⊢
      exact ⟨h.1.mono raise, time.chunk (i - 1), h.2.2.mono raise⟩

/-- A stream that was decoded is decoded to the same under raised limits, if it comes in time. -/
theorem decode_raised (raise : budgets.RaisedTo raised) (time : clock'.InTime raised)
    {d : DecodedStream} (h : (decode items label budgets legacy clock).2 = .ok d) :
    (decode items label raised legacy clock').2 = .ok d := by
  obtain ⟨d', decoded⟩ := decode_stops items label legacy
  rw [decoded] at h ⊢
  cases found : firstFailure label budgets clock items with
  | some stop =>
    rw [found] at h
    cases h
  | none =>
    have none_raised : firstFailure label raised clock' items = none := by
      rw [firstFailure, failureFrom, List.findSome?_eq_none_iff] at found ⊢
      intro k hk
      have free := found k hk
      rw [Option.map_eq_none_iff] at free ⊢
      exact failureAt_raised raise time free
    rw [found] at h
    rw [none_raised]
    exact h

end Stream

/-! ### All that can be read -/

/-- Something to be read. -/
inductive Source where
  /-- A style sheet. -/
  | sheet (text : String)
  /-- A part of a style sheet. -/
  | part (text : String) (context : Context)
  /-- The part of a style sheet that a name says. -/
  | named (text name : String)
  /-- The bytes of a style sheet. -/
  | bytes (data : Bytes)
  /-- The bytes of a style sheet, in chunks. -/
  | stream (items : List StreamItem)

namespace Source

/-- Read a source. -/
def read (legacy : Legacy) (options : ParseOptions) (clock : Clock) :
    Source → Except Failure Document
  | sheet text => parse text options clock
  | part text context => parseAs text context options clock
  | named text name => parseFragment text name options clock
  | bytes data => parseBytes data options legacy clock
  | stream items => (parseStream items options legacy clock).2

/-- Make a source into a text. -/
def prepare (legacy : Legacy) (label : Option String) (budgets : Budgets) (clock : Clock) :
    Source → Except Failure Prepared
  | sheet text => .ok ⟨text, .stylesheet, .stylesheet, []⟩
  | part text context => .ok ⟨text, .fragment, context, []⟩
  | named text name =>
    match Context.ofName? name with
    | some context => .ok ⟨text, .fragment, context, []⟩
    | none => .error (.unknownContext name)
  | bytes data => do
    Failure.ofBudget (budgets.check .maxInputBytes data.length)
    let (text, sniffed) ← decodeBytes data { transportLabel := label } legacy
    .ok ⟨text, .stylesheet, .stylesheet, [sniffed.happening]⟩
  | stream items => do
    let s ← (Stream.decode items label budgets legacy clock).2
    .ok ⟨s.text, .stylesheet, .stylesheet, [s.sniffed.happening, .stream s.bytesRead,
      .budget .maxBufferedBytes none s.maxBuffered]⟩

variable {source : Source} {options options' : ParseOptions}

theorem ofBudget_bind {α β : Type} (x : Except BudgetExceeded α)
    (f : α → Except BudgetExceeded β) :
    Failure.ofBudget (x >>= f) = Failure.ofBudget x >>= fun a => Failure.ofBudget (f a) := by
  cases x <;> rfl

/-- Where nothing happened before, only the text is read. -/
theorem read_text (text : String) (kind : DocumentKind) (context : Context) :
    Failure.ofBudget (Prepared.read ⟨text, kind, context, []⟩ options clock) =
      Failure.ofBudget (Document.readWithin text kind context options clock) := by
  have nothing_more (d : Document) : d.extendTrace options.budgets [] = .ok d := by
    show Except.ok { d with trace := (Recorder.resume d.trace).finish } = .ok d
    rw [Recorder.finish_resume]
  rw [Prepared.read, List.map_nil]
  simp only [nothing_more]
  cases Document.readWithin text kind context options clock <;> rfl

/-- Reading a source is making it into a text and reading that. -/
theorem read_eq (source : Source) (legacy : Legacy) (options : ParseOptions) (clock : Clock) :
    source.read legacy options clock =
      source.prepare legacy options.transportLabel options.budgets clock >>= fun p =>
        Failure.ofBudget (p.read options clock) := by
  cases source with
  | sheet text => exact (read_text ..).symm
  | part text context => exact (read_text ..).symm
  | named text name =>
    rw [read, prepare, parseFragment]
    cases Context.ofName? name with
    | none => rfl
    | some context => exact (read_text ..).symm
  | bytes data =>
    simp only [read, prepare, parseBytes, parse, Prepared.read, ofBudget_bind, bind_assoc]
    rfl
  | stream items =>
    simp only [read, prepare, parseStream, parse, Prepared.read, ofBudget_bind, bind_assoc]
    rfl

/-- A source that is made into a text is made into the same text under raised limits, if it comes in
time. -/
theorem prepare_raised (raise : budgets.RaisedTo raised) (time : clock'.InTime raised)
    {p : Prepared} (h : source.prepare legacy label budgets clock = .ok p) :
    source.prepare legacy label raised clock' = .ok p := by
  cases source with
  | sheet text => exact h
  | part text context => exact h
  | named text name => exact h
  | bytes data =>
    simp only [prepare, bind_eq_ok_iff, Failure.ofBudget_eq_ok_iff] at h ⊢
    obtain ⟨u, within, rest⟩ := h
    have bytes : Measure.Within budgets ⟨.maxInputBytes, data.length⟩ :=
      Budgets.check_eq_ok_iff.mp within
    exact ⟨u, Budgets.check_eq_ok_iff.mpr (bytes.mono raise), rest⟩
  | stream items =>
    simp only [prepare, bind_eq_ok_iff] at h ⊢
    obtain ⟨s, decoded, rest⟩ := h
    exact ⟨s, Stream.decode_raised raise time decoded, rest⟩

end Source

/-! ### Two calls -/

/-- The failure that a call ends with, if it does. -/
def Failure.of? {α : Type} : Except Failure α → Option Failure
  | .ok _ => none
  | .error failure => some failure

theorem Failure.of?_eq_some_iff {α : Type} {x : Except Failure α} {failure : Failure} :
    of? x = some failure ↔ x = .error failure := by
  cases x <;> simp [of?]

theorem toOption_eq_some_iff {α ε : Type} {x : Except ε α} {a : α} :
    x.toOption = some a ↔ x = .ok a := by
  cases x <;> simp [Except.toOption]

/-- Two documents that were read under options are the same but for what these decide: the spans,
whether there is a trace, and the limits that it shows. -/
structure Document.AgreesUpTo (options options' : ParseOptions) (d d' : Document) : Prop where
  kind : d.kind = d'.kind
  context : d.context = d'.context
  errors : d.errors = d'.errors
  /-- The trees have the same kinds, details, numbers and children. -/
  ids : d.root.map Mark.id = d'.root.map Mark.id
  root : options.captureSpans = options'.captureSpans → d.root = d'.root
  traced : d.trace.isSome = options.trace
  traced' : d'.trace.isSome = options'.trace
  trace : options.trace = options'.trace → (d.showing {}).trace = (d'.showing {}).trace

variable {options options' : ParseOptions}

/-- A text is read as the same document, but for what options decide. -/
theorem Prepared.document_agreesUpTo (p : Prepared) (options options' : ParseOptions) :
    Document.AgreesUpTo options options' (p.document options) (p.document options') where
  kind := rfl
  context := rfl
  errors := rfl
  ids := Document.treeOf_ids ..
  root same := by rw [document, document, same]
  traced := by rw [document]; cases options.trace <;> rfl
  traced' := by rw [document]; cases options'.trace <;> rfl
  trace same := by
    rw [document_showing, document_showing, document, document]
    simp only [same, p.happenings_spans {} options.captureSpans options'.captureSpans]

/-- Two calls that read a source with the same transport label answer with the same document, but
for what the other options decide. If limits are raised a source that was read is read again in due
time, and only the limits that its trace shows are others, unless these make the trace too long. -/
theorem Source.read_agreesUpTo (source : Source) (legacy : Legacy)
    (label : options.transportLabel = options'.transportLabel) {d : Document}
    (read : source.read legacy options clock = .ok d) :
    (∀ clock' d', source.read legacy options' clock' = .ok d' →
      d.AgreesUpTo options options' d') ∧
    ∀ raised, options.budgets.RaisedTo raised → ∀ clock' : Clock, clock'.InTime raised →
      let again := source.read legacy { options with budgets := raised } clock'
      let within := Measure.Within raised
        ⟨.maxTraceBytes, Event.totalBytes ((d.showing raised).trace.getD [])⟩
      (within → again = .ok (d.showing raised)) ∧
        (¬ within → ∃ e, again = .error (.budget e) ∧ e.budget = .maxTraceBytes) := by
  rw [read_eq, bind_eq_ok_iff] at read
  obtain ⟨p, prepared, read⟩ := read
  rw [Failure.ofBudget_eq_ok_iff] at read
  constructor
  · intro clock' d' read'
    rw [read_eq, bind_eq_ok_iff, ← label] at read'
    obtain ⟨p', prepared', read'⟩ := read'
    rw [Failure.ofBudget_eq_ok_iff] at read'
    -- Without limits both are made into a text, and so it is the same.
    have unlimited := prepare_raised (Budgets.raisedTo_unlimited _) clock.inTime_unlimited prepared
    have unlimited' :=
      prepare_raised (Budgets.raisedTo_unlimited _) clock.inTime_unlimited prepared'
    obtain rfl := Except.ok.inj (unlimited.symm.trans unlimited')
    rw [((p.read_eq_ok_iff options clock).mp read).1,
      ((p.read_eq_ok_iff options' clock').mp read').1]
    exact p.document_agreesUpTo options options'
  · intro raised raise clock' time again within
    have prepared_again := prepare_raised raise time prepared
    obtain ⟨answers, fails⟩ :=
      p.read_raised options clock clock' raised read raise time.measures
    have again_eq :
        again = Failure.ofBudget (p.read { options with budgets := raised } clock') := by
      show source.read legacy { options with budgets := raised } clock' = _
      rw [read_eq, prepared_again]
      rfl
    rw [again_eq]
    constructor
    · intro bytes
      rw [answers bytes]
      rfl
    · intro too_long
      obtain ⟨e, failed, budget⟩ := fails too_long
      exact ⟨e, by rw [failed]; rfl, budget⟩

/-- A rule and a stray bracket, read with spans and a trace in two milliseconds, are read as the same
tree and the same error without them; and with the limit on tokens raised from nine to ten they are
read again in four. -/
theorem Source.read_raised_ten :
    let source := sheet "a\x7bb:c\x7d\x7d"
    let traced (limit : Nat) : ParseOptions :=
      { captureSpans := true
        trace := true
        budgets := { maxTokens := some limit, maxTimeMs := some 5 } }
    ∃ d d', source.read .ascii (traced 9) { tokens := 1, tree := 2 } = .ok d ∧
      source.read .ascii {} {} = .ok d' ∧ d.AgreesUpTo (traced 9) {} d' ∧
      d.root.size = 10 ∧ d.errors.length = 1 ∧
      source.read .ascii (traced 10) { tokens := 3, tree := 4 } =
        .ok (d.showing (traced 10).budgets) := by
  intro source traced
  have succeeds : ((source.read .ascii (traced 9) { tokens := 1, tree := 2 }).toOption.map
      fun d => (d.root.size, d.errors.length)) = some (10, 1) := by decide +kernel
  have succeeds' : (source.read .ascii {} {}).toOption.isSome := by decide +kernel
  obtain ⟨d, hd, measures⟩ := Option.map_eq_some_iff.mp succeeds
  obtain ⟨d', hd'⟩ := Option.isSome_iff_exists.mp succeeds'
  have read := toOption_eq_some_iff.mp hd
  have read' := toOption_eq_some_iff.mp hd'
  have raise : (traced 9).budgets.RaisedTo (traced 10).budgets := by decide
  have time : Clock.InTime { tokens := 3, tree := 4 } (traced 10).budgets := by
    rintro _ ⟨⟩
    exact ⟨fun _ => Nat.zero_le 5, by decide, by decide⟩
  have label : (traced 9).transportLabel = ({} : ParseOptions).transportLabel := rfl
  obtain ⟨agrees, again⟩ := read_agreesUpTo source .ascii label read
  exact ⟨d, d', read, read', agrees {} d' read', congrArg Prod.fst measures,
    congrArg Prod.snd measures, (again _ raise _ time).1 (by rintro _ ⟨⟩)⟩

/-- The limits of a trace show in it, so a call that succeeds fails once a limit that it shows is
raised from nine to ten. -/
theorem parse_raised_exceeds :
    let tight : Budgets := { maxTokens := some 9, maxTraceBytes := some 528 }
    let raised : Budgets := { maxTokens := some 10, maxTraceBytes := some 528 }
    let removed : Budgets := { maxTokens := some 10 }
    tight.RaisedTo raised ∧ tight.RaisedTo removed ∧
      (∃ d d', parse "" { trace := true, budgets := tight } = .ok d ∧
        parse "" { trace := true, budgets := removed } = .ok d' ∧ d.trace ≠ d'.trace) ∧
      parse "" { trace := true, budgets := raised } =
        .error (.budget ⟨.maxTraceBytes, 528, 529⟩) := by
  have read : (parse "" { trace := true, budgets :=
      { maxTokens := some 9, maxTraceBytes := some 528 } }).toOption.isSome := by decide +kernel
  have read' : (parse "" { trace := true, budgets :=
      { maxTokens := some 10 } }).toOption.isSome := by decide +kernel
  have differ : (parse "" { trace := true, budgets :=
        { maxTokens := some 9, maxTraceBytes := some 528 } }).toOption.map Document.trace ≠
      (parse "" { trace := true, budgets :=
        { maxTokens := some 10 } }).toOption.map Document.trace := by decide +kernel
  have exceeds : Failure.of? (parse "" { trace := true, budgets :=
        { maxTokens := some 10, maxTraceBytes := some 528 } }) =
      some (.budget ⟨.maxTraceBytes, 528, 529⟩) := by decide +kernel
  refine ⟨by decide, by decide, ?differ, ?exceeds⟩
  case differ =>
    obtain ⟨d, hd⟩ := Option.isSome_iff_exists.mp read
    obtain ⟨d', hd'⟩ := Option.isSome_iff_exists.mp read'
    rw [hd, hd'] at differ
    exact ⟨d, d', toOption_eq_some_iff.mp hd, toOption_eq_some_iff.mp hd',
      fun same => differ (congrArg some same)⟩
  case exceeds => exact Failure.of?_eq_some_iff.mp exceeds

end Stylesheet
