import Stylesheet.Proofs.Document
import Stylesheet.Proofs.Limits.Measure

/-!
# How budgets decide about a text

Reading a text takes a fixed list of measures: its bytes, the first two events of the trace, its
tokens, the time so far, the third event, its nodes, its depth, the time again and the remaining
events. The text is read if all of them are within their limits. Otherwise the call fails with the
first that is not.

What is measured depends on the text, its context, what is traced and the clock. The limits only show
in the trace, which names them. Without a limit on time nothing depends on the clock, and with one the
call ends as it would without, or fails since it took too long.
-/

namespace Stylesheet

/-- Measures decide how a call ends: it succeeds if all of them are within their limits, and
otherwise it fails with the first that exceeds its limit. -/
def Budgets.Decide {α : Type} (budgets : Budgets) (measures : List Measure)
    (result : Except Failure α) : Prop :=
  ((∃ a, result = .ok a) ↔ ∀ m ∈ measures, m.Within budgets) ∧
    ∀ failure, result = .error failure ↔
      ∃ e, failure = .budget e ∧ budgets.FirstExceeded measures e

theorem Budgets.decide_checked {α : Type} (budgets : Budgets) (a : α) (measures : List Measure) :
    budgets.Decide measures (Failure.ofBudget (checked budgets a measures)) := by
  constructor
  · simp only [Failure.ofBudget_eq_ok_iff, checked_eq_ok_iff]
    exact ⟨fun ⟨_, within, _⟩ => within, fun within => ⟨a, within, rfl⟩⟩
  · intro failure
    simp only [Failure.ofBudget_eq_error_iff, checked_eq_error_iff]

namespace Recorder

variable {budgets : Budgets}

theorem extended_extended (trace : Option (List Event)) (what more : List Happening) :
    extended (extended trace what) more = extended trace (what ++ more) := by
  cases trace with
  | none => rfl
  | some events =>
    simp only [extended, Option.map_some, Event.numbered_append, List.length_append,
      Event.length_numbered, List.append_assoc, Nat.add_right_comm]

theorem extended_fresh (tracing : Bool) (what : List Happening) :
    extended (if tracing then some [] else none) what =
      if tracing then some (Event.numbered 1 what) else none := by
  cases tracing <;> rfl

theorem record_eq_recordAll (r : Recorder) (w : Happening) :
    r.record budgets w = r.recordAll budgets [w] := by
  rw [recordAll, List.foldlM_cons]
  exact (bind_pure _).symm

end Recorder

/-- The time is measured twice while a text is read. -/
def Clock.measures (clock : Clock) : List Measure :=
  [⟨.maxTimeMs, clock.tokens⟩, ⟨.maxTimeMs, clock.tree⟩]

namespace Document

variable {text : String} {kind : DocumentKind} {context : Context} {options : ParseOptions}
variable {clock : Clock}

/-- What happens while a text is read. -/
def happenings (budgets : Budgets) (context : Context) (bytes tokens nodes depth : Nat)
    (errors : List ParseError) : List Happening :=
  received budgets bytes ++ .token tokens :: finished budgets context tokens nodes depth errors

/-- What is measured while a text is read, in order. -/
def measures (clock : Clock) (bytes tokens nodes depth : Nat) (events : List Event) :
    List Measure :=
  let recorded := Event.measures events
  ⟨.maxInputBytes, bytes⟩ :: (recorded.take 2).flatten ++
    ⟨.maxTokens, tokens⟩ :: ⟨.maxTimeMs, clock.tokens⟩ :: ((recorded.drop 2).take 1).flatten ++
      ⟨.maxNodes, nodes⟩ :: ⟨.maxDepth, depth⟩ :: ⟨.maxTimeMs, clock.tree⟩ ::
        (recorded.drop 3).flatten

/-- The measures of the events are those of the steps that record them. -/
theorem measures_extended (clock : Clock) (tracing : Bool) (budgets : Budgets)
    (context : Context) (bytes tokens nodes depth : Nat) (errors : List ParseError) :
    let fresh : Option (List Event) := if tracing then some [] else none
    let first := Recorder.extended fresh (received budgets bytes)
    let second := Recorder.extended first [.token tokens]
    measures clock bytes tokens nodes depth ((Recorder.extended fresh
        (happenings budgets context bytes tokens nodes depth errors)).getD []) =
      [⟨.maxInputBytes, bytes⟩] ++ (Recorder.measures fresh (received budgets bytes) ++
        ([⟨.maxTokens, tokens⟩] ++ ([⟨.maxTimeMs, clock.tokens⟩] ++
          (Recorder.measures first [.token tokens] ++
            ([⟨.maxNodes, nodes⟩] ++ ([⟨.maxDepth, depth⟩] ++ ([⟨.maxTimeMs, clock.tree⟩] ++
              (Recorder.measures second
                (finished budgets context tokens nodes depth errors) ++ [])))))))) := by
  intro fresh first second
  cases tracing with
  | false => rfl
  | true =>
    let rest := finished budgets context tokens nodes depth errors
    let two := Event.numbered 1 (received budgets bytes)
    let three := Event.numbered 1 (received budgets bytes ++ [.token tokens])
    let all := Event.numbered 1 (happenings budgets context bytes tokens nodes depth errors)
    have all_eq : all = three ++ Event.numbered 4 rest :=
      Event.numbered_append 1 (received budgets bytes ++ [.token tokens]) rest
    have take_two : (Event.measures all).take 2 = Event.measures two :=
      Event.take_measures two (Event.numbered 3 (.token tokens :: rest))
    have take_three : (Event.measures all).take 3 = Event.measures three := by
      rw [all_eq]
      exact Event.take_measures three _
    have third : ((Event.measures all).drop 2).take 1 = (Event.measures three).drop 2 := by
      rw [← take_three, List.drop_take]
    show [_] ++ ((Event.measures all).take 2).flatten ++ ([_] ++ ([_] ++
      (((Event.measures all).drop 2).take 1).flatten) ++ ([_] ++ ([_] ++ ([_] ++
        ((Event.measures all).drop 3).flatten)))) = _
    rw [take_two, third]
    simp only [List.append_assoc, List.append_nil]
    rfl

/-- Reading a text checks its measures, then answers with its tree, its errors and the trace. -/
theorem readWithin_eq (text : String) (kind : DocumentKind) (context : Context)
    (options : ParseOptions) (clock : Clock) :
    let list := tokenize text
    let tree := treeOf options.captureSpans context list
    let errors := locate text tree.errors
    let trace := Recorder.extended (if options.trace then some [] else none)
      (happenings options.budgets context text.utf8ByteSize list.tokens.length tree.value.size
        tree.value.depth errors)
    readWithin text kind context options clock =
      checked options.budgets ⟨kind, context, tree.value, errors, trace⟩
        (measures clock text.utf8ByteSize list.tokens.length tree.value.size tree.value.depth
          (trace.getD [])) := by
  intro list tree errors trace
  simp only [readWithin, Node.measure_eq]
  rw [measures_extended, Recorder.start_eq_resume]
  apply checked_bind (check_eq_checked ..)
  apply checked_bind (Recorder.recordAll_resume ..)
  apply checked_bind (check_eq_checked ..)
  apply checked_bind (check_eq_checked ..)
  apply checked_bind ((Recorder.record_eq_recordAll ..).trans (Recorder.recordAll_resume ..))
  apply checked_bind (check_eq_checked ..)
  apply checked_bind (check_eq_checked ..)
  apply checked_bind (check_eq_checked ..)
  apply checked_bind (Recorder.recordAll_resume ..)
  rw [Recorder.finish_resume, Recorder.extended_extended, Recorder.extended_extended]
  rfl

/-- What is measured, in no order. -/
theorem mem_measures {bytes tokens nodes depth : Nat} {events : List Event} {m : Measure} :
    m ∈ measures clock bytes tokens nodes depth events ↔
      m ∈ ([⟨.maxInputBytes, bytes⟩, ⟨.maxTokens, tokens⟩, ⟨.maxNodes, nodes⟩,
          ⟨.maxDepth, depth⟩] : List Measure) ∨
        m ∈ clock.measures ∨ m ∈ (Event.measures events).flatten := by
  have parts : (Event.measures events).flatten = ((Event.measures events).take 2).flatten ++
      ((((Event.measures events).drop 2).take 1).flatten ++
        ((Event.measures events).drop 3).flatten) := by
    have behind : (Event.measures events).drop 3 = ((Event.measures events).drop 2).drop 1 := by
      rw [List.drop_drop]
    rw [behind, ← List.flatten_append, List.take_append_drop, ← List.flatten_append,
      List.take_append_drop]
  rw [parts, measures, Clock.measures]
  simp only [List.mem_append, List.mem_cons, List.not_mem_nil, or_false]
  tauto

/-- How reading a text ends is decided by its measures without limits, and by the events that are
recorded, if a trace was asked for. On success the trace consists of those events. -/
def DecidedBy (text : String) (context : Context) (options : ParseOptions) (clock : Clock)
    (whole : Document) (result : Except Failure Document) : Prop :=
  ∃ list, tokenizeWithin text {} = .ok list ∧
    let events := if options.trace then Event.numbered 1 <|
      happenings options.budgets context text.utf8ByteSize list.tokens.length whole.root.size
        whole.root.depth whole.errors else []
    options.budgets.Decide (measures clock text.utf8ByteSize list.tokens.length whole.root.size
      whole.root.depth events) result ∧
    ∀ d, result = .ok d → d.trace = if options.trace then some events else none

/-- Without limits there is always something to measure. -/
theorem exists_decidedBy (text : String) (kind : DocumentKind) (context : Context)
    (options : ParseOptions) (clock : Clock) :
    ∃ whole,
      Failure.ofBudget (readWithin text kind context { options with budgets := {} }) = .ok whole ∧
      DecidedBy text context options clock whole
        (Failure.ofBudget (readWithin text kind context options clock)) := by
  obtain ⟨whole, read⟩ := exists_readWithin text kind context options {}
  have tokens : tokenizeWithin text {} = .ok (tokenize text) := rfl
  refine ⟨whole, Failure.ofBudget_eq_ok_iff.mpr read, tokenize text, tokens, ?_⟩
  rw [readWithin_root read, readWithin_errors read, readWithin_eq]
  simp only [Recorder.extended_fresh]
  cases options.trace
  all_goals
    refine ⟨Budgets.decide_checked _ _ _, fun d hd => ?_⟩
    rw [← (checked_eq_ok_iff.mp (Failure.ofBudget_eq_ok_iff.mp hd)).2]
    rfl

end Document

/-- A text is read if its bytes, its tokens, its nodes, its depth, the time that this takes and every
part of its trace are within their limits, and otherwise reading it fails with the first of them that
is not, in the order in which they become known. -/
theorem parseAs_decidedBy (text : String) (context : Context) (options : ParseOptions)
    (clock : Clock) :
    (∃ whole, parseAs text context { options with budgets := {} } = .ok whole ∧
      Document.DecidedBy text context options clock whole
        (parseAs text context options clock)) ∧
    ∃ whole, parse text { options with budgets := {} } = .ok whole ∧
      Document.DecidedBy text .stylesheet options clock whole (parse text options clock) :=
  ⟨Document.exists_decidedBy text .fragment context options clock,
    Document.exists_decidedBy text .stylesheet .stylesheet options clock⟩

end Stylesheet
