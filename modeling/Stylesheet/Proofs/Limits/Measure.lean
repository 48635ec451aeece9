import Stylesheet.Trace
import Stylesheet.Proofs.Result

/-!
# What a call measures

A call takes measures one after the other and fails at the first that exceeds its limit. `checked`
is such a call: a list of measures, and an answer if all of them are within their limits. One call
after another checks the measures of both, so a call that is made of steps is one `checked` as soon
as each of its steps is. When it succeeds and how it fails is then read off its measures.

Recording a trace is such a step, with two measures for each event.
-/

namespace Stylesheet

/-- Something that a call measures. -/
structure Measure where
  budget : Budget
  actual : Nat

/-- The measure is not greater than the limit of its budget, if that has one. -/
def Measure.Within (budgets : Budgets) (m : Measure) : Prop :=
  ∀ limit, budgets.limit m.budget = some limit → m.actual ≤ limit

/-- The first of the measures that exceeds its limit, with that limit. -/
def Budgets.FirstExceeded (budgets : Budgets) (measures : List Measure) (e : BudgetExceeded) :
    Prop :=
  ∃ before after, measures = before ++ ⟨e.budget, e.actual⟩ :: after ∧
    (∀ m ∈ before, m.Within budgets) ∧
    budgets.limit e.budget = some e.limit ∧ e.limit < e.actual

/-- Every limit is raised or removed, or stays as it is. -/
def Budgets.RaisedTo (budgets raised : Budgets) : Prop :=
  ∀ b limit', raised.limit b = some limit' → ∃ limit, budgets.limit b = some limit ∧ limit ≤ limit'

/-- The same limits, but none on time. -/
def Budgets.untimed (budgets : Budgets) : Budgets := { budgets with maxTimeMs := none }

/-- Check measures one after the other, then answer. -/
def checked {α : Type} (budgets : Budgets) (a : α) : List Measure → Except BudgetExceeded α
  | [] => .ok a
  | m :: measures => do
    budgets.check m.budget m.actual
    checked budgets a measures

section

variable {α β : Type} {budgets : Budgets} {a : α} {m : Measure} {measures more : List Measure}

theorem Measure.Within.mono {raised : Budgets} (h : m.Within budgets)
    (raise : budgets.RaisedTo raised) : m.Within raised := by
  intro limit' hlimit'
  obtain ⟨limit, hlimit, le⟩ := raise _ _ hlimit'
  exact Nat.le_trans (h limit hlimit) le

theorem Measure.within_of_le {n : Nat} (h : Measure.Within budgets ⟨m.budget, n⟩)
    (le : m.actual ≤ n) : m.Within budgets :=
  fun limit hlimit => Nat.le_trans le (h limit hlimit)

theorem Budgets.raisedTo_unlimited (budgets : Budgets) : budgets.RaisedTo {} := by
  intro b limit' h
  cases b <;> cases h

theorem Budget.mem_all (b : Budget) : b ∈ all := by
  cases b <;> decide

theorem Budgets.raisedTo_iff {raised : Budgets} : budgets.RaisedTo raised ↔
    ∀ b ∈ Budget.all,
      (raised.limit b).all fun limit' => (budgets.limit b).any fun limit => limit ≤ limit' := by
  constructor
  · intro raise b _
    cases h : raised.limit b with
    | none => rfl
    | some limit' =>
      obtain ⟨limit, hlimit, le⟩ := raise b limit' h
      simp [hlimit, le]
  · intro all b limit' h
    have raise := all b b.mem_all
    rw [h, Option.all_some, Option.any_eq_true] at raise
    obtain ⟨limit, hlimit, le⟩ := raise
    exact ⟨limit, hlimit, of_decide_eq_true le⟩

instance (budgets raised : Budgets) : Decidable (budgets.RaisedTo raised) :=
  decidable_of_iff _ Budgets.raisedTo_iff.symm

theorem Budgets.check_eq_ok_iff :
    budgets.check m.budget m.actual = .ok () ↔ m.Within budgets :=
  Budget.enforce_eq_ok_iff

theorem checked_cons_within (h : m.Within budgets) :
    checked budgets a (m :: measures) = checked budgets a measures := by
  rw [checked, Budgets.check_eq_ok_iff.mpr h]
  rfl

theorem checked_cons_exceeded {e : BudgetExceeded}
    (h : budgets.check m.budget m.actual = .error e) :
    checked budgets a (m :: measures) = .error e := by
  rw [checked, h]
  rfl

/-- Such a call succeeds if all measures are within their limits, and only with its answer. -/
theorem checked_eq_ok_iff {b : α} :
    checked budgets a measures = .ok b ↔ (∀ m ∈ measures, m.Within budgets) ∧ a = b := by
  induction measures with
  | nil => simp [checked]
  | cons m measures ih =>
    rw [List.forall_mem_cons, and_assoc, ← ih, checked, bind_eq_ok_iff]
    constructor
    · rintro ⟨⟨⟩, h, rest⟩
      exact ⟨Budgets.check_eq_ok_iff.mp h, rest⟩
    · rintro ⟨h, rest⟩
      exact ⟨(), Budgets.check_eq_ok_iff.mpr h, rest⟩

theorem Budgets.not_firstExceeded_nil (e : BudgetExceeded) : ¬ budgets.FirstExceeded [] e := by
  rintro ⟨before, after, h, -⟩
  exact absurd h (by simp)

theorem Budgets.firstExceeded_cons {e : BudgetExceeded} :
    budgets.FirstExceeded (m :: measures) e ↔
      budgets.check m.budget m.actual = .error e ∨
        m.Within budgets ∧ budgets.FirstExceeded measures e := by
  rw [Budgets.check, Budget.enforce_eq_error_iff]
  constructor
  · rintro ⟨before, after, hsplit, hbefore, hlimit, hlt⟩
    cases before with
    | nil =>
      obtain ⟨rfl, rfl⟩ := List.cons.inj hsplit
      exact .inl ⟨hlimit, hlt, rfl, rfl⟩
    | cons first before =>
      obtain ⟨rfl, rfl⟩ := List.cons.inj hsplit
      obtain ⟨within, hbefore⟩ := List.forall_mem_cons.mp hbefore
      exact .inr ⟨within, before, after, rfl, hbefore, hlimit, hlt⟩
  · rintro (⟨hlimit, hlt, hbudget, hactual⟩ | ⟨within, before, after, rfl, hbefore, exceeded⟩)
    · refine ⟨[], measures, ?_, List.forall_mem_nil _, hbudget ▸ hlimit, hactual ▸ hlt⟩
      rw [hbudget, hactual]
      rfl
    · exact ⟨m :: before, after, rfl, List.forall_mem_cons.mpr ⟨within, hbefore⟩, exceeded⟩

/-- Such a call fails with the first measure that exceeds its limit. -/
theorem checked_eq_error_iff {e : BudgetExceeded} :
    checked budgets a measures = .error e ↔ budgets.FirstExceeded measures e := by
  induction measures with
  | nil => exact iff_of_false (by rintro ⟨⟩) (Budgets.not_firstExceeded_nil e)
  | cons m measures ih =>
    rw [Budgets.firstExceeded_cons]
    cases h : budgets.check m.budget m.actual with
    | ok u =>
      have within : m.Within budgets := Budgets.check_eq_ok_iff.mp h
      rw [checked_cons_within within, ih]
      simp [within]
    | error e' =>
      have exceeded : ¬ m.Within budgets := fun within => by
        rw [Budgets.check_eq_ok_iff.mpr within] at h
        cases h
      rw [checked_cons_exceeded h]
      simp [exceeded]

/-- One call after another checks the measures of both. -/
theorem checked_bind {x : Except BudgetExceeded α} {f : α → Except BudgetExceeded β} {b : β}
    (hx : x = checked budgets a measures) (hf : f a = checked budgets b more) :
    x >>= f = checked budgets b (measures ++ more) := by
  subst hx
  induction measures with
  | nil => exact hf
  | cons m measures ih =>
    rw [List.cons_append, checked, checked, ← ih, bind_assoc]

theorem check_eq_checked (budgets : Budgets) (b : Budget) (actual : Nat) :
    budgets.check b actual = checked budgets () [⟨b, actual⟩] := by
  rw [checked, checked]
  cases budgets.check b actual <;> rfl

end

/-! ### Traces -/

namespace Event

/-- The events for what happened, numbered from a number on. -/
def numbered (first : Nat) (what : List Happening) : List Event :=
  (what.zipIdx first).map fun (happening, i) => ⟨i, happening⟩

/-- What is measured when each of the events is recorded: how many they are now, and the total
length of their JSON texts. -/
def measures (events : List Event) : List (List Measure) :=
  (List.range' 1 events.length).map fun i =>
    [⟨.maxTraceEvents, i⟩, ⟨.maxTraceBytes, totalBytes (events.take i)⟩]

theorem numbered_append (first : Nat) (what more : List Happening) :
    numbered first (what ++ more) = numbered first what ++ numbered (first + what.length) more := by
  rw [numbered, List.zipIdx_append, List.map_append]
  rfl

@[simp] theorem length_numbered (first : Nat) (what : List Happening) :
    (numbered first what).length = what.length := by
  rw [numbered, List.length_map, List.length_zipIdx]

theorem totalBytes_append (events more : List Event) :
    totalBytes (events ++ more) = totalBytes events + totalBytes more := by
  induction events with
  | nil => exact (Nat.zero_add _).symm
  | cons e events ih =>
    rw [List.cons_append, totalBytes, totalBytes, ih, Nat.add_assoc]

@[simp] theorem length_measures (events : List Event) :
    (measures events).length = events.length := by
  rw [measures, List.length_map, List.length_range']

/-- The measures of the first events do not depend on the later ones. -/
theorem take_measures (events more : List Event) :
    (measures (events ++ more)).take events.length = measures events := by
  rw [measures, measures, ← List.map_take, List.length_append, ← List.range'_append_1,
    List.take_left' List.length_range']
  refine List.map_congr_left fun i hi => ?_
  have le : i ≤ events.length := by
    have := (List.mem_range'_1.mp hi).2
    omega
  rw [List.take_append_of_le_length le]

/-- The measures of the next event come after those of the events so far. -/
theorem drop_measures (events more : List Event) (e : Event) :
    (measures (events ++ e :: more)).drop events.length =
      [⟨.maxTraceEvents, events.length + 1⟩, ⟨.maxTraceBytes, totalBytes (events ++ [e])⟩] ::
        (measures (events ++ e :: more)).drop (events.length + 1) := by
  have lt : events.length < (measures (events ++ e :: more)).length := by simp
  have next : (events ++ e :: more).take (1 + events.length) = events ++ [e] := by
    rw [Nat.add_comm, List.take_length_add_append]
    rfl
  rw [List.drop_eq_getElem_cons lt]
  simp only [measures, List.getElem_map, List.getElem_range', Nat.one_mul, next]
  rw [Nat.add_comm 1]

theorem mem_measures {events : List Event} {m : Measure} (h : m ∈ (measures events).flatten) :
    m.budget = .maxTraceEvents ∧ m.actual ≤ events.length ∨
      m.budget = .maxTraceBytes ∧ m.actual ≤ totalBytes events := by
  obtain ⟨ms, hms, hm⟩ := List.mem_flatten.mp h
  obtain ⟨i, hi, rfl⟩ := List.mem_map.mp hms
  have bytes : totalBytes (events.take i) ≤ totalBytes events := by
    conv_rhs => rw [← List.take_append_drop i events, totalBytes_append]
    exact Nat.le_add_right _ _
  have count : i ≤ events.length := by
    have := (List.mem_range'_1.mp hi).2
    omega
  obtain rfl | hm := List.mem_cons.mp hm
  · exact .inl ⟨rfl, count⟩
  · obtain rfl := List.mem_singleton.mp hm
    exact .inr ⟨rfl, bytes⟩

/-- Events are recorded within the limits if they are so when the last one is. -/
theorem measures_within_iff {budgets : Budgets} {events : List Event} :
    (∀ m ∈ (measures events).flatten, m.Within budgets) ↔
      Measure.Within budgets ⟨.maxTraceEvents, events.length⟩ ∧
        Measure.Within budgets ⟨.maxTraceBytes, totalBytes events⟩ := by
  constructor
  · intro h
    cases size : events.length with
    | zero =>
      obtain rfl := List.length_eq_zero_iff.mp size
      exact ⟨fun limit _ => Nat.zero_le limit, fun limit _ => Nat.zero_le limit⟩
    | succ n =>
      have last : [⟨.maxTraceEvents, n + 1⟩, ⟨.maxTraceBytes, totalBytes events⟩] ∈
          measures events := by
        refine List.mem_map.mpr ⟨n + 1, List.mem_range'_1.mpr (by omega), ?_⟩
        rw [← size, List.take_length]
      exact ⟨h _ (List.mem_flatten_of_mem last (by simp)),
        h _ (List.mem_flatten_of_mem last (by simp))⟩
  · rintro ⟨count, bytes⟩ ⟨b, actual⟩ hm
    obtain ⟨rfl, le⟩ | ⟨rfl, le⟩ := mem_measures hm
    · exact Measure.within_of_le count le
    · exact Measure.within_of_le bytes le

end Event

namespace Recorder

variable {budgets : Budgets}

/-- The trace after what happened. -/
def extended (trace : Option (List Event)) (what : List Happening) : Option (List Event) :=
  trace.map fun events => events ++ Event.numbered (events.length + 1) what

/-- What is measured when a trace is extended. -/
def measures (trace : Option (List Event)) (what : List Happening) : List Measure :=
  ((Event.measures ((extended trace what).getD [])).drop (trace.getD []).length).flatten

theorem start_eq_resume (tracing : Bool) :
    start tracing = resume (if tracing then some [] else none) := by
  cases tracing <;> rfl

theorem finish_resume (trace : Option (List Event)) : (resume trace).finish = trace := by
  cases trace with
  | none => rfl
  | some events => simp [resume, finish]

/-- Recording one event measures the trace once. -/
theorem record_resume (events : List Event) (w : Happening) :
    (resume (some events)).record budgets w =
      checked budgets (resume (some (events ++ [⟨events.length + 1, w⟩])))
        [⟨.maxTraceEvents, events.length + 1⟩,
          ⟨.maxTraceBytes, Event.totalBytes (events ++ [⟨events.length + 1, w⟩])⟩] := by
  have bytes : Event.totalBytes (events ++ [⟨events.length + 1, w⟩]) =
      Event.totalBytes events + Event.bytes ⟨events.length + 1, w⟩ :=
    Event.totalBytes_append events _
  simp only [record, resume, Option.map_some, List.length_reverse, Option.getD_some, checked, bytes,
    List.reverse_append, List.reverse_singleton, List.singleton_append]

/-- Recording events one after the other measures the trace after each of them. -/
theorem recordAll_resume (trace : Option (List Event)) (what : List Happening) :
    (resume trace).recordAll budgets what =
      checked budgets (resume (extended trace what)) (measures trace what) := by
  cases trace with
  | none =>
    induction what with
    | nil => rfl
    | cons w what ih => exact ih
  | some events =>
    simp only [extended, measures, Option.map_some, Option.getD_some]
    induction what generalizing events with
    | nil =>
      have none_new : (Event.measures events).drop events.length = [] := by
        exact List.drop_eq_nil_of_le (Nat.le_of_eq (Event.length_measures events))
      simp only [Event.numbered, List.zipIdx_nil, List.map_nil, List.append_nil, none_new]
      rfl
    | cons w what ih =>
      have cons : Event.numbered (events.length + 1) (w :: what) =
        ⟨events.length + 1, w⟩ :: Event.numbered (events.length + 1 + 1) what := rfl
      have rest := ih (events ++ [⟨events.length + 1, w⟩])
      rw [List.length_append, List.length_singleton, List.append_assoc] at rest
      rw [cons, Event.drop_measures, List.flatten_cons]
      exact checked_bind (record_resume events w) rest

end Recorder

end Stylesheet
