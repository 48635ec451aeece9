import Stylesheet.Stream
import Stylesheet.Proofs.Decoding

/-!
# Where a stream is stopped

A stream is stopped at the first item that is no chunk or brings a measure over its limit, and is
not asked for another one. The measures are the bytes so far, the time since the stream began, and the
bytes that are held at a time: all of them before decoding starts, and one chunk afterwards. A stream
that is never stopped is read to its end and can be decoded.
-/

namespace Stylesheet

/-- The bytes that an item brings. -/
def StreamItem.bytes : StreamItem → Bytes
  | chunk bytes => bytes
  | failure _ => []

/-- The failure to report if a measure is greater than its limit. -/
def Budgets.excess? (budgets : Budgets) (budget : Budget) (actual : Nat) : Option Failure :=
  match budgets.limit budget with
  | some limit => if limit < actual then some (.budget ⟨budget, limit, actual⟩) else none
  | none => none

theorem Budgets.ofBudget_check (budgets : Budgets) (budget : Budget) (actual : Nat) :
    Failure.ofBudget (budgets.check budget actual) =
      (budgets.excess? budget actual).elim (.ok ()) .error := by
  rw [check, Budget.enforce.eq_def, excess?]
  cases budgets.limit budget with
  | none => rfl
  | some limit => by_cases h : limit < actual <;> simp [h, Failure.ofBudget]

namespace Stream

open Encoding (Legacy)

variable {legacy : Legacy} {label : Option String} {budgets : Budgets} {items : List StreamItem}
variable {i : Nat}

/-- The number of bytes in the first `i` items. -/
def total (items : List StreamItem) (i : Nat) : Nat :=
  ((items.take i).flatMap StreamItem.bytes).length

/-- Tells whether decoding has started after `i` items: with a label at the first one, and without
at the one that brings enough bytes. -/
def startedAfter (label : Option String) (items : List StreamItem) (i : Nat) : Bool :=
  label.isSome && 1 ≤ i || enough ≤ total items i

/-- The number of bytes that are held when item `i` has arrived: the bytes of that item if decoding
had started before, and otherwise all so far. -/
def buffered (label : Option String) (items : List StreamItem) (i : Nat) : Nat :=
  if startedAfter label items (i - 1) then (items[i - 1]?.map fun item => item.bytes.length).getD 0
  else total items i

/-- How item `i` stops the stream, if it does. Items are counted from one. -/
def failureAt (label : Option String) (budgets : Budgets) (clock : Clock)
    (items : List StreamItem) (i : Nat) : Option Failure :=
  match items[i - 1]? with
  | none => none
  | some (.failure reason) => some (.readFailed reason)
  | some (.chunk _) =>
    budgets.excess? .maxInputBytes (total items i) <|>
      budgets.excess? .maxTimeMs (clock.chunk (i - 1)) <|>
        budgets.excess? .maxBufferedBytes (buffered label items i)

/-- The first of `n` items from item `i` on that stops the stream, and how it does. -/
def failureFrom (label : Option String) (budgets : Budgets) (clock : Clock)
    (items : List StreamItem) (i n : Nat) : Option (Nat × Failure) :=
  (List.range' i n).findSome? fun k => (failureAt label budgets clock items k).map (k, ·)

/-- The first item that stops the stream, and how it does. -/
def firstFailure (label : Option String) (budgets : Budgets) (clock : Clock)
    (items : List StreamItem) : Option (Nat × Failure) :=
  failureFrom label budgets clock items 1 items.length

theorem total_succ {item : StreamItem} (h : items[i]? = some item) :
    total items (i + 1) = total items i + item.bytes.length := by
  rw [total, total, List.take_add_one, h, Option.toList_some, List.flatMap_append,
    List.length_append, List.flatMap_singleton]

/-- Decoding goes on once it has started. -/
theorem startedAfter_succ {item : StreamItem} (h : items[i]? = some item)
    (started : startedAfter label items i) : startedAfter label items (i + 1) := by
  have more := total_succ h
  simp only [startedAfter, Bool.or_eq_true, Bool.and_eq_true, decide_eq_true_eq] at started ⊢
  obtain ⟨labelled, -⟩ | enough := started
  · exact .inl ⟨labelled, Nat.le_add_left 1 i⟩
  · exact .inr (by omega)

namespace Receiver

variable {r : Receiver legacy}

/-- The receiver has received the first `i` items. -/
structure Received (label : Option String) (items : List StreamItem) (i : Nat)
    (r : Receiver legacy) : Prop where
  bytesRead : r.bytesRead = total items i
  started : r.started.isSome = startedAfter label items i
  pending : r.started = none → r.pending.length = total items i

theorem exists_start (legacy : Legacy) (label : Option String) (pending : Bytes) :
    ∃ s : Started legacy, start label pending = .ok s := by
  obtain ⟨sniffed, found⟩ :=
    exists_sniff { transportLabel := label, maxPrescan := enough } pending rfl
  rw [start, found]
  exact ⟨_, rfl⟩

/-- A receiver without a failure can always come to its end. -/
theorem exists_finish (r : Receiver legacy) (label : Option String) :
    ∃ d, r.finish label = .ok d := by
  rw [finish]
  cases r.started with
  | some s => exact ⟨_, rfl⟩
  | none =>
    obtain ⟨s, hs⟩ := exists_start legacy label r.pending
    rw [hs]
    exact ⟨_, rfl⟩

/-- A chunk is received unless it stops the stream, and what it is received as does not depend on
the limits or the clock. -/
theorem Received.receive {bytes : Bytes} (h : r.Received label items i)
    (item : items[i]? = some (.chunk bytes)) :
    ∃ r', r'.Received label items (i + 1) ∧ ∀ budgets clock,
      r.receive label budgets (clock.chunk i) bytes =
        (failureAt label budgets clock items (i + 1)).elim (.ok r') .error := by
  have read : r.bytesRead + bytes.length = total items (i + 1) := by
    rw [h.bytesRead, total_succ item]
    rfl
  have held : buffered label items (i + 1) =
      if r.started.isSome then bytes.length else total items (i + 1) := by
    rw [buffered, Nat.add_sub_cancel, item, h.started]
    rfl
  have at_item (budgets : Budgets) (clock : Clock) :
      failureAt label budgets clock items (i + 1) =
        (budgets.excess? .maxInputBytes (total items (i + 1)) <|>
          budgets.excess? .maxTimeMs (clock.chunk i) <|>
            budgets.excess? .maxBufferedBytes (buffered label items (i + 1))) := by
    rw [failureAt, Nat.add_sub_cancel, item]
  simp only [at_item, held, Receiver.receive, read, Budgets.ofBudget_check]
  cases running : r.started with
  | some s =>
    have before : startedAfter label items i := by rw [← h.started, running]; rfl
    refine ⟨⟨total items (i + 1), max r.maxBuffered bytes.length, [],
      some ⟨(s.decoder.push bytes).1, s.sniffed, s.text ++ (s.decoder.push bytes).2⟩⟩,
      ⟨rfl, (startedAfter_succ item before).symm, by rintro ⟨⟩⟩, fun budgets clock => ?_⟩
    simp only [Option.isSome_some, ↓reduceIte]
    cases budgets.excess? .maxInputBytes (total items (i + 1)) with
    | some failure => rfl
    | none =>
      cases budgets.excess? .maxTimeMs (clock.chunk i) with
      | some failure => rfl
      | none => cases budgets.excess? .maxBufferedBytes bytes.length <;> rfl
  | none =>
    have waiting : (r.pending ++ bytes).length = total items (i + 1) := by
      rw [List.length_append, h.pending running, ← h.bytesRead, read]
    have starts : startedAfter label items (i + 1) =
        (label.isSome || decide (enough ≤ total items (i + 1))) := by
      simp [startedAfter]
    obtain ⟨s, hs⟩ := exists_start legacy label (r.pending ++ bytes)
    simp only [Option.isSome_none, Bool.false_eq_true, ↓reduceIte, waiting, hs]
    by_cases now : label.isSome || decide (enough ≤ total items (i + 1))
    · refine ⟨⟨total items (i + 1), max r.maxBuffered (total items (i + 1)), [], some s⟩,
        ⟨rfl, (starts.trans now).symm, by rintro ⟨⟩⟩, fun budgets clock => ?_⟩
      simp only [if_pos now]
      cases budgets.excess? .maxInputBytes (total items (i + 1)) with
      | some failure => rfl
      | none =>
        cases budgets.excess? .maxTimeMs (clock.chunk i) with
        | some failure => rfl
        | none => cases budgets.excess? .maxBufferedBytes (total items (i + 1)) <;> rfl
    · refine ⟨⟨total items (i + 1), max r.maxBuffered (total items (i + 1)),
        r.pending ++ bytes, none⟩,
        ⟨rfl, (starts.trans (Bool.eq_false_iff.mpr now)).symm, fun _ => waiting⟩,
        fun budgets clock => ?_⟩
      simp only [if_neg now]
      cases budgets.excess? .maxInputBytes (total items (i + 1)) with
      | some failure => rfl
      | none =>
        cases budgets.excess? .maxTimeMs (clock.chunk i) with
        | some failure => rfl
        | none => cases budgets.excess? .maxBufferedBytes (total items (i + 1)) <;> rfl

/-- From any point on, items are received up to the first that stops the stream. -/
theorem Received.run (h : r.Received label items i) {rest : List StreamItem}
    (left : items.drop i = rest) :
    ∃ d, ∀ budgets clock,
      let run := r.run label budgets (fun j => clock.chunk (i + j)) rest
      match failureFrom label budgets clock items (i + 1) rest.length with
      | some (k, failure) => ∃ pulls, i + pulls = k ∧ run = (pulls, .error failure)
      | none => run = (rest.length + 1, .ok d) := by
  induction rest generalizing r i with
  | nil =>
    obtain ⟨d, hd⟩ := exists_finish r label
    refine ⟨d, fun budgets clock => ?_⟩
    show r.run label budgets (fun j => clock.chunk (i + j)) [] = (1, .ok d)
    rw [Receiver.run, hd]
  | cons item rest ih =>
    have here : items[i]? = some item := by
      rw [← List.head?_drop, left]
      rfl
    have left' : items.drop (i + 1) = rest := by
      rw [← List.tail_drop, left]
      rfl
    have step (budgets : Budgets) (clock : Clock) :
        failureFrom label budgets clock items (i + 1) (item :: rest).length =
          match failureAt label budgets clock items (i + 1) with
          | some failure => some (i + 1, failure)
          | none => failureFrom label budgets clock items (i + 1 + 1) rest.length := by
      rw [failureFrom, List.length_cons, List.range'_succ, List.findSome?_cons]
      cases failureAt label budgets clock items (i + 1) <;> rfl
    cases item with
    | failure reason =>
      refine ⟨default, fun budgets clock => ?_⟩
      have stops : failureAt label budgets clock items (i + 1) = some (.readFailed reason) := by
        rw [failureAt, Nat.add_sub_cancel, here]
      rw [step, stops]
      exact ⟨1, rfl, rfl⟩
    | chunk bytes =>
      obtain ⟨r', h', received⟩ := h.receive here
      obtain ⟨d, rest_run⟩ := ih h' left'
      refine ⟨d, fun budgets clock => ?_⟩
      have shifted : (fun j => clock.chunk (i + (j + 1))) = fun j => clock.chunk (i + 1 + j) :=
        funext fun j => congrArg clock.chunk (by omega)
      rw [step, Receiver.run, Nat.add_zero, received, shifted]
      cases failureAt label budgets clock items (i + 1) with
      | some failure => exact ⟨1, rfl, rfl⟩
      | none =>
        have later := rest_run budgets clock
        dsimp only [Option.elim_none]
        cases found : failureFrom label budgets clock items (i + 1 + 1) rest.length with
        | some stop =>
          rw [found] at later
          obtain ⟨pulls, hpulls, hrun⟩ := later
          exact ⟨pulls + 1, by omega, by rw [hrun]⟩
        | none =>
          rw [found] at later
          rw [later]
          rfl

end Receiver

/-- A stream is decoded unless one of its items stops it, and what it is decoded to does not depend
on the limits or the clock. -/
theorem decode_stops (items : List StreamItem) (label : Option String) (legacy : Legacy) :
    ∃ d, ∀ budgets clock, decode items label budgets legacy clock =
      match firstFailure label budgets clock items with
      | some (k, failure) => (k, .error failure)
      | none => (items.length + 1, .ok d) := by
  have none_yet : ({} : Receiver legacy).Received label items 0 :=
    ⟨rfl, by simp [startedAfter, total, enough], fun _ => rfl⟩
  obtain ⟨d, all⟩ := none_yet.run List.drop_zero
  refine ⟨d, fun budgets clock => ?_⟩
  have run := all budgets clock
  simp only [Nat.zero_add] at run
  rw [firstFailure]
  cases found : failureFrom label budgets clock items 1 items.length with
  | some stop =>
    rw [found] at run
    obtain ⟨pulls, hpulls, hrun⟩ := run
    subst hpulls
    exact hrun
  | none =>
    rw [found] at run
    exact run

end Stream

/-- A stream is asked for items up to the first that is a failed read, or brings the bytes so far,
the time or the bytes that are held over their limit, and reading or tokenizing it fails with that. If
there is no such item the stream is read to its end and decoded. -/
theorem parseStream_stops (items : List StreamItem) (options : ParseOptions)
    (legacy : Encoding.Legacy) (clock : Clock) :
    let parsed := parseStream items options legacy clock
    let tokenized := tokenizeStream items
      { transportLabel := options.transportLabel, budgets := options.budgets } legacy clock
    match Stream.firstFailure options.transportLabel options.budgets clock items with
    | some (k, failure) => parsed = (k, .error failure) ∧ tokenized = (k, .error failure)
    | none =>
      parsed.1 = items.length + 1 ∧ tokenized.1 = items.length + 1 ∧
        ∃ d, Stream.decode items options.transportLabel options.budgets legacy clock =
          (items.length + 1, .ok d) := by
  intro parsed tokenized
  obtain ⟨d, decoded⟩ := Stream.decode_stops items options.transportLabel legacy
  have decoded := decoded options.budgets clock
  cases found : Stream.firstFailure options.transportLabel options.budgets clock items with
  | some stop =>
    rw [found] at decoded
    simp only [parsed, tokenized, parseStream, tokenizeStream, decoded]
    exact ⟨rfl, rfl⟩
  | none =>
    rw [found] at decoded
    refine ⟨?_, ?_, d, decoded⟩
    · simp only [parsed, parseStream, decoded]
    · simp only [tokenized, tokenizeStream, decoded]

end Stylesheet
