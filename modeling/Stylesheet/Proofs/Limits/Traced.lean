import Stylesheet.Proofs.Limits.Options

/-!
# What a trace tells

The trace of a call that succeeds tells its result: what was received, how many tokens, nodes and
errors there are, each error with its place, and the measures with their limits. None of them is
exceeded. Calls that read bytes or a stream add what they did before.

They add it by resuming the finished trace. A resumed recorder is the recorder that was finished, so
it goes on as if it had never stopped: the same events are recorded, and the same limit ends the
call.
-/

namespace Stylesheet

open Encoding (Legacy)

/-! ### Resumed recorders -/

namespace Recorder

variable {budgets : Budgets} {r r' : Recorder}

/-- The recorder counts the bytes of its own events. -/
def Counted (r : Recorder) : Prop := resume r.finish = r

theorem counted_start (tracing : Bool) : (start tracing).Counted := by
  cases tracing <;> rfl

theorem counted_resume (events : Option (List Event)) : (resume events).Counted := by
  rw [Counted, finish_resume]

/-- Recording one event keeps the count. -/
theorem Counted.record (h : r.Counted) {what : Happening} (done : r.record budgets what = .ok r') :
    r'.Counted := by
  rw [← h, record_eq_recordAll, recordAll_resume, checked_eq_ok_iff] at done
  rw [← done.2]
  exact counted_resume _

/-- Recording many events keeps the count. -/
theorem Counted.recordAll (h : r.Counted) {what : List Happening}
    (done : r.recordAll budgets what = .ok r') : r'.Counted := by
  induction what generalizing r with
  | nil =>
    obtain rfl := Except.ok.inj done
    exact h
  | cons w what ih =>
    rw [Recorder.recordAll, List.foldlM_cons, bind_eq_ok_iff] at done
    obtain ⟨next, first, rest⟩ := done
    exact ih (h.record first) rest

/-- A recorder that is finished on the way and resumed goes on as if it had not been. -/
theorem recordAll_resumed (h : r.Counted) (before after : List Happening) :
    (r.recordAll budgets before >>= fun done => (resume done.finish).recordAll budgets after) =
      r.recordAll budgets (before ++ after) := by
  rw [Recorder.recordAll, Recorder.recordAll, List.foldlM_append]
  cases first : List.foldlM (Recorder.record budgets) r before with
  | error e => rfl
  | ok done =>
    have counted : done.Counted := h.recordAll first
    show (resume done.finish).recordAll budgets after = done.recordAll budgets after
    rw [counted]

end Recorder

/-! ### Measures of a stream -/

namespace Stream

variable {legacy : Legacy} {label : Option String} {budgets : Budgets} {items : List StreamItem}

/-- The most bytes that are held at a time, as far as the first `n` items. -/
def mostHeld (label : Option String) (items : List StreamItem) : Nat → Nat
  | 0 => 0
  | n + 1 => max (mostHeld label items n) (buffered label items (n + 1))

namespace Receiver

variable {r r' : Receiver legacy} {i : Nat}

/-- A chunk that is received counts as held, with all that is held back before decoding starts. -/
theorem Received.receive_maxBuffered {bytes : Bytes} {elapsed : Nat} (h : r.Received label items i)
    (item : items[i]? = some (.chunk bytes))
    (done : r.receive label budgets elapsed bytes = .ok r') :
    r'.maxBuffered = max r.maxBuffered (buffered label items (i + 1)) ∧
      Measure.Within budgets ⟨.maxBufferedBytes, buffered label items (i + 1)⟩ := by
  have held : buffered label items (i + 1) =
      if r.started.isSome then bytes.length else total items (i + 1) := by
    rw [buffered, Nat.add_sub_cancel, item, h.started]
    rfl
  rw [held]
  cases running : r.started with
  | some s =>
    simp only [Receiver.receive, running, bind_eq_ok_iff, Failure.ofBudget_eq_ok_iff] at done
    obtain ⟨-, -, -, -, ⟨⟩, within, done⟩ := done
    obtain rfl := Except.ok.inj done
    exact ⟨rfl, Budgets.check_eq_ok_iff.mp within⟩
  | none =>
    have waiting : (r.pending ++ bytes).length = total items (i + 1) := by
      rw [List.length_append, h.pending running, total_succ item]
      rfl
    simp only [Receiver.receive, running, bind_eq_ok_iff, Failure.ofBudget_eq_ok_iff, waiting] at done
    obtain ⟨-, -, -, -, ⟨⟩, within, done⟩ := done
    refine ⟨?_, Budgets.check_eq_ok_iff.mp within⟩
    split at done
    · rw [bind_eq_ok_iff] at done
      obtain ⟨s, -, done⟩ := done
      obtain rfl := Except.ok.inj done
      rfl
    · obtain rfl := Except.ok.inj done
      rfl

theorem finish_measures {d : DecodedStream} (done : r.finish label = .ok d) :
    d.bytesRead = r.bytesRead ∧ d.maxBuffered = r.maxBuffered := by
  rw [finish] at done
  split at done <;>
  · obtain ⟨s, -, done⟩ := bind_eq_ok_iff.mp done
    obtain rfl := Except.ok.inj done
    exact ⟨rfl, rfl⟩

/-- When a stream has been read to its end, all its bytes have been counted, and the most bytes that
were held at a time, which is within its limit. -/
theorem Received.run_measures (h : r.Received label items i) {rest : List StreamItem}
    (left : items.drop i = rest) (count : i + rest.length = items.length)
    (most : r.maxBuffered = mostHeld label items i)
    (within : Measure.Within budgets ⟨.maxBufferedBytes, r.maxBuffered⟩) {elapsed : Nat → Nat}
    {pulls : Nat} {d : DecodedStream}
    (done : r.run label budgets elapsed rest = (pulls, .ok d)) :
    d.bytesRead = total items items.length ∧ d.maxBuffered = mostHeld label items items.length ∧
      Measure.Within budgets ⟨.maxBufferedBytes, d.maxBuffered⟩ := by
  induction rest generalizing r i elapsed pulls with
  | nil =>
    obtain rfl : i = items.length := count
    obtain ⟨read, held⟩ := finish_measures (Prod.mk.inj done).2
    rw [read, held]
    exact ⟨h.bytesRead, most, within⟩
  | cons item rest ih =>
    have here : items[i]? = some item := by
      rw [← List.head?_drop, left]
      rfl
    have left' : items.drop (i + 1) = rest := by
      rw [← List.tail_drop, left]
      rfl
    cases item with
    | failure reason => cases (Prod.mk.inj done).2
    | chunk bytes =>
      rw [Receiver.run] at done
      cases received : r.receive label budgets (elapsed 0) bytes with
      | error e =>
        rw [received] at done
        cases (Prod.mk.inj done).2
      | ok r' =>
        rw [received] at done
        have received' : r'.Received label items (i + 1) := by
          obtain ⟨r'', h'', answer⟩ := h.receive here
          rw [answer budgets { chunk := fun _ => elapsed 0 }] at received
          cases failed : failureAt label budgets { chunk := fun _ => elapsed 0 } items (i + 1) with
          | some failure => rw [failed] at received; cases received
          | none =>
            rw [failed] at received
            exact Except.ok.inj received ▸ h''
        obtain ⟨held, within'⟩ := h.receive_maxBuffered here received
        refine ih received' left' (by rw [← count, List.length_cons]; omega) ?_ ?_
          (Prod.ext rfl (Prod.mk.inj done).2)
        · rw [held, most, mostHeld]
        · rw [held]
          exact fun limit hlimit => Nat.max_le.mpr ⟨within limit hlimit, within' limit hlimit⟩

end Receiver

/-- A decoded stream has counted all its bytes, and the most bytes that were held at a time, which
is within its limit. -/
theorem decode_measures {pulls : Nat} {d : DecodedStream}
    {clock : Clock} (done : decode items label budgets legacy clock = (pulls, .ok d)) :
    d.bytesRead = total items items.length ∧ d.maxBuffered = mostHeld label items items.length ∧
      Measure.Within budgets ⟨.maxBufferedBytes, d.maxBuffered⟩ := by
  have none_yet : ({} : Receiver legacy).Received label items 0 :=
    ⟨rfl, by simp [startedAfter, total, enough], fun _ => rfl⟩
  exact none_yet.run_measures List.drop_zero (Nat.zero_add _) rfl (fun _ _ => Nat.zero_le _) done

end Stream

/-! ### Traces of documents -/

/-- The events are numbered from one and say what happened, and no limit that they show is
exceeded. -/
structure Event.Tell (events : List Event) (what : List Happening) : Prop where
  seqs : events.map Event.seq = List.range' 1 events.length
  happenings : events.map Event.happening = what
  ok : ∀ e ∈ events, ∀ b limit actual, e.happening = .budget b limit actual →
    ("status", .string "ok") ∈ e.happening.members

/-- What a document tells about how it was read from a text. -/
def Document.told (d : Document) (budgets : Budgets) (text : String) : List Happening :=
  let tokens := (tokenize text).tokens.length
  [.decode false "utf-8" .input, .budget .maxInputBytes budgets.maxInputBytes text.utf8ByteSize,
      .token tokens, .parse d.context d.root.size d.errors.length] ++
    d.errors.map (fun e => .parseError e.id e.span) ++
    [.budget .maxTokens budgets.maxTokens tokens, .budget .maxNodes budgets.maxNodes d.root.size,
      .budget .maxDepth budgets.maxDepth d.root.depth]

/-- A limit that an event shows is that of its budget, and is kept. -/
def Happening.Kept (budgets : Budgets) (what : Happening) : Prop :=
  ∀ b limit actual, what = .budget b limit actual →
    budgets.limit b = limit ∧ Measure.Within budgets ⟨b, actual⟩

theorem Happening.Kept.status_ok {budgets : Budgets} {b : Budget} {limit : Option Nat} {actual : Nat}
    (h : (Happening.budget b limit actual).Kept budgets) :
    ("status", .string "ok") ∈ (Happening.budget b limit actual).members := by
  obtain ⟨rfl, kept⟩ := h b limit actual rfl
  have within : within (budgets.limit b) actual = true := by
    rw [Happening.within, Option.all_eq_true]
    exact fun l hl => decide_eq_true (kept l hl)
  simp [members, within]

/-- Numbered events tell what happened if all limits were kept. -/
theorem Event.tell_numbered (budgets : Budgets) {what : List Happening}
    (kept : ∀ w ∈ what, w.Kept budgets) : Tell (numbered 1 what) what where
  seqs := by
    rw [numbered, List.map_map, List.length_map, List.length_zipIdx]
    exact List.zipIdx_map_snd 1 what
  happenings := by
    rw [numbered, List.map_map]
    exact List.zipIdx_map_fst 1 what
  ok e he b limit actual is_budget := by
    have mem : e.happening ∈ (numbered 1 what).map Event.happening := List.mem_map_of_mem he
    rw [numbered, List.map_map, show Event.happening ∘ _ = Prod.fst from rfl, List.zipIdx_map_fst] at mem
    rw [is_budget] at mem ⊢
    exact (kept _ mem).status_ok

namespace Prepared

variable {p : Prepared} {options : ParseOptions} {clock : Clock} {d : Document}

/-- Every limit that a document tells is kept. -/
theorem kept_told (within : ∀ m ∈ p.measures options.captureSpans, m.Within options.budgets) :
    ∀ w ∈ (p.document options).told options.budgets p.text, w.Kept options.budgets := by
  intro w hw b limit actual is_budget
  subst is_budget
  simp only [Document.told, List.mem_append, List.mem_cons, List.mem_map, List.not_mem_nil, or_false,
    reduceCtorEq, false_or, and_false, exists_false, Happening.budget.injEq] at hw
  obtain ⟨rfl, rfl, rfl⟩ | ⟨rfl, rfl, rfl⟩ | ⟨rfl, rfl, rfl⟩ | ⟨rfl, rfl, rfl⟩ := hw <;>
    exact ⟨rfl, within _ (by simp [measures, document])⟩

/-- The trace of a text that was read tells its result, and then what happened before. -/
theorem tells (traced : options.trace = true) (read : p.read options clock = .ok d)
    (further : ∀ w ∈ p.further.map (Happening.showing options.budgets), w.Kept options.budgets) :
    ∃ events, d.trace = some events ∧ Event.Tell events
      (d.told options.budgets p.text ++ p.further.map (Happening.showing options.budgets)) := by
  obtain ⟨rfl, within, -⟩ := (p.read_eq_ok_iff options clock).mp read
  have happenings : p.happenings options.budgets options.captureSpans =
      (p.document options).told options.budgets p.text ++
        p.further.map (Happening.showing options.budgets) := by
    rw [Prepared.happenings, List.map_append, Document.map_happenings, Document.happenings,
      Document.received, Document.finished, Document.told]
    simp only [List.append_assoc, List.cons_append, List.nil_append, document]
  refine ⟨Event.numbered 1 (p.happenings options.budgets options.captureSpans),
    if_pos traced, ?_⟩
  rw [happenings]
  refine Event.tell_numbered options.budgets fun w hw => ?_
  obtain told | before := List.mem_append.mp hw
  · exact kept_told within w told
  · exact further w before

end Prepared

/-- A source that was read was made into a text, and its trace tells the result of reading that, and
what happened before if all limits were kept then. -/
theorem Source.tells (source : Source) {legacy : Legacy} {options : ParseOptions} {clock : Clock}
    {d : Document} (traced : options.trace = true)
    (read : source.read legacy options clock = .ok d) :
    ∃ p, source.prepare legacy options.transportLabel options.budgets clock = .ok p ∧
      ∀ more, p.further.map (Happening.showing options.budgets) = more →
        (∀ w ∈ more, w.Kept options.budgets) →
          ∃ events, d.trace = some events ∧
            Event.Tell events (d.told options.budgets p.text ++ more) := by
  rw [read_eq, bind_eq_ok_iff] at read
  obtain ⟨p, prepared, read⟩ := read
  refine ⟨p, prepared, ?_⟩
  rintro _ rfl further
  exact Prepared.tells traced (Failure.ofBudget_eq_ok_iff.mp read) further

/-- A trace tells what a call did, and may be finished and resumed on the way. If a text was read, the
events of its trace are numbered from one and tell its measures and its errors; if it was made of
bytes, also how their encoding was found out, and of a stream also how many bytes it had and how many
were held at a time. No limit that they show is exceeded. And recording events with a recorder that is
finished on the way and resumed is recording them with one that is not: it ends with the same events,
or at the same limit. -/
theorem trace_tells (options : ParseOptions) (legacy : Legacy) (clock : Clock) :
    (options.trace = true →
      (∀ text d, (parse text options clock = .ok d ∨
            (∃ context, parseAs text context options clock = .ok d) ∨
          ∃ name, parseFragment text name options clock = .ok d) →
        ∃ events, d.trace = some events ∧ Event.Tell events (d.told options.budgets text)) ∧
      (∀ bytes d, parseBytes bytes options legacy clock = .ok d →
        ∃ text sniffed events,
          decodeBytes bytes { transportLabel := options.transportLabel } legacy =
            .ok (text, sniffed) ∧
          d.trace = some events ∧ Event.Tell events (d.told options.budgets text ++
            [.decode true sniffed.encoding.name sniffed.source])) ∧
      ∀ items pulls d, parseStream items options legacy clock = (pulls, .ok d) →
        ∃ s events,
          Stream.decode items options.transportLabel options.budgets legacy clock =
            (pulls, .ok s) ∧
          d.trace = some events ∧ Event.Tell events (d.told options.budgets s.text ++
            [.decode true s.sniffed.encoding.name s.sniffed.source,
              .stream (items.flatMap StreamItem.bytes).length,
              .budget .maxBufferedBytes options.budgets.maxBufferedBytes
                (Stream.mostHeld options.transportLabel items items.length)])) ∧
    ∀ (budgets : Budgets) (tracing : Bool) (before after : List Happening),
      (do
        let first ← (Recorder.start tracing).recordAll budgets before
        let second ← (Recorder.resume first.finish).recordAll budgets after
        .ok second.finish) =
      (do
        let whole ← (Recorder.start tracing).recordAll budgets (before ++ after)
        .ok whole.finish) := by
  refine ⟨fun traced => ⟨?text, ?bytes, ?stream⟩, ?resumed⟩
  case text =>
    -- Nothing happened before the text was read.
    have plain (source : Source) {text : String} {kind : DocumentKind} {context : Context}
        {d : Document} (read : source.read legacy options clock = .ok d)
        (prepare : source.prepare legacy options.transportLabel options.budgets clock =
          .ok ⟨text, kind, context, []⟩) :
        ∃ events, d.trace = some events ∧ Event.Tell events (d.told options.budgets text) := by
      obtain ⟨p, prepared, tells⟩ := Source.tells source traced read
      obtain rfl := Except.ok.inj (prepare.symm.trans prepared)
      obtain ⟨events, trace, told⟩ := tells [] rfl (List.forall_mem_nil _)
      rw [List.append_nil] at told
      exact ⟨events, trace, told⟩
    rintro text d (read | ⟨context, read⟩ | ⟨name, read⟩)
    · exact plain (.sheet text) read rfl
    · exact plain (.part text context) read rfl
    · cases named : Context.ofName? name with
      | none => rw [parseFragment, named] at read; cases read
      | some context =>
        rw [parseFragment, named] at read
        exact plain (.part text context) read rfl
  case bytes =>
    intro bytes d read
    obtain ⟨p, prepared, tells⟩ := Source.tells (.bytes bytes) traced read
    rw [Source.prepare, bind_eq_ok_iff] at prepared
    obtain ⟨-, -, prepared⟩ := prepared
    obtain ⟨⟨text, sniffed⟩, decoded, made⟩ := bind_eq_ok_iff.mp prepared
    obtain rfl := Except.ok.inj made
    obtain ⟨events, trace, told⟩ := tells [.decode true sniffed.encoding.name sniffed.source] rfl
      (by simp [Happening.Kept])
    exact ⟨text, sniffed, events, decoded, trace, told⟩
  case stream =>
    intro items pulls d read
    have result : (parseStream items options legacy clock).2 = .ok d := congrArg Prod.snd read
    obtain ⟨p, prepared, tells⟩ := Source.tells (.stream items) traced result
    obtain ⟨s, decoded, made⟩ := bind_eq_ok_iff.mp prepared
    obtain rfl := Except.ok.inj made
    have decode : Stream.decode items options.transportLabel options.budgets legacy clock =
        (pulls, .ok s) := Prod.ext (congrArg Prod.fst read :) decoded
    obtain ⟨bytes, held, within⟩ := Stream.decode_measures decode
    have total : s.bytesRead = (items.flatMap StreamItem.bytes).length := by
      rw [bytes, Stream.total, List.take_length]
    obtain ⟨events, trace, told⟩ := tells
      [.decode true s.sniffed.encoding.name s.sniffed.source, .stream s.bytesRead,
        .budget .maxBufferedBytes options.budgets.maxBufferedBytes s.maxBuffered] rfl
      (by simpa [Happening.Kept, Budgets.limit] using within)
    rw [total, held] at told
    exact ⟨s, events, decode, trace, told⟩
  case resumed =>
    intro budgets tracing before after
    rw [← Recorder.recordAll_resumed (Recorder.counted_start tracing), bind_assoc]

/-- The trace of a text with an error. -/
theorem trace_tells_unclosed : ∃ d events, d.errors ≠ [] ∧
    parse "a\x7b" { trace := true } = .ok d ∧ d.trace = some events ∧
      Event.Tell events (d.told {} "a\x7b") := by
  have succeeds : (parse "a\x7b" { trace := true }).toOption.any (!·.errors.isEmpty) := by
    decide +kernel
  obtain ⟨d, hd, errors⟩ := Option.any_eq_true _ _ |>.mp succeeds
  have read := toOption_eq_some_iff.mp hd
  obtain ⟨events, trace, told⟩ := ((trace_tells { trace := true } .ascii {}).1 rfl).1 _ d (.inl read)
  exact ⟨d, events, by simpa using errors, read, trace, told⟩

end Stylesheet
