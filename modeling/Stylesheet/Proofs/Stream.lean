import Stylesheet.Stream
import Stylesheet.Proofs.Decoding
import Stylesheet.Proofs.Document

/-!
# Streams

A stream fixes its encoding once, from the bytes it has held back until then: `Stream.decisive`.
From there on every chunk goes through one decoder, so the text of a stream is that of all its bytes
in the encoding of the decisive ones.

Without a transport label the decisive bytes are enough to find out the encoding of all bytes, and
reading a stream ends like reading its bytes at once. With one, the first chunk decides, so the two
agree only if that chunk is long enough.
-/

namespace Stylesheet

open Encoding (Legacy Decoder)

/-- Two ways of reading both succeed, with the same tree, numbers and spans included, and the same
errors. Their traces may differ. -/
def SameReading (x y : Except Failure Document) : Prop :=
  ∃ d d', x = .ok d ∧ y = .ok d' ∧ d.root = d'.root ∧ d.errors = d'.errors

/-- Two ways of reading both succeed with the same result, or both exceed the same budget. -/
def SameOutcome (x y : Except Failure Document) : Prop :=
  SameReading x y ∨
    ∃ e e', x = .error (.budget e) ∧ y = .error (.budget e') ∧ e.budget = e'.budget

section

variable {x y z : Except Failure Document}

theorem SameReading.symm (h : SameReading x y) : SameReading y x := by
  obtain ⟨d, d', hx, hy, root, errors⟩ := h
  exact ⟨d', d, hy, hx, root.symm, errors.symm⟩

theorem SameReading.trans (h : SameReading x y) (h' : SameReading y z) : SameReading x z := by
  obtain ⟨d, d', hx, rfl, root, errors⟩ := h
  obtain ⟨_, d'', ⟨⟩, hz, root', errors'⟩ := h'
  exact ⟨d, d'', hx, hz, root.trans root', errors.trans errors'⟩

end

namespace Budgets

variable {budgets : Budgets} {b : Budget} {n m : Nat}

/-- What is within a limit stays so when it shrinks. -/
theorem check_mono (h : budgets.check b n = .ok ()) (le : m ≤ n) : budgets.check b m = .ok () := by
  rw [check, Budget.enforce_eq_ok_iff] at h ⊢
  intro l hl
  exact Nat.le_trans le (h l hl)

/-- However a stream comes, no limit is exceeded: neither the bytes that are held at a time are limited
nor the time. -/
structure Unhindered (budgets : Budgets) : Prop where
  buffered : budgets.maxBufferedBytes = none
  time : budgets.maxTimeMs = none

theorem Unhindered.check_buffered (free : budgets.Unhindered) (n : Nat) :
    budgets.check .maxBufferedBytes n = .ok () := by
  rw [check, limit, free.buffered, Budget.enforce]

theorem Unhindered.check_time (free : budgets.Unhindered) (elapsed : Nat) :
    budgets.check .maxTimeMs elapsed = .ok () :=
  check_untimed free.time elapsed

theorem check_cases (budgets : Budgets) (b : Budget) (n : Nat) :
    budgets.check b n = .ok () ∨ ∃ e, e.budget = b ∧ budgets.check b n = .error e := by
  cases h : budgets.check b n with
  | ok u => exact .inl rfl
  | error e => exact .inr ⟨e, (Budget.enforce_eq_error_iff.mp h).2.2.1, rfl⟩

end Budgets

namespace Stream

variable {legacy : Legacy} {label : Option String} {budgets : Budgets}

/-- The bytes from which a stream finds out its encoding, given those held back so far: it waits
for enough of them, or with a label only for the first chunk. -/
def decisive (label : Option String) (pending : Bytes) : List Bytes → Bytes
  | [] => pending
  | chunk :: chunks =>
    if label.isSome || enough ≤ (pending ++ chunk).length then pending ++ chunk
    else decisive label (pending ++ chunk) chunks

theorem decisive_some (l : String) (chunks : List Bytes) :
    decisive (some l) [] chunks = chunks.headD [] := by
  cases chunks with
  | nil => rfl
  | cons chunk chunks => rfl

/-- Without a label the decisive bytes are all bytes, or enough of them. -/
theorem decisive_none (pending : Bytes) (chunks : List Bytes) :
    ∃ rest, pending ++ chunks.flatten = decisive none pending chunks ++ rest ∧
      (rest = [] ∨ enough ≤ (decisive none pending chunks).length) := by
  induction chunks generalizing pending with
  | nil => exact ⟨[], rfl, .inl rfl⟩
  | cons chunk chunks ih =>
    rw [decisive, List.flatten_cons, ← List.append_assoc]
    split
    · rename_i h
      exact ⟨chunks.flatten, rfl, .inr (by simpa using h)⟩
    · exact ih (pending ++ chunk)

namespace Receiver

variable {r : Receiver legacy} {sniffed : Sniffed} {bytes chunk : Bytes} {elapsed : Nat}

/-- All bytes so far have gone through a decoder for the encoding that was found out. -/
structure Decodes (r : Receiver legacy) (sniffed : Sniffed) (bytes : Bytes) : Prop where
  bytesRead : r.bytesRead = bytes.length
  started : ∃ s, r.started = some s ∧ s.sniffed = sniffed ∧
    (Decoder.start sniffed.encoding legacy).push bytes = (s.decoder, s.text)

/-- All bytes so far are held back. -/
structure Waits (r : Receiver legacy) (bytes : Bytes) : Prop where
  bytesRead : r.bytesRead = bytes.length
  pending : r.pending = bytes
  started : r.started = none

theorem start_eq_ok (legacy : Legacy) (h : sniff bytes { transportLabel := label } = .ok sniffed) :
    ∃ s : Started legacy, start label bytes = .ok s ∧ s.sniffed = sniffed ∧
      (Decoder.start sniffed.encoding legacy).push bytes = (s.decoder, s.text) := by
  refine ⟨⟨_, sniffed, _⟩, ?_, rfl, rfl⟩
  rw [start, show enough = 1024 from rfl, h]
  rfl

/-! ### Receiving a chunk -/

theorem receive_exceeded {e : BudgetExceeded}
    (h : budgets.check .maxInputBytes (r.bytesRead + chunk.length) = .error e) :
    r.receive label budgets elapsed chunk = .error (.budget e) := by
  rw [receive, h]
  rfl

theorem Decodes.receive (label : Option String) (h : r.Decodes sniffed bytes)
    (free : budgets.Unhindered)
    (within : budgets.check .maxInputBytes (bytes ++ chunk).length = .ok ()) :
    ∃ r', r.receive label budgets elapsed chunk = .ok r' ∧ r'.Decodes sniffed (bytes ++ chunk) := by
  obtain ⟨read, s, hs, rfl, hpush⟩ := h
  rw [List.length_append, ← read] at within
  refine ⟨⟨r.bytesRead + chunk.length, max r.maxBuffered chunk.length, [],
    some ⟨(s.decoder.push chunk).1, s.sniffed, s.text ++ (s.decoder.push chunk).2⟩⟩, ?_, ?_⟩
  · rw [Receiver.receive, within, hs]
    simp only [free.check_time, free.check_buffered]
    rfl
  · refine ⟨by simp [read], _, rfl, rfl, ?_⟩
    rw [Decoder.push_append, hpush]

/-- A chunk that leaves the encoding open is held back. -/
theorem Waits.receive (h : r.Waits bytes) (free : budgets.Unhindered)
    (within : budgets.check .maxInputBytes (bytes ++ chunk).length = .ok ())
    (wait : (label.isSome || enough ≤ (bytes ++ chunk).length) = false) :
    ∃ r', r.receive label budgets elapsed chunk = .ok r' ∧ r'.Waits (bytes ++ chunk) := by
  obtain ⟨read, rfl, hs⟩ := h
  rw [List.length_append, ← read] at within
  refine ⟨⟨r.bytesRead + chunk.length, max r.maxBuffered (r.pending ++ chunk).length,
    r.pending ++ chunk, none⟩, ?_, ?_⟩
  · rw [Receiver.receive, within, hs]
    simp only [free.check_time, free.check_buffered, wait]
    rfl
  · exact ⟨by simp [read], rfl, rfl⟩

/-- The chunk that decides about the encoding starts the decoder. -/
theorem Waits.receive_decisive (h : r.Waits bytes) (free : budgets.Unhindered)
    (within : budgets.check .maxInputBytes (bytes ++ chunk).length = .ok ())
    (decide : (label.isSome || enough ≤ (bytes ++ chunk).length) = true)
    (found : sniff (bytes ++ chunk) { transportLabel := label } = .ok sniffed) :
    ∃ r', r.receive label budgets elapsed chunk = .ok r' ∧ r'.Decodes sniffed (bytes ++ chunk) := by
  obtain ⟨read, rfl, hs⟩ := h
  obtain ⟨s, hstart, hsniffed, hpush⟩ := start_eq_ok legacy found
  rw [List.length_append, ← read] at within
  refine ⟨⟨r.bytesRead + chunk.length, max r.maxBuffered (r.pending ++ chunk).length, [],
    some s⟩, ?_, ?_⟩
  · rw [Receiver.receive, within, hs]
    simp only [free.check_time, free.check_buffered, decide, hstart]
    rfl
  · exact ⟨by simp [read], s, rfl, hsniffed, hpush⟩

/-- Within the limit on bytes no chunk is refused. -/
theorem receive_reads (label : Option String)
    (h : (∃ sniffed, r.Decodes sniffed bytes) ∨ r.Waits bytes)
    (free : budgets.Unhindered)
    (within : budgets.check .maxInputBytes (bytes ++ chunk).length = .ok ()) :
    ∃ r', r.receive label budgets elapsed chunk = .ok r' ∧
      ((∃ sniffed, r'.Decodes sniffed (bytes ++ chunk)) ∨ r'.Waits (bytes ++ chunk)) := by
  obtain ⟨sniffed, h⟩ | h := h
  · obtain ⟨r', hr, h'⟩ := h.receive label free within
    exact ⟨r', hr, .inl ⟨sniffed, h'⟩⟩
  · cases hw : label.isSome || enough ≤ (bytes ++ chunk).length with
    | false =>
      obtain ⟨r', hr, h'⟩ := h.receive free within hw
      exact ⟨r', hr, .inr h'⟩
    | true =>
      obtain ⟨sniffed, found⟩ := exists_sniff { transportLabel := label } (bytes ++ chunk) rfl
      obtain ⟨r', hr, h'⟩ := h.receive_decisive free within hw found
      exact ⟨r', hr, .inl ⟨sniffed, h'⟩⟩

/-! ### Receiving a stream -/

variable {elapsed : Nat → Nat}

/-- A receiver that decodes ends with the text of all bytes. -/
theorem Decodes.run (h : r.Decodes sniffed bytes) (free : budgets.Unhindered)
    (chunks : List Bytes)
    (within : budgets.check .maxInputBytes (bytes ++ chunks.flatten).length = .ok ()) :
    ∃ d, (r.run label budgets elapsed (chunks.map .chunk)).2 = .ok d ∧ d.sniffed = sniffed ∧
      d.text = sniffed.encoding.decode (bytes ++ chunks.flatten) legacy := by
  induction chunks generalizing r bytes elapsed with
  | nil =>
    obtain ⟨-, s, hs, hsniffed, hpush⟩ := h
    refine ⟨⟨s.text ++ s.decoder.finish, s.sniffed, r.bytesRead, r.maxBuffered⟩, ?_, hsniffed, ?_⟩
    · simp only [List.map_nil, Receiver.run, Receiver.finish, hs]
      rfl
    · rw [List.flatten_nil, List.append_nil]
      exact Encoding.decode_eq hpush
  | cons chunk chunks ih =>
    rw [List.flatten_cons, ← List.append_assoc] at within ⊢
    have front := Budgets.check_mono within (m := (bytes ++ chunk).length) (by simp)
    obtain ⟨r', hr, h'⟩ := h.receive label free front
    rw [List.map_cons, Receiver.run, hr]
    exact ih h' within

/-- A receiver that waits ends with the text of all bytes in the encoding that the decisive ones
are found to have. -/
theorem Waits.run (h : r.Waits bytes) (free : budgets.Unhindered)
    (chunks : List Bytes)
    (within : budgets.check .maxInputBytes (bytes ++ chunks.flatten).length = .ok ())
    (found : sniff (decisive label bytes chunks) { transportLabel := label } = .ok sniffed) :
    ∃ d, (r.run label budgets elapsed (chunks.map .chunk)).2 = .ok d ∧ d.sniffed = sniffed ∧
      d.text = sniffed.encoding.decode (bytes ++ chunks.flatten) legacy := by
  induction chunks generalizing r bytes elapsed with
  | nil =>
    obtain ⟨-, rfl, hs⟩ := h
    rw [decisive] at found
    obtain ⟨s, hstart, hsniffed, hpush⟩ := start_eq_ok legacy found
    refine ⟨⟨s.text ++ s.decoder.finish, s.sniffed, r.bytesRead, r.maxBuffered⟩, ?_, hsniffed, ?_⟩
    · simp only [List.map_nil, Receiver.run, Receiver.finish, hs, hstart]
      rfl
    · rw [List.flatten_nil, List.append_nil]
      exact Encoding.decode_eq hpush
  | cons chunk chunks ih =>
    rw [List.flatten_cons, ← List.append_assoc] at within ⊢
    have front := Budgets.check_mono within (m := (bytes ++ chunk).length) (by simp)
    rw [decisive] at found
    rw [List.map_cons, Receiver.run]
    split at found
    · rename_i decide
      obtain ⟨r', hr, h'⟩ := h.receive_decisive free front decide found
      rw [hr]
      exact h'.run free chunks within
    · rename_i wait
      obtain ⟨r', hr, h'⟩ := h.receive free front (Bool.not_eq_true _ ▸ wait)
      rw [hr]
      exact ih h' within found

/-- Once the limit on bytes is exceeded the stream ends with that. -/
theorem run_exceeded (free : budgets.Unhindered) (chunks : List Bytes)
    (h : (∃ sniffed, r.Decodes sniffed bytes) ∨ r.Waits bytes)
    (within : budgets.check .maxInputBytes bytes.length = .ok ())
    (exceeded : budgets.check .maxInputBytes (bytes ++ chunks.flatten).length ≠ .ok ()) :
    ∃ e, e.budget = .maxInputBytes ∧
      (r.run label budgets elapsed (chunks.map .chunk)).2 = .error (.budget e) := by
  induction chunks generalizing r bytes elapsed with
  | nil =>
    rw [List.flatten_nil, List.append_nil] at exceeded
    exact absurd within exceeded
  | cons chunk chunks ih =>
    rw [List.flatten_cons, ← List.append_assoc] at exceeded
    rw [List.map_cons, Receiver.run]
    obtain front | ⟨e, he, hfront⟩ :=
      Budgets.check_cases budgets .maxInputBytes (bytes ++ chunk).length
    · obtain ⟨r', hr, h'⟩ := receive_reads label h free front
      rw [hr]
      exact ih h' front exceeded
    · have read : r.bytesRead = bytes.length := by
        obtain ⟨_, h⟩ | h := h
        · exact h.bytesRead
        · exact h.bytesRead
      rw [receive_exceeded (e := e) (by rwa [read, ← List.length_append])]
      exact ⟨e, he, rfl⟩

end Receiver

variable {clock : Clock}

/-- Within the limit on bytes, a stream has the text of all its bytes in the encoding that the
decisive ones are found to have. -/
theorem decode_within (budgets : Budgets) (legacy : Legacy)
    (free : budgets.Unhindered) (chunks : List Bytes)
    (within : budgets.check .maxInputBytes chunks.flatten.length = .ok ()) {sniffed : Sniffed}
    (found : sniff (decisive label [] chunks) { transportLabel := label } = .ok sniffed) :
    ∃ d, (decode (chunks.map .chunk) label budgets legacy clock).2 = .ok d ∧ d.sniffed = sniffed ∧
      d.text = sniffed.encoding.decode chunks.flatten legacy :=
  Receiver.Waits.run ⟨rfl, rfl, rfl⟩ free chunks within found

theorem decode_exceeded (label : Option String) (budgets : Budgets) (legacy : Legacy)
    (free : budgets.Unhindered) (chunks : List Bytes)
    (exceeded : budgets.check .maxInputBytes chunks.flatten.length ≠ .ok ()) :
    ∃ e, e.budget = .maxInputBytes ∧
      (decode (chunks.map .chunk) label budgets legacy clock).2 = .error (.budget e) := by
  refine Receiver.run_exceeded free chunks (.inr ⟨rfl, rfl, rfl⟩) ?_ exceeded
  rw [Budgets.check, Budget.enforce_eq_ok_iff]
  exact fun l _ => Nat.zero_le l

end Stream

/-! ### Reading what has been decoded -/

namespace Document

variable {text : String} {kind : DocumentKind} {context : Context} {options : ParseOptions}
variable {budgets : Budgets}

theorem record_untraced {r : Recorder} (h : r.events = none) (what : Happening) :
    r.record budgets what = .ok r := by
  rw [Recorder.record, h]

theorem recordAll_untraced {r : Recorder} (h : r.events = none) (what : List Happening) :
    r.recordAll budgets what = .ok r := by
  induction what with
  | nil => rfl
  | cons w what ih =>
    rw [Recorder.recordAll, List.foldlM_cons, record_untraced h]
    exact ih

/-- Nothing is added to the trace of a document that has none. -/
theorem extendTrace_untraced {d : Document} (budgets : Budgets) (h : d.trace = none)
    (what : List Happening) :
    ∃ d', d.extendTrace budgets what = .ok d' ∧ d'.root = d.root ∧ d'.errors = d.errors := by
  have resumed : (Recorder.resume d.trace).events = none := by rw [h]; rfl
  refine ⟨{ d with trace := (Recorder.resume d.trace).finish }, ?_, rfl, rfl⟩
  rw [extendTrace, recordAll_untraced resumed]
  rfl

/-- A trace without limits can always be continued. -/
theorem extendTrace_unlimited (d : Document) (what : List Happening) :
    ∃ d', d.extendTrace {} what = .ok d' ∧ d'.root = d.root ∧ d'.errors = d.errors := by
  obtain ⟨done, h⟩ := recordAll_unlimited (.resume d.trace) what
  refine ⟨{ d with trace := done.finish }, ?_, rfl, rfl⟩
  rw [extendTrace, h]
  rfl

/-- Where no trace was asked for there is none. -/
theorem readWithin_untraced {d : Document} (off : options.trace = false)
    (h : readWithin text kind context options clock = .ok d) : d.trace = none := by
  have started : (Recorder.start options.trace).events = none := by rw [off]; rfl
  simp only [readWithin, recordAll_untraced started, bind_eq_ok_iff] at h
  obtain ⟨-, -, _, ⟨⟩, -, -, -, -, r, hr, -, -, -, -, -, -, done, hdone, h⟩ := h
  rw [record_untraced started, Except.ok.injEq] at hr
  subst hr
  rw [recordAll_untraced started, Except.ok.injEq] at hdone
  subst hdone
  cases h
  rw [Recorder.finish, started]
  rfl

/-- Reading a text and then going on with the trace of its document. -/
def readAndTrace (text : String) (options : ParseOptions) (clock : Clock)
    (what : List Happening) : Except Failure Document := do
  let d ← parse text options clock
  Failure.ofBudget (d.extendTrace options.budgets what)

/-- Without limits the trace does not matter to what is read. -/
theorem sameReading_readAndTrace (text : String) (options : ParseOptions) (clock clock' : Clock)
    (what : List Happening) (unlimited : options.budgets = {}) :
    SameReading (readAndTrace text options clock what) (parse text options clock') := by
  obtain ⟨d, hd⟩ := exists_readWithin text .stylesheet .stylesheet options {}
  obtain ⟨d', hd', root, errors⟩ := extendTrace_unlimited d what
  have read (clock : Clock) : parse text options clock = .ok d := by
    rw [← unlimited, readWithin_untimed (by rw [unlimited]) {} clock] at hd
    exact congrArg Failure.ofBudget hd
  refine ⟨d', d, ?_, read clock', root, errors⟩
  rw [readAndTrace, read, unlimited]
  exact congrArg Failure.ofBudget hd'

/-- Without a trace there is nothing to go on with. -/
theorem sameOutcome_readAndTrace (text : String) (what what' : List Happening)
    (off : options.trace = false) (untimed : options.budgets.maxTimeMs = none)
    (clock clock' : Clock) :
    SameOutcome (readAndTrace text options clock what)
      (readAndTrace text options clock' what') := by
  have same_pace : readAndTrace text options clock' what' =
      readAndTrace text options clock what' := by
    rw [readAndTrace, readAndTrace, parse, parse, readWithin_untimed untimed clock' clock]
  rw [same_pace]
  cases h : readWithin text .stylesheet .stylesheet options clock with
  | error e =>
    have failed (what : List Happening) :
        readAndTrace text options clock what = .error (.budget e) := by
      rw [readAndTrace, parse, h]
      rfl
    exact .inr ⟨e, e, failed what, failed what', rfl⟩
  | ok d =>
    have untraced := readWithin_untraced off h
    have read (what : List Happening) : ∃ d', readAndTrace text options clock what = .ok d' ∧
        d'.root = d.root ∧ d'.errors = d.errors := by
      obtain ⟨d', hd', same⟩ := extendTrace_untraced options.budgets untraced what
      refine ⟨d', ?_, same⟩
      rw [readAndTrace, parse, h]
      exact congrArg Failure.ofBudget hd'
    obtain ⟨d₁, h₁, root₁, errors₁⟩ := read what
    obtain ⟨d₂, h₂, root₂, errors₂⟩ := read what'
    exact .inl ⟨d₁, d₂, h₁, h₂, root₁.trans root₂.symm, errors₁.trans errors₂.symm⟩

end Document

section

open Document

variable {bytes : Bytes} {items : List StreamItem} {legacy : Legacy} {clock : Clock}

/-- Bytes within their limit are read as the text that they decode to. -/
theorem parseBytes_eq (options : ParseOptions) {sniffed : Sniffed}
    (within : options.budgets.check .maxInputBytes bytes.length = .ok ())
    (found : sniff bytes { transportLabel := options.transportLabel } = .ok sniffed) :
    parseBytes bytes options legacy clock =
      readAndTrace (sniffed.encoding.decode bytes legacy) options clock [sniffed.happening] := by
  rw [parseBytes, within, decodeBytes, found]
  rfl

/-- A stream that can be decoded is read as its text. -/
theorem parseStream_eq (options : ParseOptions) {d : DecodedStream}
    (h : (Stream.decode items options.transportLabel options.budgets legacy clock).2 = .ok d) :
    ∃ what,
      (parseStream items options legacy clock).2 = readAndTrace d.text options clock what := by
  refine ⟨[d.sniffed.happening, .stream d.bytesRead,
    .budget .maxBufferedBytes options.budgets.maxBufferedBytes d.maxBuffered], ?_⟩
  simp only [parseStream, h]
  rfl

/-- Without a label the decisive bytes of a stream decide like all its bytes. -/
theorem sniff_decisive_none (chunks : List Bytes) :
    sniff (Stream.decisive none [] chunks) {} = sniff chunks.flatten {} := by
  obtain ⟨rest, hall, rfl | long⟩ := Stream.decisive_none [] chunks
  · rw [List.append_nil] at hall
    rw [← hall]
    rfl
  · have mark : 3 ≤ Stream.enough := by decide
    rw [List.nil_append] at hall
    rw [hall, sniff_append {} (Nat.le_trans mark long) long]

/-- Without a label, a trace and limits on held back bytes and on time, reading a stream ends like
reading its bytes at once, wherever they are cut into chunks and however slowly they come. Without any
limits its tokens are those of the text that all its bytes decode to. -/
theorem parseStream_sameOutcome (chunks : List Bytes) (options : ParseOptions) (legacy : Legacy)
    (clock clock' : Clock) :
    let untraced : ParseOptions :=
      { options with
        transportLabel := none
        trace := false
        budgets := { options.budgets with maxBufferedBytes := none, maxTimeMs := none } }
    SameOutcome (parseStream (chunks.map .chunk) untraced legacy clock).2
        (parseBytes chunks.flatten untraced legacy clock') ∧
      ∃ text sniffed, decodeBytes chunks.flatten {} legacy = .ok (text, sniffed) ∧
        (tokenizeStream (chunks.map .chunk) {} legacy clock).2 = .ok (tokenize text) := by
  intro untraced
  have free : untraced.budgets.Unhindered := ⟨rfl, rfl⟩
  obtain ⟨sniffed, found⟩ := exists_sniff {} chunks.flatten rfl
  have decided := (sniff_decisive_none chunks).trans found
  constructor
  · obtain within | ⟨e, he, exceeded⟩ :=
      Budgets.check_cases untraced.budgets .maxInputBytes chunks.flatten.length
    · obtain ⟨d, hd, -, text⟩ :=
        Stream.decode_within untraced.budgets legacy free chunks within decided
      obtain ⟨what, hwhat⟩ := parseStream_eq untraced hd
      rw [hwhat, text, parseBytes_eq untraced within found]
      exact sameOutcome_readAndTrace _ _ _ rfl rfl clock clock'
    · obtain ⟨e', he', hd⟩ := Stream.decode_exceeded none untraced.budgets legacy free chunks
        (by rw [exceeded]; exact nofun)
      refine .inr ⟨e', e, ?_, ?_, he'.trans he.symm⟩
      · simp only [parseStream]
        rw [hd]
        rfl
      · rw [parseBytes, exceeded]
        rfl
  · obtain ⟨d, hd, -, text⟩ := Stream.decode_within {} legacy ⟨rfl, rfl⟩ chunks
      (check_unlimited _ _) decided
    refine ⟨_, sniffed, by rw [decodeBytes, found]; rfl, ?_⟩
    simp only [tokenizeStream]
    rw [hd, ← text]
    rfl

/-- The first chunk is long enough to decide about the encoding of all bytes: it is all of them, it
holds a whole `@charset` rule if there is one, or a label names the encoding and no byte order mark
is cut. -/
def DecidesAll (label : String) (first all : Bytes) : Prop :=
  first = all ∨ Stream.enough ≤ first.length ∨
    3 ≤ first.length ∧ (Encoding.ofLabel? label).isSome

theorem DecidesAll.sniff_eq {label : String} {first rest : Bytes}
    (h : DecidesAll label first (first ++ rest)) :
    sniff (first ++ rest) { transportLabel := some label } =
      sniff first { transportLabel := some label } := by
  obtain h | h | ⟨mark, named⟩ := h
  · rw [← h]
  · have mark : 3 ≤ Stream.enough := by decide
    exact sniff_append _ (Nat.le_trans mark h) h
  · obtain ⟨e, he⟩ := Option.isSome_iff_exists.mp named
    have resolves : (some label).bind Encoding.ofLabel? = some e := by rw [Option.bind_some, he]
    exact sniff_append_of_label { transportLabel := some label } mark resolves

/-- With a label and without limits, a stream is read as the text that all its bytes decode to in
the encoding that its first chunk is found to have. So it is read like its bytes at once if its
first chunk is found to have the encoding of all bytes, and that is so if the chunk is long
enough. -/
theorem parseStream_labelled (label : String) (chunks : List Bytes) (options : ParseOptions)
    (legacy : Legacy) (clock clock' : Clock) :
    let labelled : ParseOptions :=
      { options with transportLabel := some label, budgets := {} }
    let found (bytes : Bytes) := sniff bytes { transportLabel := some label }
    let first := chunks.headD []
    (∃ sniffed, found first = .ok sniffed ∧
      SameReading (parseStream (chunks.map .chunk) labelled legacy clock).2
        (parse (sniffed.encoding.decode chunks.flatten legacy) labelled clock')) ∧
    (found first = found chunks.flatten →
      SameReading (parseStream (chunks.map .chunk) labelled legacy clock).2
        (parseBytes chunks.flatten labelled legacy clock')) ∧
    (DecidesAll label first chunks.flatten → found first = found chunks.flatten) := by
  intro labelled found first
  obtain ⟨sniffed, hfirst⟩ := exists_sniff { transportLabel := some label } first rfl
  have decided : sniff (Stream.decisive (some label) [] chunks) { transportLabel := some label } =
      .ok sniffed := by
    rw [Stream.decisive_some]
    exact hfirst
  obtain ⟨d, hd, -, text⟩ := Stream.decode_within {} legacy ⟨rfl, rfl⟩ chunks
    (check_unlimited _ _) decided
  obtain ⟨what, hwhat⟩ := parseStream_eq labelled hd
  have read := sameReading_readAndTrace d.text labelled clock clock' what rfl
  rw [← hwhat, text] at read
  refine ⟨⟨sniffed, hfirst, read⟩, ?_, ?_⟩
  · intro same
    have hall : sniff chunks.flatten { transportLabel := some label } = .ok sniffed :=
      same.symm.trans hfirst
    rw [parseBytes_eq labelled (check_unlimited _ _) hall]
    exact read.trans (sameReading_readAndTrace _ labelled clock' clock' _ rfl).symm
  · intro long
    cases chunks with
    | nil => rfl
    | cons chunk chunks => exact long.sniff_eq.symm

/-- A byte order mark that the end of the first chunk cuts is missed, and the label counts. -/
theorem not_sameReading_of_cut_mark :
    ¬ SameReading
      (parseStream ([[0xEF], [0xBB, 0xBF]].map .chunk) { transportLabel := some "latin1" }).2
      (parseBytes [[0xEF], [0xBB, 0xBF]].flatten { transportLabel := some "latin1" }) := by
  rintro ⟨d, d', hstream, hbytes, -, errors⟩
  have differ : (parseStream ([[0xEF], [0xBB, 0xBF]].map .chunk)
        { transportLabel := some "latin1" }).2.toOption.map (·.errors.length) ≠
      (parseBytes [[0xEF], [0xBB, 0xBF]].flatten
        { transportLabel := some "latin1" }).toOption.map (·.errors.length) := by
    decide +kernel
  rw [hstream, hbytes] at differ
  exact differ (congrArg (some ∘ List.length) errors)

end

end Stylesheet
