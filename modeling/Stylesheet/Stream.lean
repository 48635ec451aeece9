import Stylesheet.Document
import Stylesheet.Encoding.Sniff

/-!
# Reading bytes

Bytes are read as a style sheet at once or from a stream of chunks. Either way their encoding is
found out first. A stream is held back until it is known: until enough bytes for a `@charset` rule
are there, or the stream ends, or at once if the transport gave a label.

Limits on a stream, that on time included, are checked after each chunk, so no further chunk is asked
for once one of them is exceeded. The text of a stream is then read with a time of its own.
-/

namespace Stylesheet

/-- What a stream yields when it is asked for its next item. -/
inductive StreamItem where
  | chunk (bytes : Bytes)
  | failure (reason : String)
  deriving DecidableEq, Repr, Inhabited

/-- A stream that has been read to its end. -/
structure DecodedStream where
  text : String
  sniffed : Sniffed
  bytesRead : Nat
  /-- The most bytes that were held at a time. -/
  maxBuffered : Nat
  deriving DecidableEq, Repr, Inhabited

namespace Stream

open Encoding (Legacy)

/-- A decoder that runs and the text it has made. -/
structure Started (legacy : Legacy) where
  decoder : Encoding.Decoder legacy
  sniffed : Sniffed
  text : String

/-- What has been received of a stream. -/
structure Receiver (legacy : Legacy) where
  bytesRead : Nat := 0
  maxBuffered : Nat := 0
  /-- The bytes held back before decoding starts. -/
  pending : Bytes := []
  started : Option (Started legacy) := none

variable {legacy : Legacy}

/-- The number of bytes that are enough to find out the encoding. -/
def enough : Nat := 1024

/-- Find out the encoding of the bytes so far and decode them. -/
def start (label : Option String) (pending : Bytes) : Except Failure (Started legacy) := do
  let sniffed ← sniff pending { transportLabel := label, maxPrescan := enough }
  let (decoder, text) := (Encoding.Decoder.start sniffed.encoding legacy).push pending
  .ok ⟨decoder, sniffed, text⟩

namespace Receiver

/-- Receive a chunk, `elapsed` milliseconds after the stream was first asked for one. -/
def receive (label : Option String) (budgets : Budgets) (r : Receiver legacy) (elapsed : Nat)
    (bytes : Bytes) : Except Failure (Receiver legacy) := do
  let read := r.bytesRead + bytes.length
  Failure.ofBudget (budgets.check .maxInputBytes read)
  Failure.ofBudget (budgets.check .maxTimeMs elapsed)
  match r.started with
  | some s =>
    Failure.ofBudget (budgets.check .maxBufferedBytes bytes.length)
    let (decoder, added) := s.decoder.push bytes
    .ok ⟨read, max r.maxBuffered bytes.length, [], some ⟨decoder, s.sniffed, s.text ++ added⟩⟩
  | none =>
    let pending := r.pending ++ bytes
    let buffered := max r.maxBuffered pending.length
    Failure.ofBudget (budgets.check .maxBufferedBytes pending.length)
    if label.isSome || enough ≤ pending.length then
      .ok ⟨read, buffered, [], some (← start label pending)⟩
    else .ok ⟨read, buffered, pending, none⟩

/-- Receive the end of the stream. -/
def finish (label : Option String) (r : Receiver legacy) : Except Failure DecodedStream := do
  let s ← match r.started with
    | some s => .ok s
    | none => start label r.pending
  .ok ⟨s.text ++ s.decoder.finish, s.sniffed, r.bytesRead, r.maxBuffered⟩

/-- Receive items until the stream ends or fails, and answer also how many times it was asked for
an item, its end included. The item at index `i` comes after `elapsed i` milliseconds. -/
def run (label : Option String) (budgets : Budgets) (elapsed : Nat → Nat) (r : Receiver legacy) :
    List StreamItem → Nat × Except Failure DecodedStream
  | [] => (1, r.finish label)
  | .failure reason :: _ => (1, .error (.readFailed reason))
  | .chunk bytes :: items =>
    match r.receive label budgets (elapsed 0) bytes with
    | .error e => (1, .error e)
    | .ok r =>
      let (pulls, result) := run label budgets (fun i => elapsed (i + 1)) r items
      (pulls + 1, result)

end Receiver

/-- Read a stream to its end and decode it; the first answer is how many times it was asked for an
item. -/
def decode (items : List StreamItem) (label : Option String) (budgets : Budgets)
    (legacy : Legacy := .ascii) (clock : Clock := {}) : Nat × Except Failure DecodedStream :=
  Receiver.run label budgets clock.chunk ({} : Receiver legacy) items

end Stream

/-- The encoding of bytes was found out. -/
def Sniffed.happening (s : Sniffed) : Happening := .decode true s.encoding.name s.source

/-- Read bytes as a style sheet. -/
def parseBytes (bytes : Bytes) (options : ParseOptions) (legacy : Encoding.Legacy := .ascii)
    (clock : Clock := {}) : Except Failure Document := do
  Failure.ofBudget (options.budgets.check .maxInputBytes bytes.length)
  let (text, sniffed) ← decodeBytes bytes { transportLabel := options.transportLabel } legacy
  let d ← parse text options clock
  Failure.ofBudget (d.extendTrace options.budgets [sniffed.happening])

/-- Read a stream as a style sheet; the first answer is how many times it was asked for an item. -/
def parseStream (items : List StreamItem) (options : ParseOptions)
    (legacy : Encoding.Legacy := .ascii) (clock : Clock := {}) : Nat × Except Failure Document :=
  let budgets := options.budgets
  let (pulls, decoded) := Stream.decode items options.transportLabel budgets legacy clock
  (pulls, do
    let s ← decoded
    let d ← parse s.text options clock
    Failure.ofBudget <| d.extendTrace budgets
      [s.sniffed.happening, .stream s.bytesRead,
        .budget .maxBufferedBytes budgets.maxBufferedBytes s.maxBuffered])

/-- Tokenize a stream; the first answer is how many times it was asked for an item. -/
def tokenizeStream (items : List StreamItem) (options : TokenizeOptions)
    (legacy : Encoding.Legacy := .ascii) (clock : Clock := {}) : Nat × Except Failure TokenList :=
  let (pulls, decoded) := Stream.decode items options.transportLabel options.budgets legacy clock
  (pulls, do tokenizeWithin (← decoded).text options clock)

end Stylesheet
