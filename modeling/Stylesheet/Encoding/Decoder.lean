import Stylesheet.Encoding.SingleByte
import Stylesheet.Encoding.Utf16
import Stylesheet.Encoding.Utf8

/-!
# Decoders

A decoder turns bytes into characters as they come, so that bytes may be handed to it in any number
of portions. It keeps what a portion leaves unfinished. Malformed sequences become U+FFFD, and the
Unicode encodings drop a byte order mark at the very start.

Unicode and the encodings with a table are read here. How the others are read is a parameter: like
all decoders of the Encoding Standard, a `Legacy` takes one byte at a time.
-/

namespace Stylesheet

/-- A sequence of bytes. -/
abbrev Bytes := List UInt8

namespace Encoding

/-- How the encodings without a table are read: from a state between two bytes, of which there is
one type for all of them. A malformed sequence gives nothing in place of a character. -/
structure Legacy where
  State : Type
  start : Encoding → State
  step : State → UInt8 → State × List (Option Char)
  /-- What is left at the end. -/
  finish : State → List (Option Char)

/-- Only ASCII can be read. -/
def Legacy.ascii : Legacy where
  State := Unit
  start _ := ()
  step _ b := ((), [asciiChar? b])
  finish _ := []

/-- What reading bytes has left unfinished. -/
inductive Unfinished (legacy : Legacy) where
  | utf8 (s : Utf8.State)
  | utf16 (big : Bool) (s : Utf16.State)
  | singleByte (e : Encoding)
  | legacy (s : legacy.State)

namespace Unfinished

variable {legacy : Legacy}

/-- Nothing has been read. -/
def start (e : Encoding) : Unfinished legacy :=
  match e with
  | .utf8 => utf8 .start
  | .utf16be => utf16 true {}
  | .utf16le => utf16 false {}
  | e => if e.hasTable then singleByte e else .legacy (legacy.start e)

/-- Read a byte. A malformed sequence gives nothing in place of a character. -/
def step : Unfinished legacy → UInt8 → Unfinished legacy × List (Option Char)
  | utf8 s, b => (utf8 (Utf8.step s b).1, (Utf8.step s b).2)
  | utf16 big s, b => (utf16 big (Utf16.step big s b).1, (Utf16.step big s b).2)
  | singleByte e, b => (singleByte e, [e.char? b])
  | .legacy s, b => (.legacy (legacy.step s b).1, (legacy.step s b).2)

/-- What is left at the end. -/
def finish : Unfinished legacy → List (Option Char)
  | utf8 s => Utf8.finish s
  | utf16 _ s => Utf16.finish s
  | singleByte _ => []
  | .legacy s => legacy.finish s

/-- Read bytes one after the other. -/
def run (u : Unfinished legacy) : Bytes → Unfinished legacy × List (Option Char)
  | [] => (u, [])
  | b :: bs => ((run (u.step b).1 bs).1, (u.step b).2 ++ (run (u.step b).1 bs).2)

theorem run_append (u : Unfinished legacy) (a b : Bytes) :
    u.run (a ++ b) = (((u.run a).1.run b).1, (u.run a).2 ++ ((u.run a).1.run b).2) := by
  induction a generalizing u with
  | nil => rfl
  | cons x a ih => simp [run, ih]

end Unfinished

/-- The mark that may stand in front of a Unicode text. -/
def byteOrderMark : Char := '\uFEFF'

/-- Drop a byte order mark in front. -/
def dropMark : List (Option Char) → List (Option Char)
  | some c :: read => if c = byteOrderMark then read else some c :: read
  | read => read

/-- The text of what has been read. -/
def textOf (read : List (Option Char)) : String :=
  String.ofList (read.map fun c => c.getD Text.replacement)

/-- Tells whether texts in an encoding may start with a byte order mark. -/
def hasMark (e : Encoding) : Bool := e = utf8 || e.isWide

/-- A decoder between two portions of its input. -/
structure Decoder (legacy : Legacy) where
  unfinished : Unfinished legacy
  /-- Nothing has come out yet, so that a byte order mark may follow. -/
  atStart : Bool

namespace Decoder

/-- A decoder for an encoding. -/
def start (e : Encoding) (legacy : Legacy := .ascii) : Decoder legacy := ⟨.start e, e.hasMark⟩

variable {legacy : Legacy}

/-- What is passed on of what has been read. -/
def passed (d : Decoder legacy) (read : List (Option Char)) : List (Option Char) :=
  if d.atStart then dropMark read else read

/-- Decode a portion of the input. -/
def push (d : Decoder legacy) (bytes : Bytes) : Decoder legacy × String :=
  let (unfinished, read) := d.unfinished.run bytes
  (⟨unfinished, d.atStart && read.isEmpty⟩, textOf (d.passed read))

/-- The text that the end of the input adds. -/
def finish (d : Decoder legacy) : String := textOf (d.passed d.unfinished.finish)

/-- Decode portions one after the other, and answer what each adds and then what the end adds. -/
def pushAll (d : Decoder legacy) : List Bytes → List String
  | [] => [d.finish]
  | chunk :: chunks => (d.push chunk).2 :: pushAll (d.push chunk).1 chunks

end Decoder

/-- Decode a whole input. -/
def decode (e : Encoding) (bytes : Bytes) (legacy : Legacy := .ascii) : String :=
  let (d, front) := (Decoder.start e legacy).push bytes
  front ++ d.finish

end Encoding

end Stylesheet
