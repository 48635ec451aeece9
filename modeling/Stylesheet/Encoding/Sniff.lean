import Stylesheet.Encoding.Decoder
import Stylesheet.Failure
import Stylesheet.Trace

/-!
# Finding out the encoding of bytes

A byte order mark decides; next a label from the transport, if it names an encoding; next a
`@charset` rule at the very start; and else the default. Only the default label has to name an
encoding, even where it is not needed.
-/

namespace Stylesheet

/-- What is known about bytes from elsewhere. -/
structure SniffOptions where
  transportLabel : Option String := none
  /-- How many bytes a `@charset` rule is looked for in. -/
  maxPrescan : Nat := 1024
  defaultLabel : Option String := none
  deriving DecidableEq, Repr, Inhabited

/-- An encoding and how it was found out. -/
structure Sniffed where
  encoding : Encoding
  source : SniffSource
  deriving DecidableEq, Repr, Inhabited

namespace Encoding

/-- The encoding whose byte order mark stands in front. -/
def ofMark? : Bytes → Option Encoding
  | 0xEF :: 0xBB :: 0xBF :: _ => some utf8
  | 0xFE :: 0xFF :: _ => some utf16be
  | 0xFF :: 0xFE :: _ => some utf16le
  | _ => none

/-- ASCII whitespace as a byte. -/
def isBlankByte (b : UInt8) : Bool := b = 9 || b = 10 || b = 12 || b = 13 || b = 32

/-- Lower an ASCII letter. -/
def lowerByte (b : UInt8) : UInt8 := if 65 ≤ b && b ≤ 90 then b + 32 else b

/-- The bytes of `@charset`. -/
def charsetKeyword : Bytes := [64, 99, 104, 97, 114, 115, 101, 116]

/-- What follows the keyword in front, whatever the case of its letters. -/
def afterCharset? (bytes : Bytes) : Option Bytes :=
  let n := charsetKeyword.length
  if (bytes.take n).map lowerByte = charsetKeyword then some (bytes.drop n) else none

/-- The bytes of the label in a `@charset` rule in front: the keyword, blanks, a label in quotes of
either sort, and a semicolon that only blanks may precede. -/
def charsetLabel? (bytes : Bytes) : Option Bytes := do
  let rest ← afterCharset? (bytes.dropWhile isBlankByte)
  match rest, rest.dropWhile isBlankByte with
  | blank :: _, quote :: body =>
    guard (isBlankByte blank)
    guard (quote = 34 || quote = 39)
    let label := body.takeWhile (· ≠ quote)
    let after := body.drop label.length
    guard (!label.isEmpty && !after.isEmpty)
    guard ((after.tail.dropWhile isBlankByte).head? = some 59)
    some label
  | _, _ => none

/-- Decode bytes that must be well-formed UTF-8. -/
def utf8Text? (bytes : Bytes) : Option String :=
  let (unfinished, read) := (Unfinished.start .utf8 : Unfinished .ascii).run bytes
  ((read ++ unfinished.finish).mapM id).map String.ofList

/-- The encoding that a `@charset` rule in front names. The rule itself stands in ASCII, so if it
names an encoding with units of two bytes, UTF-8 is meant. -/
def ofCharset? (bytes : Bytes) : Option Encoding := do
  let label ← charsetLabel? bytes
  let e ← ofLabel? (← utf8Text? label)
  some (if e.isWide then utf8 else e)

end Encoding

/-- Find out the encoding of bytes. -/
def sniff (bytes : Bytes) (options : SniffOptions) : Except Failure Sniffed := do
  let default ← match options.defaultLabel with
    | none => .ok Encoding.utf8
    | some label =>
      match Encoding.ofLabel? label with
      | some e => .ok e
      | none => .error (.unsupportedEncoding label)
  match Encoding.ofMark? bytes with
  | some e => .ok ⟨e, .bom⟩
  | none =>
    match options.transportLabel.bind Encoding.ofLabel? with
    | some e => .ok ⟨e, .transport⟩
    | none =>
      match Encoding.ofCharset? (bytes.take options.maxPrescan) with
      | some e => .ok ⟨e, .charset⟩
      | none => .ok ⟨default, .default⟩

/-- Find out the encoding of bytes and decode them. -/
def decodeBytes (bytes : Bytes) (options : SniffOptions) (legacy : Encoding.Legacy := .ascii) :
    Except Failure (String × Sniffed) := do
  let sniffed ← sniff bytes options
  .ok (sniffed.encoding.decode bytes legacy, sniffed)

end Stylesheet
