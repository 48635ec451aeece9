/-!
# Lines and columns

Positions shown to people count lines and columns from one. Lines end at line feeds only, and
columns count characters, while the offsets that they are found from count bytes.
-/

namespace Stylesheet.Text

/-- Number of bytes of some characters in UTF-8. -/
def byteLength : List Char → Nat
  | [] => 0
  | c :: cs => c.utf8Size + byteLength cs

/-- Number of characters that start within the first `n` bytes. -/
def charsBefore : Nat → List Char → Nat
  | 0, _ => 0
  | _, [] => 0
  | n + 1, c :: cs => 1 + charsBefore (n + 1 - c.utf8Size) cs

/-- A line and a column. -/
structure Position where
  line : Nat
  column : Nat
  deriving DecidableEq, Repr, Inhabited

/-- A line of a text: the offset at which it starts, and the text from there on. -/
structure Line where
  start : Nat
  rest : List Char
  deriving Inhabited

/-- The lines of a text, and its length in bytes. -/
structure LineIndex where
  lines : List Line
  size : Nat
  deriving Inhabited

namespace LineIndex

/-- The lines that start after the line feeds of a text that itself starts at `offset`. -/
def afterFeeds (offset : Nat) : List Char → List Line
  | [] => []
  | c :: cs =>
    let next := offset + c.utf8Size
    if c = '\n' then ⟨next, cs⟩ :: afterFeeds next cs else afterFeeds next cs

/-- Find the lines of a text. -/
def ofString (text : String) : LineIndex :=
  ⟨⟨0, text.toList⟩ :: afterFeeds 0 text.toList, byteLength text.toList⟩

/-- The position of a byte offset. Offsets past the end count as the end. -/
def position (index : LineIndex) (offset : Nat) : Position :=
  let offset := min offset index.size
  let reached := index.lines.takeWhile fun l => l.start ≤ offset
  match reached.getLast? with
  | some l => ⟨reached.length, 1 + charsBefore (offset - l.start) l.rest⟩
  | none => ⟨1, 1⟩

end LineIndex

/-- At most `n` characters from the front of a text. -/
def takeChars (n : Nat) (text : String) : String := String.ofList (text.toList.take n)

end Stylesheet.Text
