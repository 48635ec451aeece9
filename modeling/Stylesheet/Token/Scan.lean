import Stylesheet.Token
import Stylesheet.Token.Numeral

/-!
# Scanning single tokens

`Lexeme.scan` cuts one token off the front of a text. The text is taken as it is: carriage return,
line feed and form feed all end lines, and every character beyond ASCII may stand in a name.
Scanning never fails; what is malformed becomes a delimiter, a bad string or a bad url.

The functions below answer with lengths in characters, so a lexeme is always a front part of the
text it was cut from and holds at least one character.
-/

namespace Stylesheet.Token

open Text

/-- A letter, `_`, U+0000 or any character beyond ASCII. -/
def isNameStart (c : Char) : Bool :=
  c.isAlpha || c = '_' || c.toNat = 0 || 0x80 ≤ c.toNat

/-- A character that continues a name without being escaped. -/
def isNameChar (c : Char) : Bool := isNameStart c || c.isDigit || c = '-'

/-- The text is at the end of a line (not at the end of the text). -/
def atNewline : List Char → Bool
  | c :: _ => isNewline c
  | [] => false

/-- Some identifier starts here. After a hyphen every backslash counts, even one that no escape
follows. -/
def startsIdent : List Char → Bool
  | '\\' :: cs => !atNewline cs
  | '-' :: c :: _ => isNameStart c || c = '-' || c = '\\'
  | c :: _ => isNameStart c
  | [] => false

/-- U+0000 is read as the replacement character. -/
def plain (c : Char) : Char := if c.toNat = 0 then replacement else c

/-- The character with a given code, or the replacement character for zero, surrogates and numbers
that are too large. -/
def ofCode (n : Nat) : Char :=
  if n ≠ 0 ∧ n.isValidChar then Char.ofNat n else replacement

/-- Length of the single blank that may end a hexadecimal escape; a line feed after a carriage
return belongs to it. -/
def blankAfterHex : List Char → Nat
  | '\r' :: '\n' :: _ => 2
  | c :: _ => if isBlank c then 1 else 0
  | [] => 0

/-- Read an escape after its backslash: how many characters it takes, and what it stands for. -/
def escape : List Char → Nat × Char
  | [] => (0, replacement)
  | c :: cs =>
    if isHex c then
      let digits := ((c :: cs).take 6).takeWhile isHex
      (digits.length + blankAfterHex ((c :: cs).drop digits.length), ofCode (hexNumber digits))
    else (1, plain c)

/-- Read a name: its length, and the name with escapes resolved. -/
def name : List Char → Nat × List Char
  | [] => (0, [])
  | c :: cs =>
    if c = '\\' then
      if atNewline cs then (0, [])
      else
        let (used, meant) := escape cs
        let (rest, value) := name (cs.drop used)
        (1 + used + rest, meant :: value)
    else if isNameChar c then
      let (rest, value) := name cs
      (1 + rest, plain c :: value)
    else (0, [])
termination_by cs => cs.length
decreasing_by all_goals simp only [List.length_cons, List.length_drop]; omega

/-- Read a string after its opening quote: its length, closing quote included, and its value, which
is missing if a line ends before the string does. The end of the text also ends a string. -/
def quoted (quote : Char) : List Char → Nat × Option (List Char)
  | [] => (0, some [])
  | c :: cs =>
    if c = quote then (1, some [])
    else if isNewline c then (0, none)
    else if c = '\\' then
      match cs with
      | [] => (1, some [])
      | d :: ds =>
        if isNewline d then
          let used := blankAfterHex (d :: ds)
          let (rest, value) := quoted quote ((d :: ds).drop used)
          (1 + used + rest, value)
        else
          let (used, meant) := escape (d :: ds)
          let (rest, value) := quoted quote ((d :: ds).drop used)
          (1 + used + rest, value.map (meant :: ·))
    else
      let (rest, value) := quoted quote cs
      (1 + rest, value.map (plain c :: ·))
termination_by cs => cs.length
decreasing_by all_goals simp only [List.length_cons, List.length_drop]; omega

/-- Length of what is left of a url that turned out to be malformed: through the next closing
parenthesis, where an escaped parenthesis or backslash does not count. -/
def badUrlRest : List Char → Nat
  | [] => 0
  | ')' :: _ => 1
  | '\\' :: c :: cs =>
    if c = ')' ∨ c = '\\' then 2 + badUrlRest cs else 1 + badUrlRest (c :: cs)
  | _ :: cs => 1 + badUrlRest cs

/-- Read the blanks that end a url and its closing parenthesis. The flag tells whether nothing else
stood between them. -/
def urlEnd : List Char → Nat × Bool
  | [] => (0, true)
  | ')' :: _ => (1, true)
  | c :: cs =>
    if isBlank c then
      let (rest, good) := urlEnd cs
      (1 + rest, good)
    else (1 + badUrlRest cs, false)

/-- Characters that no unquoted url may hold unescaped: quotes, an opening parenthesis and controls
that are not blank. -/
def breaksUrl (c : Char) : Bool :=
  c = '"' || c = '\'' || c = '(' || (1 ≤ c.toNat && c.toNat ≤ 8) || c.toNat = 0x0B ||
    (0x0E ≤ c.toNat && c.toNat ≤ 0x1F) || c.toNat = 0x7F

/-- Read an unquoted url after `url(` and blanks: its length, and its value if it is well formed. -/
def urlBody : List Char → Nat × Option (List Char)
  | [] => (0, some [])
  | c :: cs =>
    if c = ')' then (1, some [])
    else if isBlank c then
      let (rest, good) := urlEnd cs
      (1 + rest, if good then some [] else none)
    else if breaksUrl c then (1 + badUrlRest cs, none)
    else if c = '\\' then
      if atNewline cs then (1 + badUrlRest cs, none)
      else
        let (used, meant) := escape cs
        let (rest, value) := urlBody (cs.drop used)
        (1 + used + rest, value.map (meant :: ·))
    else
      let (rest, value) := urlBody cs
      (1 + rest, value.map (plain c :: ·))
termination_by cs => cs.length
decreasing_by all_goals simp only [List.length_cons, List.length_drop]; omega

/-- Length of a comment after its opening, closing included if there is one. -/
def commentBody : List Char → Nat
  | [] => 0
  | '*' :: '/' :: _ => 2
  | _ :: cs => 1 + commentBody cs

/-- A token cut from the front of a text: its kind, how many characters follow its first one, and
the value of strings and urls. -/
structure Lexeme where
  kind : Kind
  more : Nat := 0
  value : Option String := none
  deriving DecidableEq, Repr, Inhabited

namespace Lexeme

/-- A string token, after the opening quote. -/
def string (quote : Char) (cs : List Char) : Lexeme :=
  match quoted quote cs with
  | (used, some value) => ⟨.string, used, some (String.ofList value)⟩
  | (used, none) => ⟨.badString, used, none⟩

/-- A number, percentage or dimension that starts with the text. -/
def numeric (cs : List Char) : Lexeme :=
  let used := Numeral.length cs
  match cs.drop used with
  | '%' :: _ => ⟨.percentage, used, none⟩
  | rest =>
    if startsIdent rest then ⟨.dimension, used + (name rest).1 - 1, none⟩
    else ⟨.number, used - 1, none⟩

/-- What follows `url(`, with the length of that opening less one: an unquoted url, or a function
if a quote comes next. -/
def url (opening : Nat) (cs : List Char) : Lexeme :=
  let blanks := (cs.takeWhile isBlank).length
  match cs.drop blanks with
  | '"' :: _ | '\'' :: _ => ⟨.function, opening, none⟩
  | rest =>
    match urlBody rest with
    | (used, some value) => ⟨.url, opening + blanks + used, some (String.ofList value)⟩
    | (used, none) => ⟨.badUrl, opening + blanks + used, none⟩

/-- An identifier, function or url that starts with the text. -/
def identLike (cs : List Char) : Lexeme :=
  let (used, value) := name cs
  match cs.drop used with
  | '(' :: rest =>
    if value.map Char.toLower = ['u', 'r', 'l'] then url used rest else ⟨.function, used, none⟩
  | _ => ⟨.ident, used - 1, none⟩

/-- Cut one token off a text with first character `c`. -/
def scan (c : Char) (cs : List Char) : Lexeme :=
  if isBlank c then ⟨.whiteSpace, (cs.takeWhile isBlank).length, none⟩
  else if Numeral.starts (c :: cs) then numeric (c :: cs)
  else match c, cs with
    | '"', _ => string '"' cs
    | '\'', _ => string '\'' cs
    | '#', d :: _ =>
      if startsIdent cs ∨ d.isDigit ∨ d = '-' then ⟨.hash, (name cs).1, none⟩ else ⟨.delim, 0, none⟩
    | '(', _ => ⟨.leftParen, 0, none⟩
    | ')', _ => ⟨.rightParen, 0, none⟩
    | '[', _ => ⟨.leftSquare, 0, none⟩
    | ']', _ => ⟨.rightSquare, 0, none⟩
    | '{', _ => ⟨.leftCurly, 0, none⟩
    | '}', _ => ⟨.rightCurly, 0, none⟩
    | ',', _ => ⟨.comma, 0, none⟩
    | ':', _ => ⟨.colon, 0, none⟩
    | ';', _ => ⟨.semicolon, 0, none⟩
    | '-', '-' :: '>' :: _ => ⟨.cdc, 2, none⟩
    | '<', '!' :: '-' :: '-' :: _ => ⟨.cdo, 3, none⟩
    | '/', '*' :: rest => ⟨.comment, 1 + commentBody rest, none⟩
    | '@', _ => if startsIdent cs then ⟨.atKeyword, (name cs).1, none⟩ else ⟨.delim, 0, none⟩
    | _, _ => if startsIdent (c :: cs) then identLike (c :: cs) else ⟨.delim, 0, none⟩

end Lexeme

end Stylesheet.Token
