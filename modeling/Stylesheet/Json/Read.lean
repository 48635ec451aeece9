import Stylesheet.Json
import Stylesheet.Text.Class

/-!
# Reading JSON

`Json.read?` reads a whole text as one value. Arrays and objects may be nested no deeper than the
text is long, which every text obeys.
-/

namespace Stylesheet.Json

namespace Reader

/-- Skip the blanks of JSON. -/
def skipBlanks (cs : List Char) : List Char :=
  cs.dropWhile fun c => c = ' ' || c = '\t' || c = '\n' || c = '\r'

/-- The unit of UTF-16 that four hexadecimal digits stand for. -/
def unit? (a b c d : Char) : Option Nat :=
  if [a, b, c, d].all Text.isHex then some (Text.hexNumber [a, b, c, d]) else none

/-- Read a string after its opening quote, as code points in which escaped surrogates are still
apart. -/
def units : List Char → Option (List Nat × List Char)
  | [] => none
  | '"' :: cs => some ([], cs)
  | '\\' :: 'u' :: a :: b :: c :: d :: cs => do
    let u ← unit? a b c d
    let (us, rest) ← units cs
    some (u :: us, rest)
  | '\\' :: e :: cs => do
    let c ← [('"', '"'), ('\\', '\\'), ('/', '/'), ('n', '\n'), ('r', '\r'), ('t', '\t'),
      ('b', '\x08'), ('f', '\x0c')].lookup e
    let (us, rest) ← units cs
    some (c.toNat :: us, rest)
  | c :: cs => do
    if c.toNat < 0x20 || c = '\\' then none
    else
      let (us, rest) ← units cs
      some (c.toNat :: us, rest)

/-- Put surrogate pairs together. A surrogate that stands alone is no character. -/
def join : List Nat → Option (List Char)
  | [] => some []
  | u :: us =>
    if 0xD800 ≤ u ∧ u < 0xDC00 then
      match us with
      | v :: us =>
        if 0xDC00 ≤ v ∧ v < 0xE000 then
          (join us).map (Char.ofNat (0x10000 + (u - 0xD800) * 0x400 + (v - 0xDC00)) :: ·)
        else none
      | [] => none
    else if 0xDC00 ≤ u ∧ u < 0xE000 then none
    else (join us).map (Char.ofNat u :: ·)

/-- Read a string after its opening quote. -/
def string (cs : List Char) : Option (String × List Char) := do
  let (us, rest) ← units cs
  let text ← join us
  some (String.ofList text, rest)

/-- The characters of numbers. -/
def inNumber (c : Char) : Bool := c.isDigit || ['+', '-', '.', 'e', 'E'].contains c

/-- A number from its spelling. -/
def number (cs : List Char) : Option Json :=
  if cs.isEmpty then none
  else if cs.all Char.isDigit then
    let n := cs.foldl (fun n c => n * 10 + (c.toNat - '0'.toNat)) 0
    some (if n < UInt64.size then .natural n else .number (String.ofList cs))
  else some (.number (String.ofList cs))

mutual

/-- Read a value; the first argument bounds the nesting. -/
def value : Nat → List Char → Option (Json × List Char)
  | 0, _ => none
  | depth + 1, cs =>
    match skipBlanks cs with
    | '"' :: rest => (string rest).map fun (s, rest) => (.string s, rest)
    | '[' :: rest =>
      match skipBlanks rest with
      | ']' :: rest => some (.array [], rest)
      | rest => (items depth rest).map fun (js, rest) => (.array js, rest)
    | '{' :: rest =>
      match skipBlanks rest with
      | '}' :: rest => some (.object [], rest)
      | rest => (members depth rest).map fun (ms, rest) => (.object ms, rest)
    | 'n' :: 'u' :: 'l' :: 'l' :: rest => some (.null, rest)
    | 't' :: 'r' :: 'u' :: 'e' :: rest => some (.bool true, rest)
    | 'f' :: 'a' :: 'l' :: 's' :: 'e' :: rest => some (.bool false, rest)
    | rest => (number (rest.takeWhile inNumber)).map fun j => (j, rest.dropWhile inNumber)

/-- Read the items of an array, closing bracket included. -/
def items : Nat → List Char → Option (List Json × List Char)
  | 0, _ => none
  | depth + 1, cs => do
    let (j, rest) ← value depth cs
    match skipBlanks rest with
    | ']' :: rest => some ([j], rest)
    | ',' :: rest =>
      let (js, rest) ← items depth rest
      some (j :: js, rest)
    | _ => none

/-- Read the members of an object, closing bracket included. -/
def members : Nat → List Char → Option (List (String × Json) × List Char)
  | 0, _ => none
  | depth + 1, cs =>
    match skipBlanks cs with
    | '"' :: rest => do
      let (name, rest) ← string rest
      match skipBlanks rest with
      | ':' :: rest =>
        let (j, rest) ← value depth rest
        match skipBlanks rest with
        | '}' :: rest => some ([(name, j)], rest)
        | ',' :: rest =>
          let (ms, rest) ← members depth rest
          some ((name, j) :: ms, rest)
        | _ => none
      | _ => none
    | _ => none

end

end Reader

/-- Read a text as one value. -/
def read? (text : String) : Option Json :=
  match Reader.value (text.length + 1) text.toList with
  | some (j, rest) => if (Reader.skipBlanks rest).isEmpty then some j else none
  | none => none

end Stylesheet.Json
