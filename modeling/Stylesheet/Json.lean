/-!
# JSON values

Options, edits, plans and element trees are loaded from JSON values, and syntax trees and traces are
shown as JSON text. An object keeps its members in the order in which they were written; of two
members with one name the later one counts.

Numbers that the library itself writes are natural numbers. A number that was read and is no natural
number below `2 ^ 64` is kept as it was spelled.
-/

namespace Stylesheet

/-- A JSON value. -/
inductive Json where
  | null
  | bool (b : Bool)
  | natural (n : Nat)
  | number (spelling : String)
  | string (s : String)
  | array (items : List Json)
  | object (members : List (String × Json))
  deriving Repr, Inhabited, BEq

namespace Json

/-- The member of an object with a given name. -/
def get? (j : Json) (name : String) : Option Json :=
  match j with
  | object members => (members.reverse.find? fun m => m.1 = name).map (·.2)
  | _ => none

/-- The text of a string. -/
def text? : Json → Option String
  | string s => some s
  | _ => none

/-- The items of an array. -/
def items? : Json → Option (List Json)
  | array items => some items
  | _ => none

/-- Tells whether the value is an object. -/
def isObject : Json → Bool
  | object _ => true
  | _ => false

/-- The value if there is one, else null. -/
def ofOption {α : Type} (f : α → Json) : Option α → Json
  | some a => f a
  | none => null

/-- A member that is written only if it has a value. -/
def optionalMember {α : Type} (name : String) (f : α → Json) (value : Option α) :
    List (String × Json) :=
  (value.map fun a => (name, f a)).toList

/-! ### Writing -/

/-- Four hexadecimal digits. -/
def hex4 (n : Nat) : List Char :=
  let digits := Nat.toDigits 16 n
  List.replicate (4 - digits.length) '0' ++ digits

/-- A unit of UTF-16 as an escape. -/
def unitEscape (n : Nat) : List Char := '\\' :: 'u' :: hex4 n

/-- A character inside a string. With `ascii` set, characters beyond ASCII are escaped too, by
surrogate pairs where needed. -/
def writeChar (ascii : Bool) (c : Char) : List Char :=
  if c = '"' then ['\\', '"']
  else if c = '\\' then ['\\', '\\']
  else if c = '\n' then ['\\', 'n']
  else if c = '\r' then ['\\', 'r']
  else if c = '\t' then ['\\', 't']
  else if c.toNat = 8 then ['\\', 'b']
  else if c.toNat = 12 then ['\\', 'f']
  else if c.toNat < 0x20 then unitEscape c.toNat
  else if ascii && 0x80 ≤ c.toNat then
    if c.toNat < 0x10000 then unitEscape c.toNat
    else
      unitEscape (0xD800 + (c.toNat - 0x10000) / 0x400) ++
        unitEscape (0xDC00 + (c.toNat - 0x10000) % 0x400)
  else [c]

/-- A string in quotes. -/
def writeString (ascii : Bool) (s : String) : String :=
  String.ofList ('"' :: (s.toList.flatMap (writeChar ascii) ++ ['"']))

mutual

/-- Write a value without optional blanks. -/
def write (ascii : Bool) : Json → String
  | null => "null"
  | bool b => if b then "true" else "false"
  | natural n => toString n
  | number spelling => spelling
  | string s => writeString ascii s
  | array items => "[" ++ ",".intercalate (writeItems ascii items) ++ "]"
  | object members => "\x7b" ++ ",".intercalate (writeMembers ascii members) ++ "\x7d"

/-- Write each value of a list. -/
def writeItems (ascii : Bool) : List Json → List String
  | [] => []
  | j :: js => write ascii j :: writeItems ascii js

/-- Write each member of an object. -/
def writeMembers (ascii : Bool) : List (String × Json) → List String
  | [] => []
  | (name, j) :: rest => (writeString ascii name ++ ":" ++ write ascii j) :: writeMembers ascii rest

end

/-- The compact text of a value. -/
def compact (j : Json) : String := j.write false

/-- The compact text of a value in ASCII. -/
def compactAscii (j : Json) : String := j.write true

end Json

end Stylesheet
