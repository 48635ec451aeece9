import Stylesheet.Encoding

/-!
# Encodings of one byte per character

All of them agree with ASCII below `0x80`. Where an encoding has no character of its own for a byte
from `0x80` to `0x9F`, the byte stands for the control character of its number.

Only the encodings with a table here can be read.
-/

namespace Stylesheet.Encoding

/-- The characters of windows-1252 from `0x80` to `0x9F`; from there on it is Latin-1. -/
def windows1252Table : String := "€\u0081‚ƒ„…†‡ˆ‰Š‹Œ\u008dŽ\u008f\u0090‘’“”•–—˜™š›œ\u009džŸ"

/-- The characters of windows-1251 from `0x80` on. -/
def windows1251Table : String :=
  "ЂЃ‚ѓ„…†‡€‰Љ‹ЊЌЋЏђ‘’“”•–—\u0098™љ›њќћџ" ++
    "\u00a0ЎўЈ¤Ґ¦§Ё©Є«¬\u00ad®Ї°±Ііґµ¶·ё№є»јЅѕї" ++
    "АБВГДЕЖЗИЙКЛМНОПРСТУФХЦЧШЩЪЫЬЭЮЯ" ++
    "абвгдежзийклмнопрстуфхцчшщъыьэюя"

/-- The characters of KOI8-R from `0x80` on. -/
def koi8rTable : String :=
  "─│┌┐└┘├┤┬┴┼▀▄█▌▐░▒▓⌠■∙√≈≤≥\u00a0⌡°²·÷" ++
    "═║╒ё╓╔╕╖╗╘╙╚╛╜╝╞╟╠╡Ё╢╣╤╥╦╧╨╩╪╫╬©" ++
    "юабцдефгхийклмнопярстужвьызшэщчъ" ++
    "ЮАБЦДЕФГХИЙКЛМНОПЯРСТУЖВЬЫЗШЭЩЧЪ"

/-- ISO-8859-5 is Latin-1 up to the soft hyphen and two signs, and the Cyrillic block elsewhere. -/
def iso8859_5Char (b : Nat) : Char :=
  if b ≤ 0xA0 ∨ b = 0xAD then Char.ofNat b
  else if b = 0xF0 then '№'
  else if b = 0xFD then '§'
  else Char.ofNat (b + 0x360)

/-- ISO-8859-15 is Latin-1 with eight characters changed. -/
def iso8859_15Char (b : Nat) : Char :=
  match b with
  | 0xA4 => '€'
  | 0xA6 => 'Š'
  | 0xA8 => 'š'
  | 0xB4 => 'Ž'
  | 0xB8 => 'ž'
  | 0xBC => 'Œ'
  | 0xBD => 'œ'
  | 0xBE => 'Ÿ'
  | _ => Char.ofNat b

/-- Tells whether the characters of an encoding are listed here. -/
def hasTable : Encoding → Bool
  | windows1252 | windows1251 | koi8r | iso8859_5 | iso8859_15 | userDefined => true
  | _ => false

/-- The character that a byte from `0x80` on stands for. -/
def highChar? (e : Encoding) (b : Nat) : Option Char :=
  match e with
  | windows1252 => windows1252Table.toList[b - 0x80]? <|> some (Char.ofNat b)
  | windows1251 => windows1251Table.toList[b - 0x80]?
  | koi8r => koi8rTable.toList[b - 0x80]?
  | iso8859_5 => some (iso8859_5Char b)
  | iso8859_15 => some (iso8859_15Char b)
  | userDefined => some (Char.ofNat (0xF700 + b))
  | _ => none

/-- The ASCII character that a byte stands for. -/
def asciiChar? (b : UInt8) : Option Char :=
  if b < 0x80 then some (Char.ofNat b.toNat) else none

/-- The character that a byte stands for. -/
def char? (e : Encoding) (b : UInt8) : Option Char := asciiChar? b <|> e.highChar? b.toNat

end Stylesheet.Encoding
