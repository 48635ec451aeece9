import Stylesheet.Text.Class

/-!
# Tokens

A token is a stretch of the source text with a kind. Tokens that open a block say how many
tokens lie between them and the token that closes them, so that a block can be taken out of any
list it stands in. Text that is nested too deeply to be tokenized stays with the opener before it.
-/

namespace Stylesheet

/-- The kinds of CSS tokens. -/
inductive Token.Kind where
  | ident | function | atKeyword | hash | string | badString | url | badUrl | delim
  | number | percentage | dimension | whiteSpace | cdo | cdc | colon | semicolon | comma
  | leftSquare | rightSquare | leftParen | rightParen | leftCurly | rightCurly | comment
  deriving DecidableEq, Repr, Inhabited

namespace Token.Kind

/-- The name a kind is shown by. -/
def name : Kind → String
  | ident => "ident"
  | function => "function"
  | atKeyword => "at-keyword"
  | hash => "hash"
  | string => "string"
  | badString => "bad-string"
  | url => "url"
  | badUrl => "bad-url"
  | delim => "delim"
  | number => "number"
  | percentage => "percentage"
  | dimension => "dimension"
  | whiteSpace => "whitespace"
  | cdo => "CDO"
  | cdc => "CDC"
  | colon => "colon"
  | semicolon => "semicolon"
  | comma => "comma"
  | leftSquare => "["
  | rightSquare => "]"
  | leftParen => "("
  | rightParen => ")"
  | leftCurly => "\x7b"
  | rightCurly => "\x7d"
  | comment => "comment"

/-- The token type as CSS Syntax writes it. -/
def rawName (k : Kind) : String := k.name ++ "-token"

/-- The kind that closes a block opened by this one. -/
def closing : Kind → Option Kind
  | function | leftParen => some rightParen
  | leftSquare => some rightSquare
  | leftCurly => some rightCurly
  | _ => none

/-- Functions and opening brackets start a block. -/
def opensBlock (k : Kind) : Bool := k.closing.isSome

/-- White space and comments separate tokens and mean nothing else. -/
def isTrivia (k : Kind) : Bool := k = whiteSpace || k = comment

theorem closing_ne_opensBlock {k c : Kind} (h : k.closing = some c) : c.opensBlock = false := by
  cases k <;> simp only [closing, Option.some.injEq, reduceCtorEq] at h <;> subst h <;> rfl

end Token.Kind

/-- A token of a source text. -/
structure Token where
  kind : Token.Kind
  /-- The characters of the source that the token covers. -/
  text : String
  /-- Byte offset of the first of them. -/
  start : Nat
  /-- What a string or url token stands for once its escapes are resolved. -/
  value : Option String := none
  /-- For an opener that is closed: how many tokens stand between it and its closing token. -/
  inside : Option Nat := none
  /-- Source text right after the token that is nested too deeply to have tokens. -/
  omitted : String := ""
  deriving DecidableEq, Repr, Inhabited

namespace Token

/-- Byte offset just past the token. -/
def stop (t : Token) : Nat := t.start + t.text.utf8ByteSize

/-- The first character of a delimiter. -/
def delim? (t : Token) : Option Char :=
  if t.kind = .delim then t.text.toList.head? else none

/-- Tells whether the token is the delimiter `c`. -/
def isDelim (t : Token) (c : Char) : Bool := t.delim? = some c

end Token

end Stylesheet
