import Stylesheet.Token.Scan

/-!
# Tokenization

`tokenize` cuts a text into lexemes and pairs the brackets among them. A closing token ends the
innermost open block if it is that block's own kind; any other closing token is an ordinary token.
Blocks nested deeper than `maxDepth` have no tokens inside: their text is kept with the opener and
their offset is reported.

At the end of the text every open block ends. Where text was left out, its last character still
closes the innermost block whose closing bracket it is.
-/

namespace Stylesheet

/-- The tokens of a text. -/
structure TokenList where
  tokens : List Token
  /-- Byte offsets of the blocks that are nested too deeply to be tokenized. -/
  truncated : List Nat
  /-- Length of the text in bytes. -/
  size : Nat
  deriving DecidableEq, Repr, Inhabited

namespace Token

/-- Nesting depth of the innermost blocks whose content is tokenized. -/
def maxDepth : Nat := 256

/-- Cut a whole text into lexemes, each with the characters it covers. -/
def lexemes : List Char → List (Lexeme × List Char)
  | [] => []
  | c :: cs =>
    let x := Lexeme.scan c cs
    (x, c :: cs.take x.more) :: lexemes (cs.drop x.more)
termination_by cs => cs.length
decreasing_by simp only [List.length_cons, List.length_drop]; omega

/-- A block that has been opened and not closed, with its content so far, last token first. -/
structure OpenBlock where
  opener : Token
  content : List Token := []
  deriving DecidableEq, Repr, Inhabited

namespace OpenBlock

/-- The block ends at its closing token. Last token first. -/
def close (b : OpenBlock) (closer : Token) : List Token :=
  closer :: (b.content ++ [{ b.opener with inside := some b.content.length }])

/-- The block ends without a closing token. Last token first. -/
def abandon (b : OpenBlock) : List Token := b.content ++ [b.opener]

end OpenBlock

/-- Give the last omitted character back if it is the closing bracket of the kind `k`. -/
def reclaim (t : Token) (k : Kind) : Option Token :=
  match t.omitted.toList.getLast? with
  | some c =>
    if k.name = c.toString then some { t with omitted := String.ofList t.omitted.toList.dropLast }
    else none
  | none => none

/-- The block ends with a text of `size` bytes. Last token first. -/
def OpenBlock.atEnd (size : Nat) (b : OpenBlock) : List Token :=
  match b.opener.kind.closing with
  | none => b.abandon
  | some k =>
    let closer : Token := ⟨k, k.name, size - 1, none, none, ""⟩
    match b.content with
    | [] =>
      match b.opener.reclaim k with
      | some opener => { b with opener := opener }.close closer
      | none => b.abandon
    | t :: ts =>
      match t.reclaim k with
      | some t => { b with content := t :: ts }.close closer
      | none => b.abandon

/-- A block that is nested too deeply: its text so far, and the closing tokens that the blocks
within it wait for, innermost first. -/
structure DeepBlock where
  opener : Token
  text : List Char := []
  awaited : List Kind := []
  deriving DecidableEq, Repr, Inhabited

/-- The state of pairing brackets part of the way through a text. -/
structure Nesting where
  /-- Bytes read. -/
  offset : Nat := 0
  /-- Tokens outside all blocks that are open, last token first. -/
  outer : List Token := []
  /-- Open blocks, innermost first. -/
  blocks : List OpenBlock := []
  /-- The block in `blocks` whose content is left out, if any. -/
  deep : Option DeepBlock := none
  /-- Offsets of the blocks left out, last first. -/
  truncated : List Nat := []
  deriving DecidableEq, Repr, Inhabited

namespace Nesting

/-- Add tokens, last token first, where the text is being read. -/
def add (s : Nesting) (ts : List Token) : Nesting :=
  match s.blocks with
  | [] => { s with outer := ts ++ s.outer }
  | b :: bs => { s with blocks := { b with content := ts ++ b.content } :: bs }

/-- Take a token whose place is tokenized. -/
def place (s : Nesting) (t : Token) : Nesting :=
  if t.kind.opensBlock then
    if s.blocks.length < maxDepth then { s with blocks := ⟨t, []⟩ :: s.blocks }
    else { s with deep := some ⟨t, [], []⟩, truncated := t.stop :: s.truncated }
  else
    match s.blocks with
    | b :: bs =>
      if b.opener.kind.closing = some t.kind then { s with blocks := bs }.add (b.close t)
      else s.add [t]
    | [] => s.add [t]

/-- Take a token inside the block that is left out. -/
def skip (s : Nesting) (d : DeepBlock) (t : Token) : Nesting :=
  let longer := d.text ++ t.text.toList
  match t.kind.closing, d.awaited with
  | some k, awaited => { s with deep := some ⟨d.opener, longer, k :: awaited⟩ }
  | none, k :: awaited =>
    { s with deep := some ⟨d.opener, longer, if t.kind = k then awaited else k :: awaited⟩ }
  | none, [] =>
    if d.opener.kind.closing = some t.kind then
      { s with deep := none }.add
        (OpenBlock.close ⟨{ d.opener with omitted := String.ofList d.text }, []⟩ t)
    else { s with deep := some ⟨d.opener, longer, []⟩ }

/-- Take the next lexeme of the text. -/
def step (s : Nesting) (x : Lexeme × List Char) : Nesting :=
  let t : Token := ⟨x.1.kind, String.ofList x.2, s.offset, x.1.value, none, ""⟩
  let s := { s with offset := t.stop }
  match s.deep with
  | some d => s.skip d t
  | none => s.place t

/-- All tokens of a text that ends here, last token first. -/
def atEnd (s : Nesting) : List Token :=
  let deepest : List Token := match s.deep with
    | some d => OpenBlock.atEnd s.offset ⟨{ d.opener with omitted := String.ofList d.text }, []⟩
    | none => []
  let inner := s.blocks.foldl
    (fun inner b => OpenBlock.atEnd s.offset ⟨b.opener, inner ++ b.content⟩) deepest
  inner ++ s.outer

end Nesting

end Token

/-- Cut a text into tokens and pair its brackets. -/
def tokenize (source : String) : TokenList :=
  let s := (Token.lexemes source.toList).foldl Token.Nesting.step {}
  ⟨s.atEnd.reverse, s.truncated.reverse, s.offset⟩

namespace TokenList

/-- Index of the token that closes the block opened by the token at an index. -/
def close? (list : TokenList) (index : Nat) : Option Nat :=
  (list.tokens[index]?).bind fun t => t.inside.map (index + 1 + ·)

end TokenList

end Stylesheet
