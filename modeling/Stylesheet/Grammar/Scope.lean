import Stylesheet.Token.Nesting
import Stylesheet.Span
import Stylesheet.Node
import Stylesheet.Fault

/-!
# Scopes

The grammar reads scopes: runs of tokens that end where a block ends, where a separator stands, or
with the text. A scope also knows the offset at which whatever follows it starts, which is where an
empty scope is located.

Separators count at the top level of a scope only. A block belongs to its scope as one component;
one that is not closed takes up the rest of the scope.
-/

namespace Stylesheet

namespace Token

/-- The bytes a token covers. -/
def span (t : Token) : Span := ⟨t.start, t.stop⟩

/-- Number of tokens after `t` in its component, given the tokens that follow it. -/
def more (t : Token) (after : List Token) : Nat :=
  if t.kind.opensBlock then
    match t.inside with
    | some n => min (n + 1) after.length
    | none => after.length
  else 0

/-- The source text from the first of some adjacent tokens to the last. -/
def pieces : List Token → List String
  | [] => []
  | [t] => [t.text]
  | t :: ts => t.text :: t.omitted :: pieces ts

/-- The source text that adjacent tokens cover together. -/
def sourceText (ts : List Token) : String := String.join (pieces ts)

/-- Leave out white space and comments up to the first other token. -/
def significant (ts : List Token) : List Token := ts.dropWhile fun t => t.kind.isTrivia

/-- Where some tokens start, given what to answer if there are none. -/
def startOf (ts : List Token) (next : Nat) : Nat :=
  match ts with
  | t :: _ => t.start
  | [] => next

/-- Separate the tokens before the first top-level one of a kind from that one and the rest. -/
def spanTop (stop : Kind → Bool) : List Token → List Token × List Token
  | [] => ([], [])
  | t :: ts =>
    if stop t.kind then ([], t :: ts)
    else
      let (before, found) := spanTop stop (ts.drop (t.more ts))
      (t :: (ts.take (t.more ts) ++ before), found)
termination_by ts => ts.length
decreasing_by simp only [List.length_cons, List.length_drop]; omega

theorem spanTop_append (stop : Kind → Bool) (ts : List Token) :
    (spanTop stop ts).1 ++ (spanTop stop ts).2 = ts := by
  fun_induction spanTop stop ts with
  | case1 => rfl
  | case2 t ts h => rfl
  | case3 t ts h before found eq ih =>
    rw [eq] at ih
    simp only [List.cons_append, List.append_assoc, ih, List.take_append_drop]

theorem spanTop_head {stop : Kind → Bool} {ts rest : List Token} {t : Token}
    (h : (spanTop stop ts).2 = t :: rest) : stop t.kind := by
  fun_induction spanTop stop ts with
  | case1 => simp at h
  | case2 t' ts' hs => cases h; exact hs
  | case3 t' ts' hs before found eq ih =>
    rw [eq] at ih
    exact ih h

end Token

/-- Tokens to be read, and the offset at which whatever follows them starts. -/
structure Scope where
  tokens : List Token
  next : Nat
  deriving DecidableEq, Repr, Inhabited

/-- A block cut out of a scope. -/
structure Block where
  opener : Token
  inner : Scope
  closer : Option Token
  /-- What follows the block in its scope. -/
  after : Scope
  deriving DecidableEq, Repr, Inhabited

namespace Scope

/-- Offset of the first token. -/
def start (s : Scope) : Nat := Token.startOf s.tokens s.next

/-- Offset just past the last token. -/
def stop (s : Scope) : Nat := (s.tokens.getLast?.map Token.stop).getD s.next

/-- The bytes the scope covers. -/
def span (s : Scope) : Span := ⟨s.start, s.stop⟩

/-- The source text the scope covers. -/
def text (s : Scope) : String := Token.sourceText s.tokens

/-- Leave out white space and comments at the front. -/
def trimStart (s : Scope) : Scope := ⟨Token.significant s.tokens, s.next⟩

/-- Leave out white space and comments at both ends. -/
def trim (s : Scope) : Scope :=
  let backward := (Token.significant s.tokens).reverse
  ⟨(Token.significant backward).reverse,
    Token.startOf (backward.takeWhile fun t => t.kind.isTrivia).reverse s.next⟩

/-- Cut a scope in two before the first top-level token of a kind. -/
def cut (stop : Token.Kind → Bool) (s : Scope) : Scope × Scope :=
  let (before, found) := Token.spanTop stop s.tokens
  (⟨before, Token.startOf found s.next⟩, ⟨found, s.next⟩)

/-- The block that `opener` opens in front of the scope. -/
def enter (opener : Token) (s : Scope) : Block :=
  match opener.inside with
  | none => ⟨opener, s, none, ⟨[], s.next⟩⟩
  | some n =>
    match s.tokens.drop n with
    | [] => ⟨opener, s, none, ⟨[], s.next⟩⟩
    | closer :: rest => ⟨opener, ⟨s.tokens.take n, closer.start⟩, some closer, ⟨rest, s.next⟩⟩

theorem trimStart_length (s : Scope) : s.trimStart.tokens.length ≤ s.tokens.length :=
  (List.dropWhile_suffix _).length_le

theorem trim_length (s : Scope) : s.trim.tokens.length ≤ s.tokens.length := by
  have h := (List.dropWhile_suffix (l := (Token.significant s.tokens).reverse)
    fun t => t.kind.isTrivia).length_le
  have h' := s.trimStart_length
  simp only [trim, Token.significant, List.length_reverse, trimStart] at *
  omega

theorem cut_length (stop : Token.Kind → Bool) (s : Scope) :
    (s.cut stop).1.tokens.length + (s.cut stop).2.tokens.length = s.tokens.length := by
  have h := congrArg List.length (Token.spanTop_append stop s.tokens)
  simpa [cut] using h

theorem enter_length (o : Token) (s : Scope) :
    (s.enter o).inner.tokens.length + (s.enter o).after.tokens.length ≤ s.tokens.length := by
  rw [enter]
  split
  · simp
  · split
    · simp
    · rename_i n _ rest h
      have := congrArg List.length h
      simp only [List.length_drop, List.length_cons, List.length_take] at *
      omega

end Scope

namespace Block

/-- The tokens of the block, brackets included. -/
def tokens (b : Block) : List Token := b.opener :: (b.inner.tokens ++ b.closer.toList)

/-- Offset just past the block. -/
def stop (b : Block) : Nat :=
  match b.closer with
  | some c => c.stop
  | none => Scope.stop ⟨b.opener :: b.inner.tokens, b.inner.next⟩

/-- The bytes the block covers, brackets included. -/
def span (b : Block) : Span := ⟨b.opener.start, b.stop⟩

/-- What is wrong with a block whose opener has a kind and which is not closed. -/
def missing (opener : Token.Kind) : Fault :=
  match opener.closing with
  | some .rightParen => .closingParenExpected
  | some .rightSquare => .closingSquareExpected
  | _ => .closingCurlyExpected

/-- A block that is not closed is an error at its end. -/
def errors (b : Block) : List SyntaxError :=
  match b.closer with
  | some _ => []
  | none => [⟨missing b.opener.kind, b.stop⟩]

end Block

/-- A node as the grammar reads it: it knows the bytes it was read from. -/
abbrev Located := Node Span

namespace Located

/-- A node without children. -/
def leaf (kind : NodeKind) (detail : Detail) (span : Span) : Located := ⟨kind, detail, span, []⟩

/-- Text that is kept as it is. -/
def raw (s : Scope) : Located := leaf .raw (.value s.text) s.span

end Located

end Stylesheet
