import Stylesheet.Grammar.Scope

/-!
# Selectors

A selector list is read whole or not at all: the first error ends it, and callers then keep its text
raw. White space between two compounds is the descendant combinator unless another combinator stands
there as well.

Blocks that are not closed are located at the end of the scope in which the list stands, which
every function below is told as `limit`.
-/

namespace Stylesheet.Grammar

open Located

/-- Result of reading a selector or a part of one. -/
abbrev SelectorResult (α : Type) := Except SyntaxError α

/-- The pseudo-classes whose argument is a selector list. -/
def selectorFunctions : List String :=
  ["not", "is", "where", "has", "matches", "-webkit-any", "-moz-any"]

/-- Tells whether the argument of a pseudo-class is a selector list. -/
def takesSelectors (name : String) : Bool :=
  selectorFunctions.any fun candidate => Text.sameName candidate name

/-- A simple selector cut out of a scope. -/
inductive Simple where
  | node (node : Located)
  /-- A pseudo selector with an argument that is still to be read. -/
  | functional (kind : NodeKind) (name : String) (span : Span) (argument : Scope)
  deriving Inhabited

/-- A combinator other than white space in front of a scope, its last token and what follows. -/
def explicitCombinator (t : Token) (rest : Scope) : Option (String × Token × Scope) :=
  match t.delim? with
  | some '>' => some (">", t, rest)
  | some '+' => some ("+", t, rest)
  | some '~' => some ("~", t, rest)
  | some '|' =>
    match rest.tokens with
    | bar :: more => if bar.isDelim '|' then some ("||", bar, ⟨more, rest.next⟩) else none
    | [] => none
  | _ => none

/-- A type selector, with its namespace if it has one. -/
def typeSelector (t : Token) (rest : Scope) : Located × Scope :=
  let plain : Located × Scope := (leaf .typeSelector (.name t.text) t.span, rest)
  match rest.tokens with
  | bar :: name :: more =>
    if bar.isDelim '|' && (name.kind = .ident || name.isDelim '*') then
      (leaf .typeSelector (.name (Token.sourceText [t, bar, name])) ⟨t.start, name.stop⟩,
        ⟨more, rest.next⟩)
    else plain
  | _ => plain

/-- The name of an attribute in front of some tokens, with its namespace if it has one. -/
def attributeName (close : Nat) (ts : List Token) : SelectorResult (String × List Token) :=
  match Token.significant ts with
  | [] => .error ⟨.identifierExpected, close⟩
  | t :: more =>
    if t.kind ≠ .ident then .error ⟨.identifierExpected, t.start⟩
    else
      match more with
      | bar :: name :: rest =>
        if bar.isDelim '|' && name.kind = .ident then
          .ok (Token.sourceText [t, bar, name], rest)
        else .ok (t.text, more)
      | _ => .ok (t.text, more)

/-- A matcher in front of some tokens. -/
def attributeMatcher (op : Token) (more : List Token) : SelectorResult (String × List Token) :=
  match op.delim? with
  | some '=' => .ok ("=", more)
  | some c =>
    match more with
    | equal :: rest =>
      if ['~', '|', '^', '$', '*'].contains c && equal.isDelim '=' then
        .ok (String.ofList [c, '='], rest)
      else .error ⟨.matcherExpected, op.start⟩
    | [] => .error ⟨.matcherExpected, op.start⟩
  | none => .error ⟨.matcherExpected, op.start⟩

/-- The value in front of some tokens. -/
def attributeValue (close : Nat) (ts : List Token) :
    SelectorResult (AttributeValue × List Token) :=
  match Token.significant ts with
  | [] => .error ⟨.attributeValueExpected, close⟩
  | v :: rest =>
    match v.kind with
    | .string => .ok (.string (v.value.getD ""), rest)
    | .ident => .ok (.identifier v.text, rest)
    | _ => .error ⟨.attributeValueExpected, v.start⟩

/-- Flags in front of some tokens. -/
def attributeFlags (ts : List Token) : Option String × List Token :=
  match Token.significant ts with
  | f :: rest => if f.kind = .ident then (some f.text, rest) else (none, ts)
  | [] => (none, ts)

/-- What stands between the brackets of an attribute selector that close at `close`. -/
def attributeTest (close : Nat) (ts : List Token) : SelectorResult Detail := do
  let (name, more) ← attributeName close ts
  match Token.significant more with
  | [] => .ok (.attr name none none none)
  | op :: more =>
    let (matcher, more) ← attributeMatcher op more
    let (value, more) ← attributeValue close more
    let (flags, more) := attributeFlags more
    match Token.significant more with
    | [] => .ok (.attr name (some matcher) (some value) flags)
    | extra :: _ => .error ⟨.closingSquareExpected, extra.start⟩

/-- An attribute selector whose opening bracket has been read. -/
def attributeSelector (limit : Nat) (t : Token) (rest : Scope) : SelectorResult (Simple × Scope) :=
  let b := rest.enter t
  match b.closer with
  | none => .error ⟨.closingSquareExpected, limit⟩
  | some c => do
    let detail ← attributeTest c.start b.inner.tokens
    .ok (.node (leaf .attributeSelector detail b.span), b.after)

/-- The name of a pseudo selector and its argument if it has one. -/
def pseudoNamed (limit : Nat) (kind : NodeKind) (colon : Token) (s : Scope) :
    SelectorResult (Simple × Scope) :=
  match s.tokens with
  | [] => .error ⟨.identifierExpected, s.next⟩
  | t :: ts =>
    match t.kind with
    | .ident => .ok (.node (leaf kind (.name t.text) ⟨colon.start, t.stop⟩), ⟨ts, s.next⟩)
    | .function =>
      let b := Scope.enter t ⟨ts, s.next⟩
      match b.closer with
      | none => .error ⟨.closingParenExpected, limit⟩
      | some c =>
        let name := String.ofList t.text.toList.dropLast
        .ok (.functional kind name ⟨colon.start, c.stop⟩ b.inner.trim, b.after)
    | _ => .error ⟨.identifierExpected, t.start⟩

/-- A pseudo selector whose first colon has been read; a second one makes it a pseudo-element. -/
def pseudoSelector (limit : Nat) (colon : Token) (rest : Scope) : SelectorResult (Simple × Scope) :=
  match rest.tokens with
  | second :: ts =>
    if second.kind = .colon then
      pseudoNamed limit .pseudoElementSelector colon ⟨ts, rest.next⟩
    else pseudoNamed limit .pseudoClassSelector colon rest
  | [] => pseudoNamed limit .pseudoClassSelector colon rest

/-- A class selector whose point has been read. -/
def classSelector (point : Token) (rest : Scope) : SelectorResult (Simple × Scope) :=
  match rest.tokens with
  | [] => .error ⟨.identifierExpected, rest.next⟩
  | t :: ts =>
    if t.kind = .ident then
      .ok (.node (leaf .classSelector (.name t.text) ⟨point.start, t.stop⟩), ⟨ts, rest.next⟩)
    else .error ⟨.identifierExpected, t.start⟩

/-- The simple selector that starts with the token `t`, and what follows it. -/
def simpleSelector (limit : Nat) (t : Token) (rest : Scope) : SelectorResult (Simple × Scope) :=
  let named : SelectorResult (Simple × Scope) :=
    .ok (.node (typeSelector t rest).1, (typeSelector t rest).2)
  match t.kind with
  | .ident => named
  | .hash =>
    .ok (.node (leaf .idSelector (.name (String.ofList t.text.toList.tail)) t.span), rest)
  | .leftSquare => attributeSelector limit t rest
  | .colon => pseudoSelector limit t rest
  | .delim =>
    match t.delim? with
    | some '*' => named
    | some '&' => .ok (.node (leaf .nestingSelector .none t.span), rest)
    | some '.' => classSelector t rest
    | _ => .error ⟨.selectorExpected, t.start⟩
  | _ => .error ⟨.selectorExpected, t.start⟩

/-- Number of tokens in the argument that a simple selector still has to read. -/
def Simple.pending : Simple → Nat
  | .node _ => 0
  | .functional _ _ _ argument => argument.tokens.length

theorem explicitCombinator_length {t final : Token} {rest after : Scope} {name : String}
    (h : explicitCombinator t rest = some (name, final, after)) :
    after.tokens.length ≤ rest.tokens.length := by
  unfold explicitCombinator at h
  split at h
  · cases h; exact Nat.le_refl _
  · cases h; exact Nat.le_refl _
  · cases h; exact Nat.le_refl _
  · split at h
    · rename_i hs
      split at h
      · cases h; simp [hs]
      · cases h
    · cases h
  · cases h

theorem typeSelector_length (t : Token) (rest : Scope) :
    (typeSelector t rest).2.tokens.length ≤ rest.tokens.length := by
  rw [typeSelector]
  split
  · rename_i h
    split
    · rw [h]; simp; omega
    · exact Nat.le_refl _
  · exact Nat.le_refl _

theorem pseudoNamed_length {limit : Nat} {kind : NodeKind} {colon : Token} {s after : Scope}
    {p : Simple} (h : pseudoNamed limit kind colon s = .ok (p, after)) :
    p.pending ≤ s.tokens.length ∧ after.tokens.length ≤ s.tokens.length := by
  unfold pseudoNamed at h
  split at h
  · cases h
  · rename_i t ts hs
    split at h
    · cases h; simp [Simple.pending, hs]
    · dsimp only at h
      split at h
      · cases h
      · cases h
        have := Scope.enter_length t ⟨ts, s.next⟩
        have := (Scope.enter t ⟨ts, s.next⟩).inner.trim_length
        simp only [Simple.pending, hs, List.length_cons] at *
        omega
    · cases h

theorem simpleSelector_length {limit : Nat} {t : Token} {rest after : Scope} {p : Simple}
    (h : simpleSelector limit t rest = .ok (p, after)) :
    p.pending ≤ rest.tokens.length ∧ after.tokens.length ≤ rest.tokens.length := by
  have named : ∀ q, Except.ok (ε := SyntaxError)
      (Simple.node (typeSelector t rest).1, (typeSelector t rest).2) = .ok q →
      q.1.pending ≤ rest.tokens.length ∧ q.2.tokens.length ≤ rest.tokens.length := by
    rintro q ⟨⟩
    exact ⟨Nat.zero_le _, typeSelector_length t rest⟩
  unfold simpleSelector at h
  split at h
  · exact named _ h
  · cases h; simp [Simple.pending]
  · unfold attributeSelector at h
    dsimp only at h
    split at h
    · cases h
    · rename_i c hc
      cases hd : attributeTest c.start (rest.enter t).inner.tokens with
      | error e => simp [hd, bind, Except.bind] at h
      | ok d =>
        simp only [hd, bind, Except.bind, Except.ok.injEq, Prod.mk.injEq] at h
        obtain ⟨rfl, rfl⟩ := h
        have := Scope.enter_length t rest
        simp only [Simple.pending]
        omega
  · unfold pseudoSelector at h
    split at h
    · rename_i second ts hs
      split at h
      · have := pseudoNamed_length h
        simp only [hs, List.length_cons] at *
        omega
      · exact pseudoNamed_length h
    · exact pseudoNamed_length h
  · split at h
    · exact named _ h
    · cases h; simp [Simple.pending]
    · unfold classSelector at h
      split at h
      · cases h
      · rename_i hs
        split at h
        · cases h; simp [Simple.pending, hs]
        · cases h
    · cases h
  · cases h

/-- The descendant combinator that white space stands for, unless a combinator stands before it. -/
def descendant (last : Option NodeKind) (space : Option Token) : List Located :=
  match space with
  | some w => if last = some .combinator then [] else [leaf .combinator (.name " ") w.span]
  | none => []

mutual

/-- The selectors of a scope, separated by commas. -/
def selectors (limit : Nat) (s : Scope) : SelectorResult (List Located) :=
  let cut := s.cut (· = .comma)
  let part := cut.1.trim
  if part.tokens.isEmpty then .error ⟨.selectorExpected, part.start⟩
  else do
    let children ← selectorParts limit none none part
    let first : Located := ⟨.selector, .none, part.span, children⟩
    match _h : cut.2.tokens with
    | [] => .ok [first]
    | _ :: ts => do
      let rest ← selectors limit ⟨ts, s.next⟩
      .ok (first :: rest)
termination_by 2 * s.tokens.length + 1
decreasing_by
  · have hl := s.cut_length (· = .comma)
    have ht := (s.cut (· = .comma)).1.trim_length
    omega
  · have hl := s.cut_length (· = .comma)
    have hc : (s.cut (· = .comma)).2.tokens.length = ts.length + 1 := by
      rw [_h, List.length_cons]
    omega

/-- The simple selectors and combinators of a scope. `last` is the kind of the part before, and
`space` the white space since then. -/
def selectorParts (limit : Nat) (last : Option NodeKind) (space : Option Token) (s : Scope) :
    SelectorResult (List Located) :=
  match _hs : s.tokens with
  | [] => .ok []
  | t :: ts =>
    if t.kind = .whiteSpace then
      let space := if last.isSome && space.isNone then some t else space
      selectorParts limit last space ⟨ts, s.next⟩
    else if t.kind = .comment then selectorParts limit last space ⟨ts, s.next⟩
    else
      match _hc : explicitCombinator t ⟨ts, s.next⟩ with
      | some (name, final, after) => do
        let rest ← selectorParts limit (some .combinator) none after
        .ok (leaf .combinator (.name name) ⟨t.start, final.stop⟩ :: rest)
      | none =>
        match _hx : simpleSelector limit t ⟨ts, s.next⟩ with
        | .error e => .error e
        | .ok (.node n, after) => do
          let rest ← selectorParts limit (some n.kind) none after
          .ok (descendant last space ++ n :: rest)
        | .ok (.functional kind name span argument, after) => do
          let child ←
            if kind = .pseudoClassSelector && takesSelectors name then
              if argument.tokens.isEmpty then .error ⟨.selectorExpected, argument.start⟩
              else do
                let items ← selectors limit argument
                .ok ⟨.selectorList, .none, argument.span, items⟩
            else .ok (raw argument)
          let rest ← selectorParts limit (some kind) none after
          .ok (descendant last space ++ ⟨kind, .name name, span, [child]⟩ :: rest)
termination_by 2 * s.tokens.length
decreasing_by
  · simp only [_hs, List.length_cons]; omega
  · simp only [_hs, List.length_cons]; omega
  · have := explicitCombinator_length _hc
    dsimp only at this
    simp only [_hs, List.length_cons]
    omega
  · have := simpleSelector_length _hx
    dsimp only at this
    simp only [_hs, List.length_cons]
    omega
  · have := simpleSelector_length _hx
    dsimp only at this
    simp only [_hs, List.length_cons]
    omega
  · have := simpleSelector_length _hx
    dsimp only [Simple.pending] at this
    simp only [_hs, List.length_cons]
    omega

end

/-- A selector list read from a trimmed scope. -/
def selectorList (limit : Nat) (s : Scope) : SelectorResult Located := do
  let items ← selectors limit s
  .ok ⟨.selectorList, .none, s.span, items⟩

/-- One selector read from a trimmed scope. -/
def selector (limit : Nat) (s : Scope) : SelectorResult Located := do
  let children ← selectorParts limit none none s
  .ok ⟨.selector, .none, s.span, children⟩

/-- Text that was no selector is kept raw, with its error. -/
def orRaw (s : Scope) : SelectorResult Located → Parsed Located
  | .ok n => ⟨n, []⟩
  | .error e => ⟨raw s, [e]⟩

end Stylesheet.Grammar
