import Stylesheet.Proofs.Cursor.Value
import Stylesheet.Proofs.Shift.Selector

/-!
# Selectors by index

Selectors read by a cursor. Apart from the checks, which end the reading without an answer, the
first error ends a list of selectors as in the grammar. `Agrees` relates the two ways of reading:
they fail with the same error, or both answer, and what they answer is related.
-/

namespace Stylesheet

namespace Input

open Located Grammar

/-! ### Steps that may fail -/

section

variable {α β γ δ : Type}

/-- Go on with an answer, and keep an error. -/
def andThen (r : Option (SelectorResult α)) (f : α → Option (SelectorResult β)) :
    Option (SelectorResult β) := do
  let r ← r
  match r with
  | .ok a => f a
  | .error e => some (.error e)

/-- A checked reading answers, and agrees with a reading of the grammar. -/
inductive Agrees (R : α → β → Prop) : Option (SelectorResult α) → SelectorResult β → Prop
  | error (e : SyntaxError) : Agrees R (some (.error e)) (.error e)
  | ok {a : α} {b : β} (related : R a b) : Agrees R (some (.ok a)) (.ok b)

variable {R : α → β → Prop} {S : γ → δ → Prop}

theorem Agrees.andThen {r : Option (SelectorResult α)} {r' : SelectorResult β}
    {f : α → Option (SelectorResult γ)} {g : β → SelectorResult δ} (h : Agrees R r r')
    (later : ∀ a b, R a b → Agrees S (f a) (g b)) : Agrees S (andThen r f) (r' >>= g) := by
  cases h with
  | error e => exact .error e
  | ok related => exact later _ _ related

theorem agrees_eq_iff {r : Option (SelectorResult α)} {r' : SelectorResult α} :
    Agrees Eq r r' ↔ r = some r' := by
  constructor
  · rintro (_ | rfl) <;> rfl
  · rintro rfl
    cases r' with
    | error e => exact .error e
    | ok a => exact .ok rfl

theorem Agrees.with_ok {r : Option (SelectorResult α)} {r' : SelectorResult α}
    (h : Agrees Eq r r') : Agrees (fun a b => a = b ∧ r' = .ok b) r r' := by
  cases h with
  | error e => exact .error e
  | ok same => exact .ok ⟨same, rfl⟩

theorem andThen_ok (a : α) (f : α → Option (SelectorResult γ)) :
    Input.andThen (some (.ok a)) f = f a := rfl

end

variable (x : Input)

/-! ### Simple selectors -/

/-- The next token that is neither white space nor a comment, and its place. -/
def seek (i limit : Nat) : Option (Option (Nat × Token)) := do
  let k ← x.significant i limit
  let t ← x.peek k limit
  some (t.map fun t => (k, t))

/-- Tells whether a bar and a token that is selected follow the token at `i`. -/
def qualifies (f : Token → Bool) (i limit : Nat) : Option Bool := do
  let bar ← x.peek (i + 1) limit
  match bar with
  | none => some false
  | some bar =>
    if bar.isDelim '|' then do
      let name ← x.peek (i + 2) limit
      some (name.any f)
    else some false

/-- A combinator other than white space, and the place behind it. -/
def combinator (i limit : Nat) : Option (Option (String × Ahead i limit)) := do
  let single (name : String) : Option (Option (String × Ahead i limit)) := do
    let next ← advance i limit (i + 1)
    some (some (name, next))
  let t ← x.peek i limit
  match t.bind Token.delim? with
  | some '>' => single ">"
  | some '+' => single "+"
  | some '~' => single "~"
  | some '|' => do
    let bar ← x.peek (i + 1) limit
    match bar with
    | none => some none
    | some bar =>
      if bar.isDelim '|' then do
        let next ← advance i limit (i + 2)
        some (some ("||", next))
      else some none
  | _ => some none

/-- A type selector, with its namespace if it has one. -/
def typeSelector (i limit : Nat) : Option (Located × Ahead i limit) := do
  let qualified ← x.qualifies (fun t => t.kind = .ident || t.isDelim '*') i limit
  let last := if qualified then i + 2 else i
  let name ← x.slice i (last + 1)
  let first ← x.token i
  let final ← x.token last
  let next ← advance i limit (last + 1)
  some (leaf .typeSelector (.name name) ⟨first.start, final.stop⟩, next)

/-- The name of an attribute, with its namespace if it has one. -/
def attributeName (i close : Nat) : Option (SelectorResult (String × Nat)) := do
  let found ← x.seek i close
  match found with
  | none => some (.error ⟨.identifierExpected, x.offset close⟩)
  | some (k, t) =>
    if t.kind ≠ .ident then some (.error ⟨.identifierExpected, t.start⟩)
    else do
      let qualified ← x.qualifies (fun t => t.kind = .ident) k close
      if qualified then do
        let name ← x.slice k (k + 3)
        some (.ok (name, k + 3))
      else some (.ok (t.text, k + 1))

/-- The matcher whose first token stands at `k`; its two tokens must be adjacent. -/
def attributeMatcher (op : Token) (k close : Nat) : Option (SelectorResult (String × Nat)) :=
  match op.delim? with
  | some '=' => some (.ok ("=", k + 1))
  | some c => do
    let equal ← x.peek (k + 1) close
    match equal with
    | some e =>
      if ['~', '|', '^', '$', '*'].contains c && e.isDelim '=' && e.start = op.stop then
        some (.ok (String.ofList [c, '='], k + 2))
      else some (.error ⟨.matcherExpected, op.start⟩)
    | none => some (.error ⟨.matcherExpected, op.start⟩)
  | none => some (.error ⟨.matcherExpected, op.start⟩)

/-- The value of an attribute. -/
def attributeValue (i close : Nat) : Option (SelectorResult (AttributeValue × Nat)) := do
  let found ← x.seek i close
  match found with
  | none => some (.error ⟨.attributeValueExpected, x.offset close⟩)
  | some (k, v) =>
    match v.kind with
    | .string => some (.ok (.string (v.value.getD ""), k + 1))
    | .ident => some (.ok (.identifier v.text, k + 1))
    | _ => some (.error ⟨.attributeValueExpected, v.start⟩)

/-- Flags, if there are any. -/
def attributeFlags (i close : Nat) : Option (Option String × Nat) := do
  let found ← x.seek i close
  match found with
  | none => some (none, i)
  | some (k, f) => if f.kind = .ident then some (some f.text, k + 1) else some (none, i)

/-- What stands between the brackets of an attribute selector that close at `close`. All tokens
between them are looked at first. -/
def attributeTest (i close : Nat) : Option (SelectorResult Detail) := do
  let _ ← x.visit i close
  andThen (x.attributeName i close) fun (name, i) => do
    let op ← x.seek i close
    match op with
    | none => some (.ok (.attr name none none none))
    | some (k, op) =>
      andThen (x.attributeMatcher op k close) fun (matcher, i) =>
        andThen (x.attributeValue i close) fun (value, i) => do
          let (flags, i) ← x.attributeFlags i close
          let extra ← x.seek i close
          match extra with
          | none => some (.ok (.attr name (some matcher) (some value) flags))
          | some (_, extra) => some (.error ⟨.closingSquareExpected, extra.start⟩)

/-- A simple selector in a range. -/
inductive Part (i limit : Nat) where
  | node (node : Located)
  /-- A pseudo selector with an argument that is still to be read. -/
  | functional (kind : NodeKind) (name : String) (span : Span) (argument : Within (i + 1) limit)

/-- An attribute selector whose opening bracket stands at `i`. -/
def attributeSelector (scope i limit : Nat) :
    Option (SelectorResult (Part i limit × Ahead i limit)) :=
  match x.list.close? i with
  | none => do
    let error ← x.missing i scope
    some (.error error)
  | some close =>
    andThen (x.attributeTest (i + 1) close) fun detail => do
      let opener ← x.token i
      let closer ← x.token close
      let next ← advance i limit (close + 1)
      some (.ok (.node (leaf .attributeSelector detail ⟨opener.start, closer.stop⟩), next))

/-- The pseudo selector whose colon stands at `i` and whose name stands at `k`. -/
def pseudoNamed (scope : Nat) (kind : NodeKind) (i k limit : Nat) :
    Option (SelectorResult (Part i limit × Ahead i limit)) := do
  let colon ← x.token i
  let name ← x.peek k limit
  match name with
  | none => some (.error ⟨.identifierExpected, x.offset k⟩)
  | some t =>
    match t.kind with
    | .ident => do
      let next ← advance i limit (k + 1)
      some (.ok (.node (leaf kind (.name t.text) ⟨colon.start, t.stop⟩), next))
    | .function => do
      let name ← dropLast t.text
      match (x.list.close? k).filter (· < limit) with
      | none => do
        let error ← x.missing k scope
        some (.error error)
      | some close => do
        let closer ← x.token close
        let ⟨(start, stop), _⟩ ← x.trim (k + 1) close
        let argument ← narrow (i + 1) limit start stop
        let next ← advance i limit (close + 1)
        some (.ok (.functional kind name ⟨colon.start, closer.stop⟩ argument, next))
    | _ => some (.error ⟨.identifierExpected, t.start⟩)

/-- A pseudo selector whose first colon stands at `i`; a second one makes it a pseudo-element. -/
def pseudoSelector (scope i limit : Nat) :
    Option (SelectorResult (Part i limit × Ahead i limit)) := do
  let second ← x.peek (i + 1) limit
  match second with
  | none => x.pseudoNamed scope .pseudoClassSelector i (i + 1) limit
  | some second =>
    if second.kind = .colon then x.pseudoNamed scope .pseudoElementSelector i (i + 2) limit
    else x.pseudoNamed scope .pseudoClassSelector i (i + 1) limit

/-- A class selector whose point stands at `i`. -/
def classSelector (i limit : Nat) : Option (SelectorResult (Part i limit × Ahead i limit)) := do
  let point ← x.token i
  let name ← x.peek (i + 1) limit
  match name with
  | none => some (.error ⟨.identifierExpected, x.offset (i + 1)⟩)
  | some t =>
    if t.kind = .ident then do
      let next ← advance i limit (i + 2)
      some (.ok (.node (leaf .classSelector (.name t.text) ⟨point.start, t.stop⟩), next))
    else some (.error ⟨.identifierExpected, t.start⟩)

/-- The simple selector that starts at `i`. Blocks that are not closed are located at the end of
`scope`. -/
def simpleSelector (scope i limit : Nat) :
    Option (SelectorResult (Part i limit × Ahead i limit)) := do
  let t ← x.token i
  let text ← x.textAt i
  let named : Option (SelectorResult (Part i limit × Ahead i limit)) := do
    let (n, next) ← x.typeSelector i limit
    some (.ok (.node n, next))
  match t.kind with
  | .ident => named
  | .hash => do
    let name ← dropFirst text
    let next ← advance i limit (i + 1)
    some (.ok (.node (leaf .idSelector (.name name) t.span), next))
  | .leftSquare => x.attributeSelector scope i limit
  | .colon => x.pseudoSelector scope i limit
  | .delim =>
    match t.delim? with
    | some '*' => named
    | some '&' => do
      let next ← advance i limit (i + 1)
      some (.ok (.node (leaf .nestingSelector .none t.span), next))
    | some '.' => x.classSelector i limit
    | _ => some (.error ⟨.selectorExpected, t.start⟩)
  | _ => some (.error ⟨.selectorExpected, t.start⟩)

/-! ### Lists of selectors -/

/-- The descendant combinator that white space stands for, unless a combinator stands before it. -/
def descendant (last : Option NodeKind) (space : Option Nat) : Option (List Located) :=
  match space with
  | some k => do
    let w ← x.token k
    some (if last = some .combinator then [] else [leaf .combinator (.name " ") w.span])
  | none => some []

mutual

/-- The selectors of a range, separated by commas. -/
def selectors (scope i limit : Nat) : Option (SelectorResult (List Located)) := do
  let ⟨stop, _⟩ ← x.cut (· = .comma) i limit
  let ⟨part, _⟩ ← x.trim i stop
  if part.1 = part.2 then some (.error ⟨.selectorExpected, x.offset part.1⟩)
  else do
    let span ← x.span part.1 part.2
    andThen (selectorParts scope none none part.1 part.2) fun children =>
      let later : Option (SelectorResult (List Located)) :=
        if _h : stop < limit then selectors scope (stop + 1) limit else some (.ok [])
      andThen later fun rest => some (.ok (⟨.selector, .none, span, children⟩ :: rest))
termination_by 2 * (limit - i) + 1

/-- The simple selectors and combinators of a range. `last` is the kind of the part before, and
`space` the place of the white space since then. -/
def selectorParts (scope : Nat) (last : Option NodeKind) (space : Option Nat) (i limit : Nat) :
    Option (SelectorResult (List Located)) :=
  if _h : i < limit then do
    let t ← x.token i
    if t.kind = .whiteSpace then
      let space := if last.isSome && space.isNone then some i else space
      selectorParts scope last space (i + 1) limit
    else if t.kind = .comment then selectorParts scope last space (i + 1) limit
    else do
      let combinator ← x.combinator i limit
      match combinator with
      | some (name, ⟨next, _⟩) => do
        let final ← x.token (next - 1)
        andThen (selectorParts scope (some .combinator) none next limit) fun rest =>
          some (.ok (leaf .combinator (.name name) ⟨t.start, final.stop⟩ :: rest))
      | none => do
        let before ← x.descendant last space
        andThen (x.simpleSelector scope i limit) fun (part, ⟨next, _⟩) =>
          let finished : Option (SelectorResult Located) :=
            match part with
            | .node n => some (.ok n)
            | .functional kind name span ⟨(start, stop), _⟩ => do
              let inside ← x.span start stop
              let child : Option (SelectorResult Located) :=
                if kind = .pseudoClassSelector && takesSelectors name then
                  if start = stop then some (.error ⟨.selectorExpected, x.offset start⟩)
                  else do
                    let _ ← x.scan start stop
                    andThen (selectors scope start stop) fun items =>
                      some (.ok ⟨.selectorList, .none, inside, items⟩)
                else (x.raw start stop).map .ok
              andThen child fun child => some (.ok ⟨kind, .name name, span, [child]⟩)
          andThen finished fun n =>
            andThen (selectorParts scope (some n.kind) none next limit) fun rest =>
              some (.ok (before ++ n :: rest))
  else some (.ok [])
termination_by 2 * (limit - i)

end

/-- A selector list read from a trimmed range. -/
def selectorList (scope i limit : Nat) : Option (SelectorResult Located) := do
  let _ ← x.scan i limit
  let span ← x.span i limit
  andThen (x.selectors scope i limit) fun items =>
    some (.ok ⟨.selectorList, .none, span, items⟩)

/-- One selector read from a trimmed range. -/
def selector (scope i limit : Nat) : Option (SelectorResult Located) := do
  let span ← x.span i limit
  andThen (x.selectorParts scope none none i limit) fun children =>
    some (.ok ⟨.selector, .none, span, children⟩)

/-- Text that was no selector is kept raw, with its error. -/
def orRaw (i limit : Nat) (r : Option (SelectorResult Located)) : Option (Parsed Located) := do
  let r ← r
  match r with
  | .ok n => some ⟨n, []⟩
  | .error e => do
    let raw ← x.raw i limit
    some ⟨raw, [e]⟩

/-! ### Reading the range of a scope -/

/-- Blocks that are not closed are located at the offset `limit`, which is where the scope that ends
with the place `scope` stops. -/
def EndsAt (scope limit : Nat) : Prop := ∀ k < scope, x.endOffset k scope = some limit

/-- The same simple selector, whose argument stands in a range or is a scope. -/
inductive Part.IsSame {i j : Nat} : Part i j → Simple → Prop
  | node (n : Located) : IsSame (.node n) (.node n)
  | functional {kind : NodeKind} {name : String} {span : Span} {argument : Within (i + 1) j}
      {s : Scope} (held : x.Holds argument.1.1 argument.1.2 s) :
      IsSame (.functional kind name span argument) (.functional kind name span s)

/-- The same was read, and reading goes on at the same place. -/
def Resumes {α : Type} (close next : Nat) (a : α × Nat) (b : α × List Token) : Prop :=
  a.1 = b.1 ∧ x.Holds a.2 close ⟨b.2, next⟩

/-- The same simple selector was read, and reading goes on at the same place. -/
def Follows {i j : Nat} (a : Part i j × Ahead i j) (b : Simple × Scope) : Prop :=
  a.1.IsSame x b.1 ∧ x.Holds a.2.1 j b.2

/-- A bar and a token that is selected stand in front of some tokens. -/
def Qualified (f : Token → Bool) : List Token → Bool
  | bar :: name :: _ => bar.isDelim '|' && f name
  | _ => false

theorem qualified_iff {f : Token → Bool} {ts : List Token} : Qualified f ts = true ↔
    ∃ bar name more, ts = bar :: name :: more ∧ bar.isDelim '|' = true ∧ f name = true := by
  unfold Qualified
  split
  · rw [Bool.and_eq_true]
    constructor
    · rintro ⟨bar, name⟩
      exact ⟨_, _, _, rfl, bar, name⟩
    · rintro ⟨_, _, _, ⟨⟩, bar, name⟩
      exact ⟨bar, name⟩
  · rename_i other
    refine ⟨by rintro ⟨⟩, ?_⟩
    rintro ⟨bar, name, more, rfl, -⟩
    exact (other _ _ _ rfl).elim

namespace Holds

variable {x : Input} {i j scope limit : Nat} {s : Scope} {t : Token} {ts : List Token} {next : Nat}

theorem tail_of_leaf (h : x.Holds i j ⟨t :: ts, next⟩) (plain : t.kind.opensBlock = false) :
    x.Holds (i + 1) j ⟨ts, next⟩ :=
  h.tail (h.matched.of_leaf plain)

theorem opensBlock_of_isDelim {c : Char} (h : t.isDelim c = true) : t.kind.opensBlock = false := by
  rw [kind_of_isDelim h]
  rfl

theorem seek_nil (h : x.Holds i j s) (hs : Token.significant s.tokens = []) :
    x.seek i j = some none := by
  obtain ⟨k, found, -, held⟩ := h.significant
  rw [Input.seek, found]
  simp only [Option.bind_eq_bind, Option.bind_some]
  rw [held.peek, Scope.trimStart, hs]
  rfl

theorem seek_cons (h : x.Holds i j s) (hs : Token.significant s.tokens = t :: ts) :
    ∃ k, x.seek i j = some (some (k, t)) ∧ i ≤ k ∧ x.Holds k j ⟨t :: ts, s.next⟩ := by
  obtain ⟨k, found, le, held⟩ := h.significant
  rw [Scope.trimStart, hs] at held
  refine ⟨k, ?_, le, held⟩
  rw [Input.seek, found]
  simp only [Option.bind_eq_bind, Option.bind_some]
  rw [held.peek]
  rfl

theorem qualifies (f : Token → Bool) (h : x.Holds i j ⟨t :: ts, next⟩)
    (plain : t.kind.opensBlock = false) : x.qualifies f i j = some (Qualified f ts) := by
  have tail := h.tail_of_leaf plain
  rw [Input.qualifies, tail.peek]
  simp only [Option.bind_eq_bind, Option.bind_some]
  cases ts with
  | nil => rfl
  | cons bar ts =>
    dsimp only [List.head?_cons]
    by_cases delim : bar.isDelim '|' = true
    · rw [if_pos delim, (tail.tail_of_leaf (opensBlock_of_isDelim delim)).peek]
      cases ts <;> simp [Qualified, delim]
    · rw [if_neg delim]
      cases ts <;> simp [Qualified, delim]

theorem matched_leaf (plain : t.kind.opensBlock = false) (rest : Token.Matched ts) :
    Token.Matched (t :: ts) := by
  refine .cons (fun opens => ?_) rest
  rw [plain] at opens
  cases opens

/-- The text of one token as a slice. -/
theorem slice_one (h : x.Holds i j ⟨t :: ts, next⟩) (plain : t.kind.opensBlock = false) :
    x.slice i (i + 1) = some t.text := by
  have front : x.Holds i (i + 1) ⟨[t], Token.startOf ts next⟩ :=
    h.front (show _ = [t] ++ ts from rfl) (matched_leaf plain .nil)
  have text : Scope.text ⟨[t], Token.startOf ts next⟩ = t.text := by
    simp [Scope.text, Token.sourceText, Token.pieces]
  rw [front.slice, text]

/-- The text of three adjacent tokens as a slice. -/
theorem slice_three {u v : Token} (h : x.Holds i j ⟨t :: u :: v :: ts, next⟩)
    (first : t.kind.opensBlock = false) (second : u.kind.opensBlock = false)
    (third : v.kind.opensBlock = false) :
    x.slice i (i + 3) = some (Token.sourceText [t, u, v]) :=
  (h.front (show _ = [t, u, v] ++ ts from rfl)
    (matched_leaf first (matched_leaf second (matched_leaf third .nil)))).slice

/-- A combinator is found where the grammar finds one, and reading goes on behind its last token. -/
theorem combinator (h : x.Holds i j ⟨t :: ts, next⟩) :
    (explicitCombinator t ⟨ts, next⟩ = none ∧ x.combinator i j = some none) ∨
      ∃ name final after n, explicitCombinator t ⟨ts, next⟩ = some (name, final, after) ∧
        x.combinator i j = some (some (name, n)) ∧ x.token (n.1 - 1) = some final ∧
          x.Holds n.1 j after := by
  rw [Input.combinator, h.peek]
  simp only [Option.bind_eq_bind, Option.bind_some, List.head?_cons]
  cases delim : t.delim? with
  | none =>
    unfold explicitCombinator
    rw [delim]
    exact .inl ⟨rfl, rfl⟩
  | some c =>
    have plain : t.kind.opensBlock = false :=
      opensBlock_of_isDelim (show t.isDelim c = true by simp [Token.isDelim, delim])
    have tail := h.tail_of_leaf plain
    have ahead : i < i + 1 ∧ i + 1 ≤ j := ⟨Nat.lt_succ_self i, tail.le⟩
    have found (name : String) :
        ∃ name' final after n, some (name, t, Scope.mk ts next) = some (name', final, after) ∧
          (advance i j (i + 1)).bind (fun next => some (some (name, next))) =
            some (some (name', n)) ∧ x.token (n.1 - 1) = some final ∧ x.Holds n.1 j after := by
      refine ⟨name, t, ⟨ts, next⟩, ⟨i + 1, ahead⟩, rfl, ?_, h.token_head, tail⟩
      rw [advance_eq ahead]
      rfl
    split
    · rename_i mark
      cases mark
      unfold explicitCombinator
      rw [delim]
      exact .inr (found ">")
    · rename_i mark
      cases mark
      unfold explicitCombinator
      rw [delim]
      exact .inr (found "+")
    · rename_i mark
      cases mark
      unfold explicitCombinator
      rw [delim]
      exact .inr (found "~")
    · rename_i mark
      cases mark
      rw [tail.peek]
      cases ts with
      | nil =>
        unfold explicitCombinator
        rw [delim]
        exact .inl ⟨rfl, rfl⟩
      | cons bar more =>
        have read : explicitCombinator t ⟨bar :: more, next⟩ =
            if bar.isDelim '|' then some ("||", bar, ⟨more, next⟩) else none := by
          unfold explicitCombinator
          rw [delim]
          rfl
        rw [read]
        dsimp only [List.head?_cons, Option.bind_some]
        split
        · rename_i second
          have rest := tail.tail_of_leaf (opensBlock_of_isDelim second)
          have ahead : i < i + 2 ∧ i + 2 ≤ j := ⟨by omega, rest.le⟩
          refine .inr ⟨"||", bar, ⟨more, next⟩, ⟨i + 2, ahead⟩, rfl, ?_, tail.token_head, rest⟩
          rw [advance_eq ahead]
          rfl
        · exact .inl ⟨rfl, rfl⟩
    · rename_i greater plus tilde bar
      unfold explicitCombinator
      rw [delim]
      split
      · rename_i mark; cases mark; exact (greater rfl).elim
      · rename_i mark; cases mark; exact (plus rfl).elim
      · rename_i mark; cases mark; exact (tilde rfl).elim
      · rename_i mark; cases mark; exact (bar rfl).elim
      · exact .inl ⟨rfl, rfl⟩

theorem no_combinator (h : x.Holds i j ⟨t :: ts, next⟩)
    (nothing : explicitCombinator t ⟨ts, next⟩ = none) : x.combinator i j = some none := by
  obtain ⟨-, read⟩ | ⟨_, _, _, _, found, -⟩ := h.combinator
  · exact read
  · rw [nothing] at found
    cases found

theorem typeSelector (h : x.Holds i j ⟨t :: ts, next⟩) (plain : t.kind.opensBlock = false) :
    ∃ n, x.typeSelector i j = some ((Grammar.typeSelector t ⟨ts, next⟩).1, n) ∧
      x.Holds n.1 j (Grammar.typeSelector t ⟨ts, next⟩).2 := by
  rw [Input.typeSelector, h.qualifies _ plain]
  simp only [Option.bind_eq_bind, Option.bind_some]
  by_cases qualified : Qualified (fun t => t.kind = .ident || t.isDelim '*') ts = true
  · obtain ⟨bar, name, more, rfl, hb, hn⟩ := qualified_iff.mp qualified
    have leaf : name.kind.opensBlock = false := by
      rw [Bool.or_eq_true, decide_eq_true_eq] at hn
      obtain ident | star := hn
      · rw [ident]
        rfl
      · exact opensBlock_of_isDelim star
    have second := h.tail_of_leaf plain
    have third := second.tail_of_leaf (opensBlock_of_isDelim hb)
    have rest := third.tail_of_leaf leaf
    have ahead : i < i + 2 + 1 ∧ i + 2 + 1 ≤ j := ⟨by omega, rest.le⟩
    have read : Grammar.typeSelector t ⟨bar :: name :: more, next⟩ =
        (Located.leaf .typeSelector (.name (Token.sourceText [t, bar, name])) ⟨t.start, name.stop⟩,
          ⟨more, next⟩) := by
      simp only [Grammar.typeSelector]
      rw [if_pos (by rw [hb, Bool.true_and]; exact hn)]
    rw [read, if_pos qualified, h.slice_three plain (opensBlock_of_isDelim hb) leaf]
    simp only [Option.bind_some]
    rw [h.token_head, Option.bind_some, third.token_head, Option.bind_some, advance_eq ahead]
    exact ⟨_, rfl, rest⟩
  · have rest := h.tail_of_leaf plain
    have ahead : i < i + 1 ∧ i + 1 ≤ j := ⟨Nat.lt_succ_self i, rest.le⟩
    have read : Grammar.typeSelector t ⟨ts, next⟩ =
        (Located.leaf .typeSelector (.name t.text) t.span, ⟨ts, next⟩) := by
      rw [Grammar.typeSelector]
      split
      · rename_i bar name more found
        dsimp only at found
        refine if_neg fun cond => qualified (qualified_iff.mpr ⟨bar, name, more, found, ?_⟩)
        rwa [Bool.and_eq_true] at cond
      · rfl
    rw [read, if_neg qualified, h.slice_one plain]
    simp only [Option.bind_some]
    rw [h.token_head, Option.bind_some, Option.bind_some, advance_eq ahead]
    exact ⟨_, rfl, rest⟩

/-! ### Attributes -/

theorem attributeName (h : x.Holds i j ⟨ts, next⟩) :
    Agrees (x.Resumes j next) (x.attributeName i j) (Grammar.attributeName next ts) := by
  rw [Input.attributeName, Grammar.attributeName]
  cases hs : Token.significant ts with
  | nil =>
    rw [h.seek_nil hs]
    simp only [Option.bind_eq_bind, Option.bind_some]
    rw [h.offset_stop]
    exact .error _
  | cons t more =>
    obtain ⟨k, found, -, held⟩ := h.seek_cons hs
    rw [found]
    simp only [Option.bind_eq_bind, Option.bind_some]
    by_cases ident : t.kind = .ident
    · have plain : t.kind.opensBlock = false := by rw [ident]; rfl
      rw [if_neg (not_not_intro ident), if_neg (not_not_intro ident), held.qualifies _ plain,
        Option.bind_some]
      by_cases qualified : Qualified (fun t => t.kind = .ident) more = true
      · obtain ⟨bar, name, rest, rfl, hb, hn⟩ := qualified_iff.mp qualified
        have leaf : name.kind.opensBlock = false := by
          rw [of_decide_eq_true hn]
          rfl
        have third := (held.tail_of_leaf plain).tail_of_leaf (opensBlock_of_isDelim hb)
        rw [if_pos qualified, held.slice_three plain (opensBlock_of_isDelim hb) leaf]
        dsimp only [Option.bind_some]
        rw [if_pos (by rw [hb, Bool.true_and]; exact hn)]
        exact .ok ⟨rfl, third.tail_of_leaf leaf⟩
      · rw [if_neg qualified]
        have tail := held.tail_of_leaf plain
        split
        · rename_i bar name rest
          rw [if_neg fun cond => qualified (qualified_iff.mpr
            ⟨bar, name, rest, rfl, (Bool.and_eq_true _ _).mp cond⟩)]
          exact .ok ⟨rfl, tail⟩
        · exact .ok ⟨rfl, tail⟩
    · rw [if_pos ident, if_pos ident]
      exact .error _

/-- The two tokens of a matcher are adjacent, for only an opening bracket leaves text out. -/
theorem start_eq_stop {u : Token} (h : x.Holds i j ⟨t :: u :: ts, next⟩)
    (plain : t.kind.opensBlock = false) : u.start = t.stop := by
  obtain ⟨-, -, -, rest⟩ := Token.Run.cons_iff.mp h.lies
  obtain ⟨reach, -⟩ := Token.Run.cons_iff.mp rest
  rw [← reach, Token.Run.reach_eq_stop h.lies List.mem_cons_self plain]

theorem attributeMatcher {k : Nat} (h : x.Holds k j ⟨t :: ts, next⟩) :
    Agrees (x.Resumes j next) (x.attributeMatcher t k j) (Grammar.attributeMatcher t ts) := by
  rw [Input.attributeMatcher]
  cases delim : t.delim? with
  | none =>
    unfold Grammar.attributeMatcher
    rw [delim]
    exact .error _
  | some c =>
    have plain : t.kind.opensBlock = false :=
      opensBlock_of_isDelim (show t.isDelim c = true by simp [Token.isDelim, delim])
    have tail := h.tail_of_leaf plain
    split
    · rename_i equals
      cases equals
      unfold Grammar.attributeMatcher
      rw [delim]
      exact .ok ⟨rfl, tail⟩
    · rename_i other mark
      cases mark
      unfold Grammar.attributeMatcher
      rw [tail.peek, delim]
      split
      · rename_i equals
        cases equals
        exact (other rfl).elim
      · rename_i mark
        cases mark
        cases ts with
        | nil => exact .error _
        | cons equal rest =>
          simp only [Option.bind_eq_bind, List.head?_cons, Option.bind_some]
          have adjacent : equal.start = t.stop := h.start_eq_stop plain
          by_cases pair : (['~', '|', '^', '$', '*'].contains c && equal.isDelim '=') = true
          · have second : equal.isDelim '=' = true := ((Bool.and_eq_true _ _).mp pair).2
            rw [if_pos pair, if_pos (by rw [pair, adjacent]; simp)]
            exact .ok ⟨rfl, tail.tail_of_leaf (opensBlock_of_isDelim second)⟩
          · rw [if_neg pair, if_neg fun cond => pair ((Bool.and_eq_true _ _).mp cond).1]
            exact .error _
      · rename_i nothing
        cases nothing
    · rename_i nothing
      cases nothing

theorem attributeValue (h : x.Holds i j ⟨ts, next⟩) :
    Agrees (x.Resumes j next) (x.attributeValue i j) (Grammar.attributeValue next ts) := by
  rw [Input.attributeValue]
  cases hs : Token.significant ts with
  | nil =>
    unfold Grammar.attributeValue
    rw [h.seek_nil hs, hs]
    simp only [Option.bind_eq_bind, Option.bind_some]
    rw [h.offset_stop]
    exact .error _
  | cons v rest =>
    obtain ⟨k, found, -, held⟩ := h.seek_cons hs
    rw [found]
    simp only [Option.bind_eq_bind, Option.bind_some]
    split
    · rename_i string
      unfold Grammar.attributeValue
      rw [hs]
      dsimp only
      rw [string]
      exact .ok ⟨rfl, held.tail_of_leaf (by rw [string]; rfl)⟩
    · rename_i ident
      unfold Grammar.attributeValue
      rw [hs]
      dsimp only
      rw [ident]
      exact .ok ⟨rfl, held.tail_of_leaf (by rw [ident]; rfl)⟩
    · rename_i string ident
      unfold Grammar.attributeValue
      rw [hs]
      dsimp only
      split
      · exact (string (by assumption)).elim
      · exact (ident (by assumption)).elim
      · exact .error _

theorem attributeFlags (h : x.Holds i j ⟨ts, next⟩) :
    ∃ a, x.attributeFlags i j = some a ∧ x.Resumes j next a (Grammar.attributeFlags ts) := by
  rw [Input.attributeFlags, Grammar.attributeFlags]
  cases hs : Token.significant ts with
  | nil =>
    rw [h.seek_nil hs]
    exact ⟨_, rfl, rfl, h⟩
  | cons f rest =>
    obtain ⟨k, found, -, held⟩ := h.seek_cons hs
    rw [found]
    simp only [Option.bind_eq_bind, Option.bind_some]
    split
    · rename_i ident
      exact ⟨_, rfl, rfl, held.tail_of_leaf (by rw [ident]; rfl)⟩
    · exact ⟨_, rfl, rfl, h⟩

theorem attributeTest (h : x.Holds i j ⟨ts, next⟩) :
    Agrees Eq (x.attributeTest i j) (Grammar.attributeTest next ts) := by
  rw [Input.attributeTest, Grammar.attributeTest, h.visit]
  refine h.attributeName.andThen ?_
  rintro ⟨name, k⟩ ⟨_, more⟩ ⟨⟨⟩, named⟩
  dsimp only at named ⊢
  cases hs : Token.significant more with
  | nil =>
    rw [named.seek_nil hs]
    exact .ok rfl
  | cons op rest =>
    obtain ⟨k', found, -, held⟩ := named.seek_cons hs
    rw [found]
    simp only [Option.bind_eq_bind, Option.bind_some]
    refine held.attributeMatcher.andThen ?_
    rintro ⟨matcher, _⟩ ⟨_, after⟩ ⟨⟨⟩, matched⟩
    refine matched.attributeValue.andThen ?_
    rintro ⟨value, _⟩ ⟨_, after⟩ ⟨⟨⟩, valued⟩
    obtain ⟨⟨flags, _⟩, read, same, flagged⟩ := valued.attributeFlags
    obtain rfl : flags = (Grammar.attributeFlags after).1 := same
    rw [read]
    simp only [Option.bind_some]
    dsimp only at flagged
    cases hx : Token.significant (Grammar.attributeFlags after).2 with
    | nil =>
      rw [flagged.seek_nil hx]
      exact .ok rfl
    | cons extra rest =>
      obtain ⟨k, found, -, -⟩ := flagged.seek_cons hx
      rw [found]
      exact .error _

/-! ### Simple selectors -/

/-- A block that is not closed in a range is reported at the end of the scope. -/
theorem missing_at (h : x.Holds i j ⟨t :: ts, next⟩) (ends : x.EndsAt scope limit)
    (inside : j ≤ scope) : x.missing i scope = some ⟨Block.missing t.kind, limit⟩ := by
  have lt := h.lt
  rw [Input.missing, h.token_head]
  simp only [Option.bind_eq_bind, Option.bind_some]
  rw [ends i (by omega), Option.bind_some]

theorem attributeSelector (h : x.Holds i j ⟨t :: ts, next⟩) (square : t.kind = .leftSquare)
    (ends : x.EndsAt scope limit) (within : j ≤ scope) :
    Agrees x.Follows (x.attributeSelector scope i j)
      (Grammar.attributeSelector limit t ⟨ts, next⟩) := by
  have opens : t.kind.opensBlock = true := by rw [square]; rfl
  rw [Input.attributeSelector, Grammar.attributeSelector, h.close?]
  cases inside : t.inside with
  | none =>
    have entered : Scope.enter t ⟨ts, next⟩ = ⟨t, ⟨ts, next⟩, none, ⟨[], next⟩⟩ := by
      rw [Scope.enter, inside]
    rw [entered, Option.map_none, h.missing_at ends within, square]
    exact .error _
  | some n =>
    obtain ⟨inner, closer, rest, rfl, rfl, content, found, after⟩ := h.of_closed opens inside
    have ahead : i < i + 1 + inner.length + 1 ∧ i + 1 + inner.length + 1 ≤ j :=
      ⟨by omega, after.le⟩
    rw [Scope.enter_closed inside, Option.map_some]
    refine content.attributeTest.andThen ?_
    rintro detail _ rfl
    rw [h.token_head]
    simp only [Option.bind_eq_bind, Option.bind_some]
    rw [found, Option.bind_some, advance_eq ahead]
    exact .ok ⟨.node _, after⟩

theorem pseudoNamed {colon : Token} {kind : NodeKind} {k : Nat} (h : x.Holds k j s)
    (first : x.token i = some colon) (lt : i < k) (ends : x.EndsAt scope limit)
    (within : j ≤ scope) :
    Agrees x.Follows (x.pseudoNamed scope kind i k j)
      (Grammar.pseudoNamed limit kind colon s) := by
  obtain ⟨tokens, next⟩ := s
  rw [Input.pseudoNamed, first]
  simp only [Option.bind_eq_bind, Option.bind_some]
  rw [h.peek, Option.bind_some]
  cases tokens with
  | nil =>
    dsimp only [List.head?_nil]
    rw [h.offset_of_isEmpty rfl]
    exact .error _
  | cons t ts =>
    dsimp only [List.head?_cons]
    unfold Grammar.pseudoNamed
    split
    · rename_i ident
      have rest := h.tail_of_leaf (by rw [ident]; rfl)
      have ahead : i < k + 1 ∧ k + 1 ≤ j := ⟨by omega, rest.le⟩
      dsimp only
      rw [ident, advance_eq ahead]
      exact .ok ⟨.node _, rest⟩
    · rename_i function
      have opens : t.kind.opensBlock = true := by rw [function]; rfl
      dsimp only
      rw [function, dropLast_eq rfl (h.spelt_head.function function), Option.bind_some, h.close?]
      cases inside : t.inside with
      | none =>
        have entered : Scope.enter t ⟨ts, next⟩ = ⟨t, ⟨ts, next⟩, none, ⟨[], next⟩⟩ := by
          rw [Scope.enter, inside]
        rw [entered, Option.map_none, Option.filter_none, h.missing_at ends within, function]
        exact .error _
      | some n =>
        obtain ⟨inner, closer, rest, rfl, rfl, content, found, after⟩ := h.of_closed opens inside
        have below : k + 1 + inner.length < j := after.le
        obtain ⟨r, trimmed, argument⟩ := content.trim
        have fits : i + 1 ≤ r.1.1 ∧ r.1.1 ≤ r.1.2 ∧ r.1.2 ≤ j := by
          have := r.2
          omega
        have ahead : i < k + 1 + inner.length + 1 ∧ k + 1 + inner.length + 1 ≤ j :=
          ⟨by omega, after.le⟩
        rw [Scope.enter_closed inside, Option.map_some,
          Option.filter_some_pos (by rw [decide_eq_true_eq]; exact below)]
        dsimp only
        rw [found, Option.bind_some, trimmed, Option.bind_some, narrow_eq fits, Option.bind_some,
          advance_eq ahead]
        exact .ok ⟨.functional argument, after⟩
    · rename_i ident function
      dsimp only
      split
      · exact (ident (by assumption)).elim
      · exact (function (by assumption)).elim
      · exact .error _

theorem pseudoSelector (h : x.Holds i j ⟨t :: ts, next⟩) (colon : t.kind = .colon)
    (ends : x.EndsAt scope limit) (within : j ≤ scope) :
    Agrees x.Follows (x.pseudoSelector scope i j)
      (Grammar.pseudoSelector limit t ⟨ts, next⟩) := by
  have tail := h.tail_of_leaf (by rw [colon]; rfl)
  rw [Input.pseudoSelector, Grammar.pseudoSelector, tail.peek]
  cases ts with
  | nil => exact tail.pseudoNamed h.token_head (Nat.lt_succ_self i) ends within
  | cons second ts =>
    simp only [Option.bind_eq_bind, List.head?_cons, Option.bind_some]
    split
    · rename_i double
      have rest := tail.tail_of_leaf (by rw [double]; rfl)
      exact rest.pseudoNamed h.token_head (by omega) ends within
    · exact tail.pseudoNamed h.token_head (Nat.lt_succ_self i) ends within

theorem classSelector (h : x.Holds i j ⟨t :: ts, next⟩) (plain : t.kind.opensBlock = false) :
    Agrees x.Follows (x.classSelector i j) (Grammar.classSelector t ⟨ts, next⟩) := by
  have tail := h.tail_of_leaf plain
  rw [Input.classSelector, Grammar.classSelector, h.token_head]
  simp only [Option.bind_eq_bind, Option.bind_some]
  rw [tail.peek, Option.bind_some]
  cases ts with
  | nil =>
    dsimp only [List.head?_nil]
    rw [tail.offset_of_isEmpty rfl]
    exact .error _
  | cons name more =>
    dsimp only [List.head?_cons]
    split
    · rename_i ident
      have rest := tail.tail_of_leaf (by rw [ident]; rfl)
      have ahead : i < i + 2 ∧ i + 2 ≤ j := ⟨by omega, rest.le⟩
      rw [advance_eq ahead]
      exact .ok ⟨.node _, rest⟩
    · exact .error _

theorem simpleSelector (h : x.Holds i j ⟨t :: ts, next⟩) (ends : x.EndsAt scope limit)
    (within : j ≤ scope) :
    Agrees x.Follows (x.simpleSelector scope i j)
      (Grammar.simpleSelector limit t ⟨ts, next⟩) := by
  have named (plain : t.kind.opensBlock = false) :
      Agrees x.Follows
        ((x.typeSelector i j).bind fun found => some (.ok (.node found.1, found.2)))
        (.ok (.node (Grammar.typeSelector t ⟨ts, next⟩).1,
          (Grammar.typeSelector t ⟨ts, next⟩).2)) := by
    obtain ⟨n, found, rest⟩ := h.typeSelector plain
    rw [found]
    exact .ok ⟨.node _, rest⟩
  have single (plain : t.kind.opensBlock = false) (n : Located) :
      Agrees x.Follows
        ((advance i j (i + 1)).bind fun next => some (.ok (.node n, next)))
        (.ok (.node n, ⟨ts, next⟩)) := by
    have rest := h.tail_of_leaf plain
    rw [advance_eq ⟨Nat.lt_succ_self i, rest.le⟩]
    exact .ok ⟨.node n, rest⟩
  rw [Input.simpleSelector, h.token_head]
  simp only [Option.bind_eq_bind, Option.bind_some]
  rw [h.textAt, Option.bind_some]
  cases kind : t.kind with
  | ident =>
    unfold Grammar.simpleSelector
    rw [kind]
    exact named (by rw [kind]; rfl)
  | hash =>
    unfold Grammar.simpleSelector
    rw [kind]
    dsimp only
    rw [dropFirst_eq rfl (h.spelt_head.hash kind), Option.bind_some]
    exact single (by rw [kind]; rfl) _
  | leftSquare =>
    unfold Grammar.simpleSelector
    rw [kind]
    exact h.attributeSelector kind ends within
  | colon =>
    unfold Grammar.simpleSelector
    rw [kind]
    exact h.pseudoSelector kind ends within
  | delim =>
    have plain : t.kind.opensBlock = false := by rw [kind]; rfl
    dsimp only
    split
    · rename_i star
      unfold Grammar.simpleSelector
      rw [kind, star]
      exact named plain
    · rename_i nesting
      unfold Grammar.simpleSelector
      rw [kind, nesting]
      exact single plain _
    · rename_i point
      unfold Grammar.simpleSelector
      rw [kind, point]
      exact h.classSelector plain
    · rename_i star nesting point
      unfold Grammar.simpleSelector
      rw [kind]
      dsimp only
      split
      · exact (star (by assumption)).elim
      · exact (nesting (by assumption)).elim
      · exact (point (by assumption)).elim
      · exact .error _
  | _ =>
    unfold Grammar.simpleSelector
    rw [kind]
    exact .error _

/-! ### Lists of selectors -/

/-- The same white space, if any, was passed since the last part. -/
theorem descendant {kind : Option NodeKind} {space : Option Nat} {space' : Option Token}
    (same : space.map x.token = space'.map some) :
    x.descendant kind space = some (Grammar.descendant kind space') := by
  cases space with
  | none =>
    cases space' with
    | none => rfl
    | some w => cases same
  | some k =>
    cases space' with
    | none => cases same
    | some w =>
      have found : x.token k = some w := Option.some.inj same
      rw [Input.descendant, found]
      rfl

/-- Reading by index agrees with the grammar on a list of selectors. -/
def ListAgrees (x : Input) (scope limit : Nat) (s : Scope) : Prop :=
  ∀ i j, x.Holds i j s → j ≤ scope →
    Agrees Eq (x.selectors scope i j) (Grammar.selectors limit s)

/-- Reading by index agrees with the grammar on the parts of a selector. -/
def PartsAgree (x : Input) (scope limit : Nat) (kind : Option NodeKind) (space : Option Token)
    (s : Scope) : Prop :=
  ∀ i j place, x.Holds i j s → j ≤ scope → place.map x.token = space.map some →
    Agrees Eq (x.selectorParts scope kind place i j) (Grammar.selectorParts limit kind space s)

/-- The argument of a pseudo selector is read as the grammar reads it if a list in it is. -/
theorem argumentNode {kind : NodeKind} {name : String} (h : x.Holds i j s)
    (list : (kind = .pseudoClassSelector && takesSelectors name) = true →
      s.tokens.isEmpty = false →
        Agrees Eq (x.selectors scope i j) (Grammar.selectors limit s)) :
    Agrees Eq
      (if kind = .pseudoClassSelector && takesSelectors name then
        if i = j then some (.error ⟨.selectorExpected, x.offset i⟩)
        else do
          let _ ← x.scan i j
          andThen (x.selectors scope i j) fun items =>
            some (.ok ⟨.selectorList, .none, s.span, items⟩)
      else (x.raw i j).map .ok)
      (Grammar.argumentNode limit kind name s) := by
  rw [Grammar.argumentNode]
  split
  · rename_i takes
    by_cases empty : s.tokens.isEmpty = true
    · rw [if_pos empty, if_pos (h.eq_iff.mpr empty), h.offset_start]
      exact .error _
    · rw [if_neg empty, if_neg (mt h.eq_iff.mp empty), h.scan]
      refine (list takes (Bool.eq_false_iff.mpr empty)).andThen ?_
      rintro items _ rfl
      exact .ok rfl
  · rw [h.raw]
    exact .ok rfl

theorem selectors_agree (ends : x.EndsAt scope limit) :
    (∀ s, ListAgrees x scope limit s) ∧ ∀ kind space s, PartsAgree x scope limit kind space s := by
  refine selectors_induction limit ?empty ?nonempty ?done ?space ?comment ?combinator ?failed
    ?simple
  case empty =>
    intro s hp i j h within
    obtain ⟨e, comma, first, -⟩ := h.cut (· = .comma)
    obtain ⟨r, trimmed, held⟩ := first.trim
    rw [Input.selectors, comma, Grammar.selectors]
    simp only [Option.bind_eq_bind, Option.bind_some]
    rw [trimmed, if_pos hp]
    simp only [Option.bind_some]
    rw [if_pos (held.eq_iff.mpr hp), held.offset_start]
    exact .error _
  case nonempty =>
    intro s hp parts rest i j h within
    obtain ⟨e, comma, first, later⟩ := h.cut (· = .comma)
    obtain ⟨r, trimmed, held⟩ := first.trim
    have wide : ¬r.1.1 = r.1.2 := mt held.eq_iff.mp (Bool.eq_false_iff.mp hp)
    rw [Input.selectors, comma, selectors_nonempty hp]
    simp only [Option.bind_eq_bind, Option.bind_some]
    rw [trimmed]
    simp only [Option.bind_some]
    rw [if_neg wide, held.span, Option.bind_some]
    refine (parts _ _ none held ?_ rfl).andThen ?_
    · have := r.2
      have := e.2
      omega
    · rintro children _ rfl
      refine Agrees.andThen (R := Eq) ?_ (by rintro others _ rfl; exact .ok rfl)
      cases found : (s.cut (· = .comma)).2.tokens with
      | nil =>
        rw [dif_neg (by have := later.nil_iff.mpr found; omega)]
        exact .ok rfl
      | cons t ts =>
        have kind : t.kind = .comma := by simpa using Token.spanTop_head found
        have later : x.Holds e.1 j ⟨t :: ts, s.next⟩ := found ▸ later
        rw [dif_pos later.lt]
        exact rest t ts found _ _ (later.tail_of_leaf (by rw [kind]; rfl)) within
  case done =>
    intro kind space next i j place h within same
    rw [Input.selectorParts, Grammar.selectorParts, dif_neg h.not_lt]
    exact .ok rfl
  case space =>
    intro kind space t ts next white ih i j place h within same
    rw [Input.selectorParts, dif_pos h.lt, h.token_head, selectorParts_space white]
    simp only [Option.bind_eq_bind, Option.bind_some]
    rw [if_pos white]
    refine ih _ _ _ (h.tail_of_leaf (by rw [white]; rfl)) within ?_
    have none_iff : place.isNone = space.isNone := by
      cases place <;> cases space <;> first | rfl | cases same
    rw [none_iff]
    split
    · exact congrArg some h.token_head
    · exact same
  case comment =>
    intro kind space t ts next white comment ih i j place h within same
    rw [Input.selectorParts, dif_pos h.lt, h.token_head, selectorParts_comment white comment]
    simp only [Option.bind_eq_bind, Option.bind_some]
    rw [if_neg white, if_pos comment]
    exact ih _ _ _ (h.tail_of_leaf (by rw [comment]; rfl)) within same
  case combinator =>
    intro kind space t ts next name last after white comment found ih i j place h within same
    obtain ⟨nothing, -⟩ | ⟨name', last', after', n, found', read, final, rest⟩ := h.combinator
    · rw [nothing] at found
      cases found
    · rw [found] at found'
      cases found'
      rw [Input.selectorParts, dif_pos h.lt, h.token_head, selectorParts_combinator white comment found]
      simp only [Option.bind_eq_bind, Option.bind_some]
      rw [if_neg white, if_neg comment, read]
      simp only [Option.bind_some]
      rw [final, Option.bind_some]
      refine (ih _ _ none rest within rfl).andThen ?_
      rintro others _ rfl
      exact .ok rfl
  case failed =>
    intro kind space t ts next e white comment nothing failed i j place h within same
    have agrees := h.simpleSelector ends within
    rw [failed] at agrees
    rw [Input.selectorParts, dif_pos h.lt, h.token_head, selectorParts_simple white comment nothing,
      failed]
    simp only [Option.bind_eq_bind, Option.bind_some]
    rw [if_neg white, if_neg comment, h.no_combinator nothing]
    simp only [Option.bind_some]
    rw [descendant same, Option.bind_some]
    generalize x.simpleSelector scope i j = r at agrees
    cases agrees
    exact .error e
  case simple =>
    intro kind space t ts next p after white comment nothing read list rest i j place h within same
    have agrees := h.simpleSelector ends within
    rw [read] at agrees
    rw [Input.selectorParts, dif_pos h.lt, h.token_head, selectorParts_simple white comment nothing,
      read]
    simp only [Option.bind_eq_bind, Option.bind_some]
    rw [if_neg white, if_neg comment, h.no_combinator nothing]
    simp only [Option.bind_some]
    rw [descendant same, Option.bind_some]
    generalize x.simpleSelector scope i j = r at agrees
    cases agrees with
    | @ok a _ follows =>
      obtain ⟨part, n, ahead⟩ := a
      obtain ⟨found, later⟩ := follows
      rw [andThen_ok]
      refine Agrees.andThen (R := fun a b => a = b ∧ p.finish limit = .ok b) ?_ ?_
      · refine Agrees.with_ok ?_
        cases found with
        | node m => exact .ok rfl
        | @functional kind name span argument s held =>
          obtain ⟨⟨start, stop⟩, bounds⟩ := argument
          dsimp only at held bounds ⊢
          rw [Simple.finish, held.span]
          refine Agrees.andThen (R := Eq) (held.argumentNode fun takes nonempty => ?_)
            (by rintro child _ rfl; exact .ok rfl)
          exact list kind name span s rfl takes nonempty _ _ held (by omega)
      · rintro m _ ⟨rfl, done⟩
        refine (rest m done _ _ none later within rfl).andThen ?_
        rintro others _ rfl
        exact .ok rfl

theorem selectorList (h : x.Holds i j s) (ends : x.EndsAt scope limit) (within : j ≤ scope) :
    x.selectorList scope i j = some (Grammar.selectorList limit s) := by
  refine agrees_eq_iff.mp ?_
  rw [Input.selectorList, h.scan, h.span]
  refine ((selectors_agree ends).1 s i j h within).andThen ?_
  rintro items _ rfl
  exact .ok rfl

theorem selector (h : x.Holds i j s) (ends : x.EndsAt scope limit) (within : j ≤ scope) :
    x.selector scope i j = some (Grammar.selector limit s) := by
  refine agrees_eq_iff.mp ?_
  rw [Input.selector, h.span]
  refine ((selectors_agree ends).2 none none s i j none h within rfl).andThen ?_
  rintro children _ rfl
  exact .ok rfl

theorem orRaw (h : x.Holds i j s) (r : SelectorResult Located) :
    x.orRaw i j (some r) = some (Grammar.orRaw s r) := by
  cases r with
  | ok n => rfl
  | error e =>
    rw [Input.orRaw]
    simp only [Option.bind_eq_bind, Option.bind_some]
    rw [h.raw]
    rfl

end Holds

end Input

end Stylesheet
