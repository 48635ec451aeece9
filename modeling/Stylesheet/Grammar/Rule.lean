import Stylesheet.Grammar.Value
import Stylesheet.Grammar.Selector

/-!
# Rules, at-rules and declarations

A scope of rules and a scope of block items are read item by item. Each item is first cut out of
its scope, at the next top-level semicolon or curly bracket, and its block is then read as a scope
of its own; what follows the item therefore never depends on what is wrong inside it.
-/

namespace Stylesheet.Grammar

open Located

/-- How the block of an at-rule is read. -/
inductive BlockStyle where
  | rules
  | keyframes
  | declarations
  deriving DecidableEq, Repr, Inhabited

/-- A name without its vendor prefix. -/
def unprefixed (name : String) : String :=
  match ["-webkit-", "-moz-", "-o-", "-ms-"].find? fun vendor => vendor.toList.isPrefixOf name.toList with
  | some vendor => String.ofList (name.toList.drop vendor.toList.length)
  | none => name

/-- The at-rules whose blocks hold rules, and declarations where they stand inside a style rule. -/
def conditionalRules : List String :=
  ["media", "supports", "container", "layer", "scope", "document", "starting-style"]

/-- How the block of the at-rule with a given name is read, inside a style rule or outside. -/
def BlockStyle.ofName (nested : Bool) (name : String) : BlockStyle :=
  let name := unprefixed (Text.lowerAscii name)
  if name = "keyframes" then .keyframes
  else if conditionalRules.contains name && !nested then .rules
  else .declarations

/-- Take `!important` off the end of a trimmed value. -/
def splitImportant (value : Scope) : Scope × Bool :=
  match value.tokens.reverse with
  | word :: before =>
    if word.kind = .ident && Text.sameName word.text "important" then
      match Token.significant before with
      | bang :: before =>
        if bang.isDelim '!' then (Scope.trim ⟨before.reverse, bang.start⟩, true) else (value, false)
      | [] => (value, false)
    else (value, false)
  | [] => (value, false)

/-- The value of a custom property: the source text from the colon to the end of the value, with
the white space in front of it. -/
def customValue (colon : Token) (after : List Token) (value : Scope) : Located :=
  let text :=
    if value.tokens.isEmpty then ""
    else Token.sourceText ((after.takeWhile fun t => t.kind.isTrivia) ++ value.tokens)
  leaf .raw (.value text) ⟨colon.stop, value.stop⟩

/-- The value of an ordinary property. -/
def plainValue (colon : Token) (value : Scope) : Parsed Located :=
  (componentSequence value).map fun children =>
    ⟨.value, .none, if value.tokens.isEmpty then ⟨colon.stop, colon.stop⟩ else value.span, children⟩

/-- The declaration that fills a scope. -/
def declaration (s : Scope) : Parsed Located :=
  let s := s.trim
  match s.tokens with
  | [] => ⟨raw s, [⟨.identifierExpected, s.next⟩]⟩
  | t :: ts =>
    if t.kind ≠ .ident then ⟨raw s, [⟨.identifierExpected, t.start⟩]⟩
    else
      match Token.significant ts with
      | [] => ⟨raw s, [⟨.colonExpected, s.next⟩]⟩
      | colon :: after =>
        if colon.kind ≠ .colon then ⟨raw s, [⟨.colonExpected, colon.start⟩]⟩
        else
          let (value, important) := splitImportant (Scope.trim ⟨after, s.next⟩)
          let child :=
            if isCustomProperty t.text then ⟨customValue colon after value, []⟩
            else plainValue colon value
          child.map fun c => ⟨.declaration, .declaration t.text important, s.span, [c]⟩

/-- An identifier and a colon start a declaration unless a block comes before the next semicolon,
as in a nested rule such as `a:hover {}`. Custom properties are always declarations. -/
def startsDeclaration (t : Token) (rest : Scope) : Bool :=
  match rest.trimStart.tokens with
  | [] => false
  | colon :: ts =>
    colon.kind = .colon &&
      (isCustomProperty t.text ||
        match (Scope.cut (fun k => k = .leftCurly || k = .semicolon) ⟨ts, rest.next⟩).2.tokens with
        | stop :: _ => stop.kind = .semicolon
        | [] => true)

/-- The prelude of a style rule; in keyframes it is kept as text. -/
def rulePrelude (keyframes : Bool) (limit : Nat) (s : Scope) : Parsed Located :=
  let s := s.trim
  if s.tokens.isEmpty then ⟨raw s, [⟨.selectorExpected, s.next⟩]⟩
  else if keyframes then ⟨raw s, []⟩
  else orRaw s (selectorList limit s)

/-- A block with what was read inside it. -/
def withBlock (b : Block) (items : Parsed (List Located)) : Parsed Located :=
  ⟨⟨.block, .none, b.span, items.value⟩, items.errors ++ b.errors⟩

/-- A style rule made of a prelude and a block. -/
def styleRule (start : Nat) (prelude block : Parsed Located) : Parsed Located :=
  ⟨⟨.rule, .none, ⟨start, block.value.note.stop⟩, [prelude.value, block.value]⟩,
    prelude.errors ++ block.errors⟩

/-- How an item ends. -/
inductive Ending where
  | block (b : Block)
  | semicolon (t : Token)
  /-- Its scope ends first. -/
  | missing
  deriving Inhabited

/-- An item cut out of a scope: what stands before its end, its end, and what follows it. -/
structure Item where
  prelude : Scope
  ending : Ending
  after : Scope
  deriving Inhabited

/-- Tokens that end the prelude of an item. -/
def endsPrelude (k : Token.Kind) : Bool := k = .leftCurly || k = .semicolon

/-- Cut the first item off a scope; it ends at the first top-level token that `stop` selects. -/
def Item.take (stop : Token.Kind → Bool) (s : Scope) : Item :=
  let cut := s.cut stop
  match cut.2.tokens with
  | [] => ⟨cut.1, .missing, cut.2⟩
  | d :: ds =>
    if d.kind = .leftCurly then
      let b := Scope.enter d ⟨ds, s.next⟩
      ⟨cut.1, .block b, b.after⟩
    else ⟨cut.1, .semicolon d, ⟨ds, s.next⟩⟩

theorem Item.take_after (stop : Token.Kind → Bool) (s : Scope) :
    (Item.take stop s).after.tokens.length ≤ s.tokens.length - 1 := by
  have hc := s.cut_length stop
  rw [Item.take]
  dsimp only
  split
  · rename_i h; simp [h]
  · rename_i d ds h
    rw [h, List.length_cons] at hc
    split
    · have := Scope.enter_length d ⟨ds, s.next⟩
      dsimp only at *
      omega
    · dsimp only
      omega

theorem Item.take_block {stop : Token.Kind → Bool} {s : Scope} {b : Block}
    (h : (Item.take stop s).ending = .block b) :
    b.inner.tokens.length < s.tokens.length ∧ b.after = (Item.take stop s).after := by
  have hc := s.cut_length stop
  unfold Item.take at h ⊢
  dsimp only at h ⊢
  split at h
  · cases h
  · rename_i d ds hd
    rw [hd, List.length_cons] at hc
    split at h
    · cases h
      have := Scope.enter_length d ⟨ds, s.next⟩
      rename_i hk
      simp only [hk, ↓reduceIte, and_true]
      dsimp only at *
      omega
    · cases h

/-- The name of an at-rule, without the at sign. -/
def atRuleName (t : Token) : String := String.ofList t.text.toList.tail

/-- The at-rule cut out as `item`, given what was read inside its block. -/
def atRuleOf (t : Token) (rest : Scope) (item : Item) (block : Parsed Located) : Parsed Located :=
  let name := atRuleName t
  let s := item.prelude.trim
  let prelude : Parsed (List Located) :=
    if s.tokens.isEmpty then ⟨[], []⟩ else (atRulePrelude name s).map fun n => [n]
  let node (stop : Nat) (block : List Located) : Located :=
    ⟨.atrule, .name name, ⟨t.start, stop⟩, prelude.value ++ block⟩
  match item.ending with
  | .block b => ⟨node b.stop [block.value], prelude.errors ++ block.errors⟩
  | .semicolon d => ⟨node d.stop [], prelude.errors⟩
  | .missing =>
    let stop := if s.tokens.isEmpty then Scope.stop ⟨t :: rest.tokens, rest.next⟩ else s.stop
    ⟨node stop [], prelude.errors ++ [⟨.semicolonOrBlockExpected, stop⟩]⟩

/-- An item of a block that is no rule: a declaration if it starts with an identifier. -/
def looseItem (t : Token) (s : Scope) : Parsed Located :=
  if t.kind = .ident then declaration s else ⟨raw s.trim, [⟨.unexpectedInput, t.start⟩]⟩

mutual

/-- The at-rule with keyword `t`, cut out of what follows the keyword. `nested` tells whether it
stands inside a style rule. -/
def atRule (nested : Bool) (t : Token) (rest : Scope) : Parsed Located :=
  let item := Item.take endsPrelude rest
  match _h : item.ending with
  | .block b =>
    let style := BlockStyle.ofName nested (atRuleName t)
    let items :=
      if style = .declarations then blockItems true b.inner
      else ruleList false (style = .keyframes) nested b.inner
    atRuleOf t rest item (withBlock b items)
  | _ => atRuleOf t rest item ⟨raw item.after, []⟩
termination_by rest.tokens.length
decreasing_by all_goals exact (Item.take_block _h).1

/-- The rules of a scope. Only the top level of a style sheet may hold `<!--` and `-->`. -/
def ruleList (top keyframes nested : Bool) (s : Scope) : Parsed (List Located) :=
  match _h : s.tokens with
  | [] => ⟨[], []⟩
  | t :: ts =>
    if t.kind.isTrivia || (top && (t.kind = .cdo || t.kind = .cdc)) then
      ruleList top keyframes nested ⟨ts, s.next⟩
    else if t.kind = .atKeyword then
      (atRule nested t ⟨ts, s.next⟩).cons
        (ruleList top keyframes nested (Item.take endsPrelude ⟨ts, s.next⟩).after)
    else
      let item := Item.take (· = .leftCurly) s
      match _hb : item.ending with
      | .block b =>
        (styleRule t.start (rulePrelude keyframes s.stop item.prelude)
          (withBlock b (blockItems true b.inner))).cons
          (ruleList top keyframes nested item.after)
      | _ => ⟨[raw s.trim], [⟨.leftCurlyExpected, s.stop⟩]⟩
termination_by s.tokens.length
decreasing_by
  · simp [_h]
  · simp [_h]
  · have := Item.take_after endsPrelude ⟨ts, s.next⟩
    simp only [_h, List.length_cons] at *
    omega
  · exact (Item.take_block _hb).1
  · have := Item.take_after (· = .leftCurly) s
    have : s.tokens.length = ts.length + 1 := by rw [_h, List.length_cons]
    omega

/-- Declarations, at-rules and nested style rules. -/
def blockItems (nested : Bool) (s : Scope) : Parsed (List Located) :=
  match _h : s.tokens with
  | [] => ⟨[], []⟩
  | t :: ts =>
    if t.kind.isTrivia || t.kind = .semicolon then blockItems nested ⟨ts, s.next⟩
    else if t.kind = .atKeyword then
      (atRule nested t ⟨ts, s.next⟩).cons
        (blockItems nested (Item.take endsPrelude ⟨ts, s.next⟩).after)
    else if t.kind = .ident && startsDeclaration t ⟨ts, s.next⟩ then
      let item := Item.take (· = .semicolon) s
      (declaration item.prelude).cons (blockItems nested item.after)
    else
      let item := Item.take endsPrelude s
      match _hb : item.ending with
      | .block b =>
        (styleRule t.start (rulePrelude false s.stop item.prelude)
          (withBlock b (blockItems true b.inner))).cons
          (blockItems nested item.after)
      | _ => (looseItem t item.prelude).cons (blockItems nested item.after)
termination_by s.tokens.length
decreasing_by
  · simp [_h]
  · simp [_h]
  · have := Item.take_after endsPrelude ⟨ts, s.next⟩
    simp only [_h, List.length_cons] at *
    omega
  · have := Item.take_after (· = .semicolon) s
    have : s.tokens.length = ts.length + 1 := by rw [_h, List.length_cons]
    omega
  · exact (Item.take_block _hb).1
  all_goals
    have := Item.take_after endsPrelude s
    have : s.tokens.length = ts.length + 1 := by rw [_h, List.length_cons]
    omega

end

end Stylesheet.Grammar
