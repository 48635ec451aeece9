import Stylesheet.Proofs.Cursor.Rule

/-!
# Texts read by index

Every entry point of the grammar, read by a cursor over all tokens of a text. For every text and
every entry point the cursor answers with what the grammar reads: it never asks for a token that is
not there, never cuts the text where it cannot be cut, moves ahead in every turn of a loop, and
stays within the limits of its ranges.
-/

namespace Stylesheet

namespace Input

open Located Grammar

variable (x : Input)

/-- A text with its tokens. -/
def ofString (text : String) : Input := ⟨text, tokenize text⟩

/-- Keep the rest of a range as raw text, since something else was expected. -/
def rawRest (fault : Fault) (i limit : Nat) : Option (Parsed Located × Nat) := do
  let raw ← x.rawTrimmed i limit
  some (⟨raw, [⟨fault, x.offset i⟩]⟩, limit)

omit x in
/-- A place in a range other than its end has something behind it. -/
theorem before_end {i k limit : Nat} (bounds : i ≤ k ∧ k ≤ limit) (h : k < limit) :
    i ≤ k ∧ k < limit := ⟨bounds.1, h⟩

/-- One style rule and the place behind it. Without a block the whole range is raw text. -/
def qualifiedRule (i limit : Nat) : Option (Parsed Located × Nat) := do
  let ⟨stop, bounds⟩ ← x.cut (· = .leftCurly) i limit
  if h : stop < limit then do
    let (rule, next) ← x.ruleAt false i stop limit (before_end bounds h)
    some (rule, next.1)
  else do
    let found ← x.endOffset i limit
    let raw ← x.rawTrimmed i limit
    some (⟨raw, [⟨.leftCurlyExpected, found⟩]⟩, limit)

/-- One at-rule whose keyword stands at `i`, and the place behind it. -/
def singleAtRule (i limit : Nat) : Option (Parsed Located × Nat) := do
  let (rule, next) ← x.atRule false i limit
  some (rule, next.1)

/-- Anything but white space and comments behind a single item is an error. -/
def noMore (item : Parsed Located) (i limit : Nat) : Option (Parsed Located) := do
  let rest ← x.significant i limit
  some (item.also (if rest < limit then [⟨.unexpectedInput, x.offset rest⟩] else []))

/-- A range that should be one at-rule. -/
def oneAtRule (i limit : Nat) : Option (Parsed Located) := do
  let start ← x.significant i limit
  let first ← x.peek start limit
  let item :=
    match first with
    | some t =>
      if t.kind = .atKeyword then x.singleAtRule start limit
      else x.rawRest .atRuleExpected start limit
    | none => x.rawRest .atRuleExpected start limit
  let (item, next) ← item
  x.noMore item next limit

/-- A range that should be one rule of either sort. -/
def oneRule (i limit : Nat) : Option (Parsed Located) := do
  let start ← x.significant i limit
  let first ← x.peek start limit
  let item :=
    match first with
    | some t =>
      if t.kind = .atKeyword then x.singleAtRule start limit else x.qualifiedRule start limit
    | none => x.rawRest .ruleExpected start limit
  let (item, next) ← item
  x.noMore item next limit

/-- A range that should be one declaration; a semicolon may end it. -/
def oneDeclaration (i limit : Nat) : Option (Parsed Located) := do
  let ⟨(start, last), _⟩ ← x.trim i limit
  let ⟨stop, _⟩ ← x.cut (· = .semicolon) start last
  let item ← x.declaration start stop
  x.noMore item (min (stop + 1) last) last

/-- Read all tokens of a text as what a context says. -/
def readScope (context : Context) : Option (Parsed Located) := do
  let limit := x.list.tokens.length
  let ⟨(start, stop), _⟩ ← x.trim 0 limit
  match context with
  | .stylesheet => do
    let rules ← x.ruleList true false false 0 limit
    some (rules.map fun rules => ⟨.styleSheet, .none, wholeSpan x.list, rules⟩)
  | .atrule => x.oneAtRule 0 limit
  | .rule => x.oneRule 0 limit
  | .atrulePrelude => x.sequenceNode .atrulePrelude start stop
  | .mediaQueryList => x.mediaQueryList start stop
  | .mediaQuery => x.sequenceNode .mediaQuery start stop
  | .condition => x.sequenceNode .condition start stop
  | .selectorList => x.orRaw start stop (x.selectorList limit start stop)
  | .selector =>
    if start = stop then do
      let raw ← x.raw start stop
      some ⟨raw, [⟨.selectorExpected, x.offset start⟩]⟩
    else x.orRaw start stop (x.selector limit start stop)
  | .block => do
    let items ← x.blockItems false 0 limit
    some (items.map fun items => ⟨.block, .none, wholeSpan x.list, items⟩)
  | .declarationList => do
    let items ← x.blockItems false 0 limit
    some (items.map fun items => ⟨.declarationList, .none, wholeSpan x.list, items⟩)
  | .declaration => x.oneDeclaration 0 limit
  | .value => x.sequenceNode .value start stop

/-- Read all tokens of a text, reporting first the blocks that are nested too deeply. -/
def read (context : Context) : Option (Parsed Located) := do
  let tree ← x.readScope context
  some ⟨tree.value,
    (x.list.truncated.map fun offset => ⟨.nestingTooDeep, offset⟩) ++ tree.errors⟩

/-! ### Reading all tokens -/

namespace Holds

variable {x : Input} {i j : Nat} {s : Scope} {t : Token} {ts : List Token} {next : Nat}

theorem rawRest (fault : Fault) (h : x.Holds i j s) :
    x.rawRest fault i j = some ((Grammar.rawRest fault s).1, j) := by
  rw [Input.rawRest, h.rawTrimmed, h.offset_start]
  rfl

theorem noMore (item : Parsed Located) (h : x.Holds i j s) :
    x.noMore item i j = some (Grammar.noMore (item, s)) := by
  obtain ⟨k, found, -, held⟩ := h.significant
  rw [Input.noMore, found, Grammar.noMore]
  simp only [Option.bind_eq_bind, Option.bind_some]
  by_cases empty : s.trimStart.tokens.isEmpty = true
  · rw [if_neg fun wide => held.lt_iff.mp wide empty, if_pos empty]
  · rw [if_pos (held.lt_iff.mpr empty), if_neg empty, held.offset_start]

theorem singleAtRule (h : x.Holds i j ⟨t :: ts, next⟩) (keyword : t.kind = .atKeyword) :
    ∃ n, x.singleAtRule i j = some ((Grammar.singleAtRule t ⟨ts, next⟩).1, n) ∧
      x.Holds n j (Grammar.singleAtRule t ⟨ts, next⟩).2 := by
  obtain ⟨n, read, after⟩ := (items_agree x).1 false t ⟨ts, next⟩ i j h keyword
  refine ⟨n.1, ?_, after⟩
  rw [Input.singleAtRule, read]
  rfl

theorem qualifiedRule (h : x.Holds i j ⟨t :: ts, next⟩) :
    ∃ n, x.qualifiedRule i j = some ((Grammar.qualifiedRule ⟨t :: ts, next⟩).1, n) ∧
      x.Holds n j (Grammar.qualifiedRule ⟨t :: ts, next⟩).2 := by
  obtain ⟨e, cut, prelude, found⟩ := h.item endsItems_leftCurly
  rw [Input.qualifiedRule, cut, Grammar.qualifiedRule]
  simp only [Option.bind_eq_bind, Option.bind_some]
  obtain ⟨d, ds, ending, after, ⟨curly, -⟩, held⟩ | ⟨d, ds, -, -, ⟨semicolon, curly⟩, -⟩ |
    ⟨ending, after, stop⟩ := found
  · obtain ⟨n, read, rest⟩ := h.ruleAt false prelude held curly ((items_agree x).2.2 true _)
      ⟨e.2.1, held.lt⟩
    rw [dif_pos held.lt, read, ending]
    exact ⟨n.1, rfl, after ▸ rest⟩
  · rw [semicolon] at curly
    cases curly
  · rw [dif_neg (by omega), h.endOffset, Option.bind_some, h.rawTrimmed, ending]
    exact ⟨j, rfl, h.done⟩

theorem oneAtRule (h : x.Holds i j s) : x.oneAtRule i j = some (Grammar.oneAtRule s) := by
  obtain ⟨k, found, -, held⟩ := h.significant
  rw [Input.oneAtRule, found, Grammar.oneAtRule]
  simp only [Option.bind_eq_bind, Option.bind_some]
  rw [held.peek]
  generalize s.trimStart = s at held
  obtain ⟨tokens, next⟩ := s
  cases tokens with
  | nil =>
    simp only [List.head?_nil, Option.bind_some]
    rw [held.rawRest]
    exact held.done.noMore _
  | cons t ts =>
    simp only [List.head?_cons, Option.bind_some]
    split
    · rename_i keyword
      obtain ⟨n, read, after⟩ := held.singleAtRule keyword
      rw [read]
      exact after.noMore _
    · rw [held.rawRest]
      exact held.done.noMore _

theorem oneRule (h : x.Holds i j s) : x.oneRule i j = some (Grammar.oneRule s) := by
  obtain ⟨k, found, -, held⟩ := h.significant
  rw [Input.oneRule, found, Grammar.oneRule]
  simp only [Option.bind_eq_bind, Option.bind_some]
  rw [held.peek]
  generalize s.trimStart = s at held
  obtain ⟨tokens, next⟩ := s
  cases tokens with
  | nil =>
    simp only [List.head?_nil, Option.bind_some]
    rw [held.rawRest]
    exact held.done.noMore _
  | cons t ts =>
    simp only [List.head?_cons, Option.bind_some]
    split
    · rename_i keyword
      obtain ⟨n, read, after⟩ := held.singleAtRule keyword
      rw [read]
      exact after.noMore _
    · obtain ⟨n, read, after⟩ := held.qualifiedRule
      rw [read]
      exact after.noMore _

theorem oneDeclaration (h : x.Holds i j s) :
    x.oneDeclaration i j = some (Grammar.oneDeclaration s) := by
  obtain ⟨r, trimmed, held⟩ := h.trim
  obtain ⟨e, cut, prelude, found⟩ := held.item endsItems_semicolon
  rw [Input.oneDeclaration, trimmed, Grammar.oneDeclaration]
  simp only [Option.bind_eq_bind, Option.bind_some]
  rw [cut]
  simp only [Option.bind_some]
  rw [prelude.declaration, Option.bind_some]
  obtain ⟨d, ds, ending, -⟩ | ⟨d, ds, -, after, ⟨semicolon, -⟩, behind⟩ | ⟨-, after, stop⟩ := found
  · exact absurd ending (Item.take_semicolon_ne_block _)
  · have rest := behind.tail_of_leaf (by rw [semicolon]; rfl)
    rw [Nat.min_eq_left rest.le, after]
    exact rest.noMore _
  · rw [stop, Nat.min_eq_right (Nat.le_succ _), after]
    exact held.done.noMore _

end Holds

/-- All tokens of a text stand in the range of all indices. -/
theorem holds_ofString (text : String) :
    (ofString text).Holds 0 (tokenize text).tokens.length (wholeScope (tokenize text)) := by
  obtain ⟨run, -⟩ := tokenize_run text
  have start : (wholeScope (tokenize text)).start = 0 := run.startOf_eq
  refine ⟨⟨[], [], by simp [ofString, wholeScope], rfl, rfl⟩, Nat.zero_add _,
    tokenize_matched text, ?_, Token.tokenize_spelt text⟩
  rw [Scope.LiesIn, start]
  exact run

theorem readScope_eq (context : Context) (text : String) :
    (ofString text).readScope context = some (Grammar.readScope context (tokenize text)) := by
  have whole := holds_ofString text
  obtain ⟨r, trimmed, held⟩ := whole.trim
  have ends : (ofString text).EndsAt (tokenize text).tokens.length
      (wholeScope (tokenize text)).stop := fun k hk => whole.endsAt (by omega) k hk
  have size : (ofString text).list.tokens.length = (tokenize text).tokens.length := rfl
  unfold Grammar.readScope
  rw [readScope, size, trimmed]
  simp only [Option.bind_eq_bind, Option.bind_some]
  cases context with
  | stylesheet =>
    dsimp only
    rw [(Holds.items_agree _).2.1 true false false _ _ _ whole]
    rfl
  | atrule => exact whole.oneAtRule
  | rule => exact whole.oneRule
  | atrulePrelude | mediaQuery | condition | value => exact held.sequenceNode _
  | mediaQueryList => exact held.mediaQueryList
  | selectorList =>
    dsimp only
    rw [held.selectorList ends r.2.2.2, held.orRaw]
  | selector =>
    dsimp only
    by_cases empty : (wholeScope (tokenize text)).trim.tokens.isEmpty = true
    · rw [if_pos (held.eq_iff.mpr empty), if_pos empty, held.raw, Option.bind_some,
        held.offset_of_isEmpty empty]
    · rw [if_neg (mt held.eq_iff.mp empty), if_neg empty, held.selector ends r.2.2.2, held.orRaw]
  | block | declarationList =>
    dsimp only
    rw [(Holds.items_agree _).2.2 false _ _ _ whole]
    rfl
  | declaration => exact whole.oneDeclaration

/-- For every text and every entry point, reading by index passes all its checks and answers with what
the grammar reads. -/
theorem read_passes (context : Context) (text : String) :
    (ofString text).read context = some (Grammar.read context (tokenize text)) := by
  rw [read, readScope_eq]
  rfl

end Input

end Stylesheet
