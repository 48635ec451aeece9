import Stylesheet.Proofs.Cursor.Selector

/-!
# Rules by index

Rules, at-rules, declarations and the items of blocks, read by a cursor. An item is cut out of its
range, its block is read in the range of its content, and the cursor goes on behind the block. It
must have moved ahead by then and may not have left the range.
-/

namespace Stylesheet

namespace Input

open Located Grammar

variable (x : Input)

/-! ### Declarations -/

/-- Where `!important` starts at the end of a value, if it stands there. -/
def important (i limit : Nat) : Option (Option Nat) :=
  if i < limit then do
    let word ← x.token (limit - 1)
    if word.kind = .ident then do
      let text ← x.textAt (limit - 1)
      if Text.sameName text "important" then do
        let ⟨(_, stop), _⟩ ← x.trim i (limit - 1)
        if i < stop then do
          let bang ← x.peek (stop - 1) limit
          some (if bang.any (·.isDelim '!') then some (stop - 1) else none)
        else some none
      else some none
    else some none
  else some none

/-- Where a value from `i` on ends once `!important` is taken off. -/
def splitImportant (i limit : Nat) : Option (Nat × Bool) := do
  let found ← x.important i limit
  match found with
  | none => some (limit, false)
  | some stop => do
    let ⟨(_, stop), _⟩ ← x.trim i stop
    some (stop, true)

/-- The value of a custom property, whose tokens stand in a range: the text behind the colon. -/
def customValue (colon : Token) (i limit : Nat) : Option Located := do
  let found ← x.endOffset i limit
  let stop := max found colon.stop
  let text := if i < limit then Text.slice? x.text colon.stop stop else some ""
  let text ← text
  some (leaf .raw (.value text) ⟨colon.stop, stop⟩)

/-- The value of an ordinary property, whose tokens stand in a range. -/
def plainValue (colon : Token) (i limit : Nat) : Option (Parsed Located) := do
  let children ← x.components i limit
  let span := if i < limit then x.span i limit else some ⟨colon.stop, colon.stop⟩
  let span ← span
  some ((children.map tidy).map fun children => ⟨.value, .none, span, children⟩)

/-- The declaration that fills a range. -/
def declaration (i limit : Nat) : Option (Parsed Located) := do
  let ⟨(start, stop), _⟩ ← x.trim i limit
  let first ← x.peek start stop
  match first with
  | none => do
    let raw ← x.raw start stop
    some ⟨raw, [⟨.identifierExpected, x.offset start⟩]⟩
  | some t =>
    if t.kind ≠ .ident then do
      let raw ← x.raw start stop
      some ⟨raw, [⟨.identifierExpected, t.start⟩]⟩
    else do
      let k ← x.significant (start + 1) stop
      let second ← x.peek k stop
      match second with
      | none => do
        let raw ← x.raw start stop
        some ⟨raw, [⟨.colonExpected, x.offset k⟩]⟩
      | some colon =>
        if colon.kind ≠ .colon then do
          let raw ← x.raw start stop
          some ⟨raw, [⟨.colonExpected, colon.start⟩]⟩
        else do
          let ⟨(from', last), _⟩ ← x.trim (k + 1) stop
          let (last, important) ← x.splitImportant from' last
          let child : Option (Parsed Located) :=
            if isCustomProperty t.text then (x.customValue colon from' last).map (⟨·, []⟩)
            else x.plainValue colon from' last
          let child ← child
          let found ← x.endOffset start stop
          some (child.map fun c => ⟨.declaration, .declaration t.text important,
            ⟨t.start, max found colon.stop⟩, [c]⟩)

/-- Tells whether the identifier at `i` starts a declaration. -/
def startsDeclaration (i limit : Nat) : Option Bool := do
  let text ← x.textAt i
  let k ← x.significant (i + 1) limit
  let second ← x.peek k limit
  match second with
  | none => some false
  | some colon =>
    if colon.kind = .colon then
      if isCustomProperty text then some true
      else do
        let ⟨stop, _⟩ ← x.cut endsPrelude k limit
        let found ← x.peek stop limit
        some (!found.any (·.kind = .leftCurly))
    else some false

/-! ### Items -/

/-- The prelude of a style rule; in keyframes it is kept as text. -/
def rulePrelude (keyframes : Bool) (scope i limit : Nat) : Option (Parsed Located) := do
  let ⟨(start, stop), _⟩ ← x.trim i limit
  if start = stop then do
    let raw ← x.raw start stop
    some ⟨raw, [⟨.selectorExpected, x.offset start⟩]⟩
  else if keyframes then do
    let raw ← x.raw start stop
    some ⟨raw, []⟩
  else x.orRaw start stop (x.selectorList scope start stop)

/-- The block that opens at `i`, with what was read inside it, and the place behind it. -/
def finishBlock (i inner limit : Nat) (items : Parsed (List Located)) :
    Option (Parsed Located × Nat) := do
  let opener ← x.token i
  let (after, stop, errors) ← x.leave i inner limit
  some (⟨⟨.block, .none, ⟨opener.start, stop⟩, items.value⟩, items.errors ++ errors⟩, after)

/-- The tokens of a range as raw text, trimmed. -/
def rawTrimmed (i limit : Nat) : Option Located := do
  let ⟨(start, stop), _⟩ ← x.trim i limit
  x.raw start stop

/-- What starts at `i` and is no rule: a declaration if it starts with an identifier. -/
def looseItem (i limit : Nat) : Option (Parsed Located) := do
  let t ← x.token i
  if t.kind = .ident then x.declaration i limit
  else do
    let raw ← x.rawTrimmed i limit
    some ⟨raw, [⟨.unexpectedInput, t.start⟩]⟩

/-- The prelude of the at-rule with a given name, if it has one, and where it ends. -/
def preludeOf (name : String) (i limit : Nat) : Option (Parsed (List Located) × Nat) := do
  let ⟨(start, stop), _⟩ ← x.trim i limit
  if start < stop then do
    let prelude ← x.atRulePrelude name start stop
    some (prelude.map fun n => [n], stop)
  else some (⟨[], []⟩, stop)

mutual

/-- The at-rule whose keyword stands at `i`, and the place behind it. -/
def atRule (nested : Bool) (i limit : Nat) : Option (Parsed Located × Ahead i limit) := do
  let t ← x.token i
  let text ← x.textAt i
  let name := atRuleName { t with text }
  let ⟨stop, _⟩ ← x.cut endsPrelude (i + 1) limit
  let (prelude, last) ← x.preludeOf name (i + 1) stop
  let node (stop : Nat) (block : List Located) : Located :=
    ⟨.atrule, .name name, ⟨t.start, stop⟩, prelude.value ++ block⟩
  if _h : stop < limit then do
    let d ← x.token stop
    if d.kind = .semicolon then do
      let next ← advance i limit (stop + 1)
      some (⟨node d.stop [], prelude.errors⟩, next)
    else do
      let ⟨inner, _⟩ ← x.innerEnd stop limit
      let style := BlockStyle.ofName nested name
      let items :=
        if style = .declarations then blockItems true (stop + 1) inner
        else ruleList false (style = .keyframes) nested (stop + 1) inner
      let items ← items
      let (block, after) ← x.finishBlock stop inner limit items
      -- without spans the rule ends where the tokens of its block do
      let _ ← x.endOffset stop after
      let next ← advance i limit after
      some (⟨node block.value.note.stop [block.value], prelude.errors ++ block.errors⟩, next)
  else do
    let found ← x.endOffset i last
    let next ← advance i limit limit
    some (⟨node found [], prelude.errors ++ [⟨.semicolonOrBlockExpected, found⟩]⟩, next)
termination_by 2 * (limit - i)

/-- The style rule that starts at `i` and whose block opens at `stop`, and the place behind it. -/
def ruleAt (keyframes : Bool) (i stop limit : Nat) (_h : i ≤ stop ∧ stop < limit) :
    Option (Parsed Located × Ahead i limit) := do
  let prelude ← x.rulePrelude keyframes limit i stop
  let ⟨inner, _⟩ ← x.innerEnd stop limit
  let items ← blockItems true (stop + 1) inner
  let (block, after) ← x.finishBlock stop inner limit items
  let next ← advance i limit after
  some (styleRule (x.offset i) prelude block, next)
termination_by 2 * (limit - i)

/-- The rules of a range. Only the top level of a style sheet may hold `<!--` and `-->`. -/
def ruleList (top keyframes nested : Bool) (i limit : Nat) : Option (Parsed (List Located)) :=
  if _h : i < limit then do
    let t ← x.token i
    if t.kind.isTrivia || (top && (t.kind = .cdo || t.kind = .cdc)) then
      ruleList top keyframes nested (i + 1) limit
    else if t.kind = .atKeyword then do
      let (rule, ⟨next, _⟩) ← atRule nested i limit
      let rest ← ruleList top keyframes nested next limit
      some (rule.cons rest)
    else do
      let ⟨stop, _⟩ ← x.cut (· = .leftCurly) i limit
      if h : stop < limit then do
        let (rule, ⟨next, _⟩) ← ruleAt keyframes i stop limit ⟨by omega, h⟩
        let rest ← ruleList top keyframes nested next limit
        some (rule.cons rest)
      else do
        let found ← x.endOffset i limit
        let raw ← x.rawTrimmed i limit
        some ⟨[raw], [⟨.leftCurlyExpected, found⟩]⟩
  else some ⟨[], []⟩
termination_by 2 * (limit - i) + 1

/-- Declarations, at-rules and nested style rules in a range. -/
def blockItems (nested : Bool) (i limit : Nat) : Option (Parsed (List Located)) :=
  if _h : i < limit then do
    let t ← x.token i
    if t.kind.isTrivia || t.kind = .semicolon then blockItems nested (i + 1) limit
    else if t.kind = .atKeyword then do
      let (rule, ⟨next, _⟩) ← atRule nested i limit
      let rest ← blockItems nested next limit
      some (rule.cons rest)
    else do
      let declares := if t.kind = .ident then x.startsDeclaration i limit else some false
      let declares ← declares
      if declares then do
        let ⟨stop, _⟩ ← x.cut (· = .semicolon) i limit
        let item ← x.declaration i stop
        let ⟨next, _⟩ ← advance i limit stop
        let rest ← blockItems nested next limit
        some (item.cons rest)
      else do
        let ⟨stop, _⟩ ← x.cut endsPrelude i limit
        let d ← x.peek stop limit
        if h : stop < limit ∧ d.any (·.kind = .leftCurly) then do
          let (rule, ⟨next, _⟩) ← ruleAt false i stop limit ⟨by omega, h.1⟩
          let rest ← blockItems nested next limit
          some (rule.cons rest)
        else do
          let item ← x.looseItem i stop
          let ⟨next, _⟩ ← advance i limit stop
          let rest ← blockItems nested next limit
          some (item.cons rest)
  else some ⟨[], []⟩
termination_by 2 * (limit - i) + 1

end

/-! ### Reading the range of a scope -/

namespace Holds

variable {x : Input} {i j k : Nat} {s v : Scope} {t colon : Token} {ts : List Token} {next : Nat}

theorem peek_last (h : x.Holds i j ⟨ts ++ [t], next⟩) {limit : Nat} (le : j ≤ limit) :
    x.peek (j - 1) limit = some (some t) := by
  have lt := h.lt_of_concat
  rw [Input.peek, if_pos (by omega), h.token_last]
  simp only [Option.bind_eq_bind, Option.bind_some]
  rw [h.textAt_last]
  rfl

/-- Tokens start with one that matters unless there are none. -/
theorem significant_eq_iff {ts : List Token} :
    Token.significant ts = ts ↔ ∀ t ∈ ts.head?, t.kind.isTrivia = false := by
  cases ts with
  | nil => exact ⟨by rintro - _ ⟨⟩, fun _ => rfl⟩
  | cons t ts =>
    rw [Token.significant, List.dropWhile_cons]
    constructor
    · intro same u hu
      obtain rfl : t = u := Option.some.inj hu
      split at same
      · have := (List.dropWhile_suffix (l := ts) fun t : Token => t.kind.isTrivia).length_le
        rw [same, List.length_cons] at this
        omega
      · exact Bool.eq_false_iff.mpr (by assumption)
    · intro first
      rw [if_neg (by rw [first t rfl]; exact Bool.false_ne_true)]

theorem significant_front {front back : List Token}
    (h : Token.significant (front ++ back) = front ++ back) : Token.significant front = front := by
  rw [significant_eq_iff] at h ⊢
  cases front with
  | nil => rintro _ ⟨⟩
  | cons t front => exact h

/-- Trimming a range that starts with a token that matters leaves its start. -/
theorem trim_tight (h : x.Holds i j s) (tight : Token.significant s.tokens = s.tokens) :
    ∃ r, x.trim i j = some r ∧ r.1.1 = i ∧ x.Holds i r.1.2 s.trim ∧
      s.trim.tokens = (Token.significant s.tokens.reverse).reverse := by
  obtain ⟨r, found, front, held⟩ := h.trim_front
  have stop := h.stop
  have stop' := front.stop
  rw [Scope.trimStart, tight] at stop'
  have start : r.1.1 = i := by
    dsimp only at stop'
    omega
  rw [start] at held
  refine ⟨r, found, start, held, ?_⟩
  rw [Scope.trim, tight]

/-- The cursor finds `!important` where the grammar takes it off a value. -/
theorem important (h : x.Holds i j v) (tight : Token.significant v.tokens = v.tokens) :
    (x.important i j = some none ∧ Grammar.splitImportant v = (v, false)) ∨
      ∃ k front next, x.important i j = some (some k) ∧ x.Holds i k ⟨front, next⟩ ∧
        Token.significant front = front ∧
          Grammar.splitImportant v = (Scope.trim ⟨front, next⟩, true) := by
  obtain ⟨tokens, next⟩ := v
  obtain rfl | ⟨front, word, rfl⟩ := List.eq_nil_or_concat tokens
  · rw [Input.important, if_neg h.not_lt]
    exact .inl ⟨rfl, rfl⟩
  rw [List.concat_eq_append] at h tight ⊢
  have backward : (front ++ [word]).reverse = word :: front.reverse := by simp
  rw [Input.important, if_pos h.lt_of_concat, h.token_last, Grammar.splitImportant, backward]
  simp only [Option.bind_eq_bind, Option.bind_some]
  by_cases ident : word.kind = .ident
  · rw [if_pos ident, h.textAt_last, Option.bind_some]
    by_cases name : Text.sameName word.text "important" = true
    · have marked : (word.kind = .ident && Text.sameName word.text "important") = true := by
        rw [ident, name]
        rfl
      have before : x.Holds i (j - 1) ⟨front, word.start⟩ := by
        have held := h.front rfl (h.matched.of_concat fun k => by
          rw [ident]
          cases k <;> rintro ⟨⟩)
        rwa [h.last] at held
      obtain ⟨r, trimmed, -, held, tokens⟩ := before.trim_tight (significant_front tight)
      rw [if_pos name, trimmed, if_pos marked]
      simp only [Option.bind_some]
      cases hs : Token.significant front.reverse with
      | nil =>
        rw [hs] at tokens
        rw [if_neg (Nat.not_lt.mpr (Nat.le_of_eq (held.nil_iff.mpr tokens).symm))]
        exact .inl ⟨rfl, rfl⟩
      | cons bang before =>
        rw [hs, List.reverse_cons] at tokens
        have le : r.1.2 ≤ j := Nat.le_trans r.2.2.2 (Nat.sub_le j 1)
        have held : x.Holds i r.1.2
            ⟨before.reverse ++ [bang], (Scope.trim ⟨front, word.start⟩).next⟩ :=
          tokens ▸ held
        rw [if_pos held.lt_of_concat, held.peek_last le]
        simp only [Option.bind_some, Option.any_some]
        by_cases delim : bang.isDelim '!' = true
        · have value := held.front rfl (held.matched.of_concat fun k => by
            rw [kind_of_isDelim delim]
            cases k <;> rintro ⟨⟩)
          rw [held.last] at value
          have split : front = before.reverse ++
              (bang :: (front.reverse.takeWhile fun t => t.kind.isTrivia).reverse) := by
            have whole := congrArg List.reverse (Token.significant_append front.reverse)
            rw [hs, List.reverse_reverse, List.reverse_append, List.reverse_cons] at whole
            rw [List.append_cons, whole]
          rw [if_pos delim, if_pos delim]
          exact .inr ⟨_, _, _, rfl, value, significant_front (split ▸ significant_front tight), rfl⟩
        · rw [if_neg delim, if_neg delim]
          exact .inl ⟨rfl, rfl⟩
    · have plain : ¬(word.kind = .ident && Text.sameName word.text "important") = true := by
        rw [Bool.and_eq_true]
        exact fun both => name both.2
      rw [if_neg name, if_neg plain]
      exact .inl ⟨rfl, rfl⟩
  · have plain : ¬(word.kind = .ident && Text.sameName word.text "important") = true := by
      rw [Bool.and_eq_true, decide_eq_true_eq]
      exact fun both => ident both.1
    rw [if_neg ident, if_neg plain]
    exact .inl ⟨rfl, rfl⟩

theorem trim_tight_tokens (s : Scope) : Token.significant s.trim.tokens = s.trim.tokens :=
  significant_eq_iff.mpr fun t ht => by
    obtain ⟨rest, tokens⟩ := List.head?_eq_some_iff.mp ht
    exact trim_head tokens

theorem matched_of_trivia {ts : List Token} (h : ∀ t ∈ ts, t.kind.isTrivia = true) :
    Token.Matched ts := by
  induction ts with
  | nil => exact .nil
  | cons t ts ih =>
    obtain ⟨first, later⟩ := List.forall_mem_cons.mp h
    exact matched_leaf (Token.Kind.opensBlock_of_isTrivia first) (ih later)

/-- Trimming a range passes white space and comments only. -/
theorem gap_of_trim (h : x.Holds i j s) :
    ∃ r, x.trim i j = some r ∧
      (∃ n, x.Holds i r.1.1 ⟨s.tokens.takeWhile fun t => t.kind.isTrivia, n⟩) ∧
        x.Holds r.1.1 r.1.2 s.trim := by
  obtain ⟨r, found, front, held⟩ := h.trim_front
  have split := (Token.significant_append s.tokens).symm
  have trivia : Token.Matched (s.tokens.takeWhile fun t => t.kind.isTrivia) :=
    matched_of_trivia fun _ ht => (List.mem_takeWhile_imp ht :)
  have gap := h.front split trivia
  have start : i + (s.tokens.takeWhile fun t => t.kind.isTrivia).length = r.1.1 := by
    have stop := h.stop
    have stop' := front.stop
    rw [split, List.length_append] at stop
    rw [Scope.trimStart] at stop'
    dsimp only at stop'
    omega
  exact ⟨r, found, ⟨_, start ▸ gap⟩, held⟩

/-- What is left of a value ends where the cursor finds it to end. -/
theorem splitImportant (h : x.Holds i j v) (tight : Token.significant v.tokens = v.tokens) :
    ∃ k, x.splitImportant i j = some (k, (Grammar.splitImportant v).2) ∧
      x.Holds i k (Grammar.splitImportant v).1 := by
  obtain ⟨found, split⟩ | ⟨k, front, next, found, held, tight, split⟩ := h.important tight
  · rw [Input.splitImportant, found, split]
    exact ⟨j, rfl, h⟩
  · obtain ⟨r, trimmed, -, held, -⟩ := held.trim_tight tight
    rw [Input.splitImportant, found, split]
    simp only [Option.bind_eq_bind, Option.bind_some]
    rw [trimmed]
    exact ⟨r.1.2, rfl, held⟩

theorem plainValue (h : x.Holds i j v) :
    x.plainValue colon i j = some (Grammar.plainValue colon v) := by
  rw [Input.plainValue, h.components, Grammar.plainValue, componentSequence]
  simp only [Option.bind_eq_bind, Option.bind_some]
  by_cases empty : v.tokens.isEmpty = true
  · rw [if_neg fun wide => h.lt_iff.mp wide empty, if_pos empty]
    rfl
  · rw [if_pos (h.lt_iff.mpr empty), if_neg empty, h.span]
    rfl

/-- What stands right behind a token that opens no block starts where the token stops. -/
theorem start_of_tail (h : x.Holds i j ⟨t :: ts, next⟩) (plain : t.kind.opensBlock = false) :
    Scope.start ⟨ts, next⟩ = t.stop := by
  obtain ⟨-, -, -, rest⟩ := Token.Run.cons_iff.mp h.lies
  rw [← Token.Run.reach_eq_stop h.lies List.mem_cons_self plain]
  exact rest.startOf_eq

/-- The value of a custom property is the text between its colon and its end. -/
theorem customValue {m n : Nat} (h : x.Holds k j ⟨colon :: ts, next⟩) (hk : colon.kind = .colon)
    (gap : x.Holds (k + 1) i ⟨ts.takeWhile fun t => t.kind.isTrivia, n⟩) (held : x.Holds i m v) :
    x.customValue colon i m = some (Grammar.customValue colon ts v) := by
  have plain : colon.kind.opensBlock = false := by rw [hk]; rfl
  have whole := gap.append held
  have start : Scope.start ⟨(ts.takeWhile fun t => t.kind.isTrivia) ++ v.tokens, v.next⟩ =
      colon.stop := by
    rw [← whole.offset_start, (h.tail_of_leaf plain).offset_start, h.start_of_tail plain]
  have le : colon.stop ≤ v.stop := by
    have part : v.IsPart ⟨(ts.takeWhile fun t => t.kind.isTrivia) ++ v.tokens, v.next⟩ :=
      ⟨_, [], by rw [List.append_nil], rfl⟩
    rw [← start]
    exact Nat.le_trans (part.start_le whole.lies) held.lies.start_le_stop
  rw [Input.customValue, held.endOffset]
  simp only [Option.bind_eq_bind, Option.bind_some]
  rw [Nat.max_eq_left le, Grammar.customValue]
  by_cases empty : v.tokens.isEmpty = true
  · rw [if_neg fun wide => held.lt_iff.mp wide empty, if_pos empty]
    rfl
  · have wide := held.lt_iff.mpr empty
    obtain ⟨tokens, vnext⟩ := v
    obtain rfl | ⟨front, last, rfl⟩ := List.eq_nil_or_concat tokens
    · exact absurd rfl empty
    rw [List.concat_eq_append] at whole start le empty ⊢
    rw [← List.append_assoc] at whole start ⊢
    have lies := whole.lies
    rw [Scope.LiesIn, start] at lies
    obtain ⟨stands, stop⟩ := lies.stands_sourceText
    have last : Scope.stop ⟨front ++ [last], vnext⟩ = last.stop := by simp [Scope.stop]
    have slice := stands.slice?
    rw [stop, String.ofList_toList] at slice
    rw [if_pos wide, if_neg empty, last, slice]
    rfl

/-- The cursor finds the declaration of the scope. -/
theorem declaration (h : x.Holds i j s) :
    x.declaration i j = some (Grammar.declaration s) := by
  obtain ⟨r, trimmed, held⟩ := h.trim
  rw [Input.declaration, trimmed, Grammar.declaration]
  simp only [Option.bind_eq_bind, Option.bind_some]
  generalize s.trim = s at held
  obtain ⟨tokens, next⟩ := s
  rw [held.peek]
  cases tokens with
  | nil =>
    dsimp only [List.head?_nil, Option.bind_some]
    rw [held.raw, Option.bind_some, held.offset_of_isEmpty rfl]
  | cons t ts =>
    dsimp only [List.head?_cons, Option.bind_some]
    by_cases ident : t.kind = .ident
    · rw [if_neg (not_not_intro ident), if_neg (not_not_intro ident)]
      have tail := held.tail_of_leaf (by rw [ident]; rfl)
      obtain ⟨k, found, lo, second⟩ := tail.significant
      rw [found, Option.bind_some, second.peek, Scope.trimStart]
      rw [Scope.trimStart] at second
      dsimp only [Option.bind_some] at second ⊢
      cases hs : Token.significant ts with
      | nil =>
        rw [hs] at second
        dsimp only [List.head?_nil]
        rw [held.raw, Option.bind_some, second.offset_of_isEmpty rfl]
      | cons colon after =>
        rw [hs] at second
        dsimp only [List.head?_cons]
        by_cases hk : colon.kind = .colon
        · rw [if_neg (not_not_intro hk), if_neg (not_not_intro hk)]
          have behind := second.tail_of_leaf (by rw [hk]; rfl)
          obtain ⟨r', trimmed, ⟨n, gap⟩, value⟩ := behind.gap_of_trim
          obtain ⟨m, split, value⟩ := value.splitImportant (trim_tight_tokens _)
          have mem : colon ∈ t :: ts := by
            have whole := Token.significant_append ts
            rw [hs] at whole
            rw [← whole]
            simp
          have le : colon.stop ≤ Scope.stop ⟨t :: ts, next⟩ :=
            held.lies.endsBy_stop colon mem
          have child : (if isCustomProperty t.text = true then
              (x.customValue colon r'.1.1 m).map (⟨·, []⟩)
              else x.plainValue colon r'.1.1 m) =
              some (if isCustomProperty t.text = true then
                ⟨Grammar.customValue colon after
                  (Grammar.splitImportant (Scope.trim ⟨after, next⟩)).1, []⟩
                else Grammar.plainValue colon
                  (Grammar.splitImportant (Scope.trim ⟨after, next⟩)).1) := by
            split
            · rw [second.customValue hk gap value]
              rfl
            · rw [value.plainValue]
          rw [trimmed, Option.bind_some, split, Option.bind_some, child, Option.bind_some,
            held.endOffset, Option.bind_some, Nat.max_eq_left le]
          rfl
        · rw [if_pos hk, if_pos hk, held.raw]
          rfl
    · rw [if_pos ident, if_pos ident, held.raw]
      rfl

/-- A token that opens no block is passed when a scope is cut behind it. -/
theorem spanTop_leaf {f : Token.Kind → Bool} (plain : t.kind.opensBlock = false)
    (other : f t.kind = false) : (Token.spanTop f (t :: ts)).2 = (Token.spanTop f ts).2 := by
  have more : t.more ts = 0 := by rw [Token.more, plain, if_neg Bool.false_ne_true]
  rw [Token.spanTop, other, if_neg Bool.false_ne_true, more, List.drop_zero]

theorem startsDeclaration (h : x.Holds i j ⟨t :: ts, next⟩) (ident : t.kind = .ident) :
    x.startsDeclaration i j = some (Grammar.startsDeclaration t ⟨ts, next⟩) := by
  obtain ⟨k, found, -, second⟩ := (h.tail_of_leaf (by rw [ident]; rfl)).significant
  rw [Input.startsDeclaration, h.textAt, Grammar.startsDeclaration]
  simp only [Option.bind_eq_bind, Option.bind_some]
  rw [found, Option.bind_some, second.peek]
  rw [Scope.trimStart] at second ⊢
  dsimp only at second ⊢
  cases hs : Token.significant ts with
  | nil => rfl
  | cons colon after =>
    rw [hs] at second
    dsimp only [List.head?_cons, Option.bind_some]
    by_cases hk : colon.kind = .colon
    · have plain : colon.kind.opensBlock = false := by rw [hk]; rfl
      have tokens : (Scope.cut endsPrelude ⟨colon :: after, next⟩).2.tokens =
          (Token.spanTop endsPrelude after).2 :=
        spanTop_leaf plain (by rw [hk]; rfl)
      obtain ⟨e, cut, -, later⟩ := second.cut endsPrelude
      rw [if_pos hk, cut, hk]
      simp only [Option.bind_some]
      have ends : (Scope.cut (fun k => k = .leftCurly || k = .semicolon) ⟨after, next⟩).2.tokens =
          (Token.spanTop endsPrelude after).2 := rfl
      rw [later.peek, tokens, ends, decide_true, Bool.true_and]
      split
      · rename_i custom
        rw [custom, Bool.true_or]
      · rename_i ordinary
        rw [Bool.eq_false_iff.mpr ordinary, Bool.false_or]
        cases hf : (Token.spanTop endsPrelude after).2 with
        | nil => rfl
        | cons d ds =>
          have kind : d.kind = .leftCurly ∨ d.kind = .semicolon :=
            endsItems_endsPrelude _ (Token.spanTop_head hf)
          obtain kind | kind := kind <;> simp [kind]
    · rw [if_neg hk]
      simp [hk]

/-- The prelude of a style rule is read in its range. -/
theorem rulePrelude {scope limit : Nat} (keyframes : Bool) (h : x.Holds i j s)
    (ends : x.EndsAt scope limit) (within : j ≤ scope) :
    x.rulePrelude keyframes scope i j = some (Grammar.rulePrelude keyframes limit s) := by
  obtain ⟨r, trimmed, held⟩ := h.trim
  have le : r.1.2 ≤ scope := Nat.le_trans r.2.2.2 within
  rw [Input.rulePrelude, trimmed, Grammar.rulePrelude]
  simp only [Option.bind_eq_bind, Option.bind_some]
  by_cases empty : s.trim.tokens.isEmpty = true
  · rw [if_pos (held.eq_iff.mpr empty), if_pos empty, held.raw, Option.bind_some,
      held.offset_of_isEmpty empty]
  · rw [if_neg (mt held.eq_iff.mp empty), if_neg empty, held.raw, held.selectorList ends le,
      held.orRaw]
    split <;> rfl

theorem rawTrimmed (h : x.Holds i j s) : x.rawTrimmed i j = some (Located.raw s.trim) := by
  obtain ⟨r, trimmed, held⟩ := h.trim
  rw [Input.rawTrimmed, trimmed]
  exact held.raw

theorem looseItem (first : x.token i = some t) (h : x.Holds i j s) :
    x.looseItem i j = some (Grammar.looseItem t s) := by
  rw [Input.looseItem, first, Grammar.looseItem, h.declaration, h.rawTrimmed]
  simp only [Option.bind_eq_bind, Option.bind_some]
  split <;> rfl

theorem finishBlock {e : Nat} (h : x.Holds i j ⟨t :: ts, next⟩) (opens : t.kind.opensBlock = true)
    (inner : x.Holds (i + 1) e (Scope.enter t ⟨ts, next⟩).inner) (items : Parsed (List Located)) :
    ∃ k, x.finishBlock i e j items = some (withBlock (Scope.enter t ⟨ts, next⟩) items, k) ∧
      i < k ∧ k ≤ j ∧ x.Holds k j (Scope.enter t ⟨ts, next⟩).after := by
  obtain ⟨k, left, lo, hi, after⟩ := h.leave opens inner
  refine ⟨k, ?_, lo, hi, after⟩
  rw [Input.finishBlock, h.token_head]
  simp only [Option.bind_eq_bind, Option.bind_some]
  rw [left, withBlock, Block.span, Scope.enter_opener]
  rfl

/-- The tokens up to where a block is left end where the block ends. -/
theorem endOffset_block (h : x.Holds i j ⟨t :: ts, next⟩) (opens : t.kind.opensBlock = true)
    (after : x.Holds k j (Scope.enter t ⟨ts, next⟩).after) :
    x.endOffset i k = some (Scope.enter t ⟨ts, next⟩).stop := by
  obtain ⟨n, block, rest⟩ := h.block opens
  have left : k = i + 1 + t.more ts := by
    have := after.stop
    have := rest.stop
    omega
  rw [left, block.endOffset, block_stop]

/-! ### Items -/

/-- Nothing is left at the end of a range. -/
theorem done (h : x.Holds i j s) : x.Holds j j ⟨[], s.next⟩ := by
  have nothing := h.suffix s.tokens (List.append_nil _).symm .nil
  rwa [h.stop] at nothing

theorem endOffset_of_lt {a b : Nat} (ha : a < j) (hb : b < j) : x.endOffset a j = x.endOffset b j := by
  rw [Input.endOffset, Input.endOffset, if_pos ha, if_pos hb]

/-- Blocks that are not closed in a range are located where its scope stops. -/
theorem endsAt (h : x.Holds i j s) (lt : i < j) : x.EndsAt j s.stop := by
  intro k hk
  rw [endOffset_of_lt hk lt, h.endOffset]

/-- The first item of a scope is cut out of its range: its prelude, its end, and what follows. -/
theorem item {f : Token.Kind → Bool} (hf : EndsItems f) (h : x.Holds i j s) :
    ∃ e, x.cut f i j = some e ∧ x.Holds i e.1 (Item.take f s).prelude ∧
      ((∃ d ds, (Item.take f s).ending = .block (Scope.enter d ⟨ds, s.next⟩) ∧
          (Item.take f s).after = (Scope.enter d ⟨ds, s.next⟩).after ∧
            (d.kind = .leftCurly ∧ f d.kind = true) ∧ x.Holds e.1 j ⟨d :: ds, s.next⟩) ∨
        (∃ d ds, (Item.take f s).ending = .semicolon d ∧ (Item.take f s).after = ⟨ds, s.next⟩ ∧
          (d.kind = .semicolon ∧ f d.kind = true) ∧ x.Holds e.1 j ⟨d :: ds, s.next⟩) ∨
        ((Item.take f s).ending = .missing ∧ (Item.take f s).after = ⟨[], s.next⟩ ∧ e.1 = j)) := by
  obtain ⟨e, cut, first, later⟩ := h.cut f
  refine ⟨e, cut, ?_⟩
  obtain ⟨d, ds, found, taken⟩ | ⟨d, ds, found, taken⟩ | ⟨found, taken⟩ := Item.take_cases f s
  · have opener := item_block_opener (congrArg Item.ending taken)
    rw [Scope.enter_opener] at opener
    rw [found] at later
    rw [taken]
    exact ⟨first, .inl ⟨d, ds, rfl, rfl, opener, later⟩⟩
  · obtain ⟨-, -, kind⟩ := item_semicolon hf (congrArg Item.ending taken)
    have selected : f d.kind = true := Token.spanTop_head (congrArg Scope.tokens found)
    rw [found] at later
    rw [taken]
    exact ⟨first, .inr (.inl ⟨d, ds, rfl, rfl, ⟨kind, selected⟩, later⟩)⟩
  · rw [found] at later
    rw [taken]
    exact ⟨first, .inr (.inr ⟨rfl, rfl, later.eq_of_nil⟩)⟩

/-- An item that starts with no token that ends it moves the cursor ahead. -/
theorem lt_of_cut {f : Token.Kind → Bool} {e : Nat} (other : f t.kind = false)
    (h : x.Holds i e (Item.take f ⟨t :: ts, next⟩).prelude) : i < e := by
  refine Nat.lt_of_le_of_ne h.le fun same => ?_
  have nonempty : (Item.take f ⟨t :: ts, next⟩).prelude.tokens ≠ [] := by
    rw [Item.take_prelude, Scope.cut, Token.spanTop, other]
    rintro ⟨⟩
  exact nonempty (h.nil_iff.mp same)

/-- The prelude of an at-rule is read in its range, and ends where its tokens do. -/
theorem preludeOf (name : String) (h : x.Holds i j s) :
    ∃ m, x.preludeOf name i j = some (preludeNodes name s.trim, m) ∧
      (s.trim.tokens = [] → m = j) ∧
        ∀ k < i, s.trim.tokens ≠ [] → x.endOffset k m = some s.trim.stop := by
  obtain ⟨r, trimmed, front, held⟩ := h.trim_front
  rw [Input.preludeOf, trimmed, preludeNodes]
  simp only [Option.bind_eq_bind, Option.bind_some]
  by_cases empty : s.trim.tokens.isEmpty = true
  · rw [if_neg fun wide => held.lt_iff.mp wide empty, if_pos empty]
    refine ⟨_, rfl, fun _ => ?_, fun _ _ nonempty => absurd (List.isEmpty_iff.mp empty) nonempty⟩
    have nothing : s.trimStart.tokens = [] :=
      List.dropWhile_eq_nil_iff.mpr (trim_empty (List.isEmpty_iff.mp empty)).1
    have start := front.nil_iff.mpr nothing
    exact (held.eq_iff.mpr empty).symm.trans start
  · have wide := held.lt_iff.mpr empty
    rw [if_pos wide, if_neg empty, held.atRulePrelude]
    refine ⟨_, rfl, fun nothing => absurd (List.isEmpty_iff.mpr nothing) empty, fun k hk _ => ?_⟩
    have lo := r.2.1
    rw [endOffset_of_lt (by omega) wide, held.endOffset]

/-- Reading by index finds what the grammar finds in a block. -/
def ItemsAgree (x : Input) (nested : Bool) (s : Scope) : Prop :=
  ∀ i j, x.Holds i j s → x.blockItems nested i j = some (Grammar.blockItems nested s)

/-- Reading by index finds what the grammar finds in a list of rules. -/
def RulesAgree (x : Input) (top keyframes nested : Bool) (s : Scope) : Prop :=
  ∀ i j, x.Holds i j s →
    x.ruleList top keyframes nested i j = some (Grammar.ruleList top keyframes nested s)

/-- Reading by index finds the at-rule that the grammar finds, and goes on behind it. -/
def AtRuleAgrees (x : Input) (nested : Bool) (t : Token) (rest : Scope) : Prop :=
  ∀ i j, x.Holds i j ⟨t :: rest.tokens, rest.next⟩ → t.kind = .atKeyword →
    ∃ n, x.atRule nested i j = some (Grammar.atRule nested t rest, n) ∧
      x.Holds n.1 j (Item.take endsPrelude rest).after

/-- A style rule is read where it is cut out of its range, and reading goes on behind its block. -/
theorem ruleAt {d : Token} {ds : List Token} {e : Nat} (keyframes : Bool)
    (h : x.Holds i j ⟨t :: ts, next⟩) (prelude : x.Holds i e s) (block : x.Holds e j ⟨d :: ds, next⟩)
    (curly : d.kind = .leftCurly) (inside : ItemsAgree x true (Scope.enter d ⟨ds, next⟩).inner)
    (bounds : i ≤ e ∧ e < j) :
    ∃ n, x.ruleAt keyframes i e j bounds =
        some (styleRule t.start (Grammar.rulePrelude keyframes (Scope.stop ⟨t :: ts, next⟩) s)
          (withBlock (Scope.enter d ⟨ds, next⟩)
            (Grammar.blockItems true (Scope.enter d ⟨ds, next⟩).inner)), n) ∧
      x.Holds n.1 j (Scope.enter d ⟨ds, next⟩).after := by
  have opens : d.kind.opensBlock = true := by rw [curly]; rfl
  obtain ⟨inner, found, content⟩ := block.innerEnd opens
  obtain ⟨k, finished, lo, hi, after⟩ := block.finishBlock opens content
    (Grammar.blockItems true (Scope.enter d ⟨ds, next⟩).inner)
  have ahead : i < k ∧ k ≤ j := ⟨by omega, hi⟩
  have offset : x.offset i = t.start := h.offset_start
  refine ⟨⟨k, ahead⟩, ?_, after⟩
  rw [Input.ruleAt, prelude.rulePrelude keyframes (h.endsAt h.lt) block.le, found]
  simp only [Option.bind_eq_bind, Option.bind_some]
  rw [inside _ _ content, Option.bind_some, finished]
  simp only [Option.bind_some]
  rw [advance_eq ahead, offset]
  rfl

/-- An at-rule is read where it stands in its range, and reading goes on behind its end. -/
theorem atRule (nested : Bool) (h : x.Holds i j ⟨t :: s.tokens, s.next⟩) (keyword : t.kind = .atKeyword)
    (inside : ∀ b, (Item.take endsPrelude s).ending = .block b → ItemsAgree x true b.inner ∧
      RulesAgree x false (BlockStyle.ofName nested (atRuleName t) = .keyframes) nested b.inner) :
    ∃ n, x.atRule nested i j = some (Grammar.atRule nested t s, n) ∧
      x.Holds n.1 j (Item.take endsPrelude s).after := by
  have tail : x.Holds (i + 1) j s := h.tail_of_leaf (by rw [keyword]; rfl)
  obtain ⟨e, cut, prelude, ends⟩ := tail.item endsItems_endsPrelude
  obtain ⟨m, read, empty, full⟩ := prelude.preludeOf (atRuleName t)
  have lo := e.2.1
  rw [Input.atRule, h.token_head]
  simp only [Option.bind_eq_bind, Option.bind_some]
  rw [h.textAt, Option.bind_some, cut, Option.bind_some, read, Option.bind_some]
  obtain ⟨d, ds, ending, after, ⟨curly, -⟩, held⟩ | ⟨d, ds, ending, after, ⟨semicolon, -⟩, held⟩ |
    ⟨ending, after, stop⟩ := ends
  · have opens : d.kind.opensBlock = true := by rw [curly]; rfl
    have taken : Item.take endsPrelude s =
        ⟨(Item.take endsPrelude s).prelude, .block (Scope.enter d ⟨ds, s.next⟩),
          (Item.take endsPrelude s).after⟩ := by
      rw [← ending]
    obtain ⟨inner, found, content⟩ := held.innerEnd opens
    obtain ⟨asItems, asRules⟩ := inside _ ending
    obtain ⟨items, read, same⟩ : ∃ items,
        (if BlockStyle.ofName nested (atRuleName t) = .declarations then
          x.blockItems true (e.1 + 1) inner.1
          else x.ruleList false (BlockStyle.ofName nested (atRuleName t) = .keyframes) nested
            (e.1 + 1) inner.1) = some items ∧
        (if BlockStyle.ofName nested (atRuleName t) = .declarations then
          Grammar.blockItems true (Scope.enter d ⟨ds, s.next⟩).inner
          else Grammar.ruleList false (BlockStyle.ofName nested (atRuleName t) = .keyframes) nested
            (Scope.enter d ⟨ds, s.next⟩).inner) = items := by
      refine ⟨_, ?_, rfl⟩
      split
      · exact asItems _ _ content
      · exact asRules _ _ content
    obtain ⟨k, finished, lo', hi, rest⟩ := held.finishBlock opens content items
    have ahead : i < k ∧ k ≤ j := ⟨by omega, hi⟩
    have other : ¬d.kind = .semicolon := by
      rw [curly]
      rintro ⟨⟩
    rw [dif_pos held.lt, held.token_head, Option.bind_some, if_neg other, found, Option.bind_some]
    dsimp only
    rw [read]
    simp only [Option.bind_some]
    rw [finished]
    simp only [Option.bind_some]
    rw [held.endOffset_block opens rest, Option.bind_some, advance_eq ahead, atRule_block ending,
      same, after, taken, atRuleOf_block]
    exact ⟨_, rfl, rest⟩
  · have taken : Item.take endsPrelude s =
        ⟨(Item.take endsPrelude s).prelude, .semicolon d, (Item.take endsPrelude s).after⟩ := by
      rw [← ending]
    have rest := held.tail_of_leaf (by rw [semicolon]; rfl)
    have ahead : i < e.1 + 1 ∧ e.1 + 1 ≤ j := ⟨by omega, rest.le⟩
    rw [dif_pos held.lt, held.token_head, Option.bind_some, if_pos semicolon, advance_eq ahead,
      atRule_unblocked (by rw [ending]; rintro _ ⟨⟩), after, taken, atRuleOf_semicolon]
    exact ⟨_, rfl, rest⟩
  · have taken : Item.take endsPrelude s =
        ⟨(Item.take endsPrelude s).prelude, .missing, (Item.take endsPrelude s).after⟩ := by
      rw [← ending]
    have ahead : i < j ∧ j ≤ j := ⟨h.lt, Nat.le_refl j⟩
    have found : x.endOffset i m = some (openStop t s (Item.take endsPrelude s).prelude) := by
      rw [openStop]
      by_cases nothing : (Item.take endsPrelude s).prelude.trim.tokens.isEmpty = true
      · rw [if_pos nothing, empty (List.isEmpty_iff.mp nothing), stop]
        exact h.endOffset
      · rw [if_neg nothing]
        exact full i (Nat.lt_succ_self i) fun same => nothing (List.isEmpty_iff.mpr same)
    rw [dif_neg (by omega), found, Option.bind_some, advance_eq ahead,
      atRule_unblocked (by rw [ending]; rintro _ ⟨⟩), after, taken, atRuleOf_missing]
    exact ⟨_, rfl, h.done⟩

/-- A rule is cut out of its range in front of a curly bracket and read there. -/
theorem item_rule {f : Token.Kind → Bool} {b : Block} (keyframes : Bool) (hf : EndsItems f)
    (h : x.Holds i j ⟨t :: ts, next⟩) (ends : (Item.take f ⟨t :: ts, next⟩).ending = .block b)
    (inside : ItemsAgree x true b.inner) :
    ∃ e d n, ∃ lt : e.1 < j, x.cut f i j = some e ∧ x.peek e.1 j = some (some d) ∧
      d.kind = .leftCurly ∧
        x.ruleAt keyframes i e.1 j ⟨e.2.1, lt⟩ =
          some (styleRule t.start (Grammar.rulePrelude keyframes (Scope.stop ⟨t :: ts, next⟩)
            (Item.take f ⟨t :: ts, next⟩).prelude)
            (withBlock b (Grammar.blockItems true b.inner)), n) ∧
          x.Holds n.1 j (Item.take f ⟨t :: ts, next⟩).after := by
  obtain ⟨e, cut, prelude, found⟩ := h.item hf
  obtain ⟨d, ds, ending, after, ⟨curly, -⟩, held⟩ | ⟨d, ds, ending, -⟩ | ⟨ending, -⟩ := found
  · obtain rfl : b = Scope.enter d ⟨ds, next⟩ := Ending.block.inj (ends.symm.trans ending)
    obtain ⟨n, read, rest⟩ := h.ruleAt keyframes prelude held curly inside ⟨e.2.1, held.lt⟩
    exact ⟨e, d, n, held.lt, cut, held.peek, curly, read, after ▸ rest⟩
  · rw [ends] at ending
    cases ending
  · rw [ends] at ending
    cases ending

/-- Where an item without a block ends, no block follows, and a semicolon is passed next. -/
theorem item_open {f : Token.Kind → Bool} {nested : Bool} (hf : EndsItems f) (h : x.Holds i j s)
    (ends : ∀ b, (Item.take f s).ending ≠ .block b)
    (later : ItemsAgree x nested (Item.take f s).after) :
    ∃ e, x.cut f i j = some e ∧ x.Holds i e.1 (Item.take f s).prelude ∧
      (∃ d, x.peek e.1 j = some d ∧ d.any (·.kind = .leftCurly) = false) ∧
        x.blockItems nested e.1 j = some (Grammar.blockItems nested (Item.take f s).after) := by
  obtain ⟨e, cut, prelude, found⟩ := h.item hf
  refine ⟨e, cut, prelude, ?_⟩
  obtain ⟨d, ds, ending, -⟩ | ⟨d, ds, -, after, ⟨semicolon, -⟩, held⟩ | ⟨-, after, stop⟩ := found
  · exact absurd ending (ends _)
  · have skipped : (d.kind.isTrivia || d.kind = .semicolon) = true := by rw [semicolon]; rfl
    refine ⟨⟨some d, held.peek, by rw [Option.any_some, semicolon]; rfl⟩, ?_⟩
    rw [Input.blockItems, dif_pos held.lt, held.token_head]
    simp only [Option.bind_eq_bind, Option.bind_some]
    rw [if_pos skipped]
    exact later _ _ (after ▸ held.tail_of_leaf (by rw [semicolon]; rfl))
  · rw [stop]
    exact ⟨⟨none, h.done.peek, rfl⟩, later _ _ (after ▸ h.done)⟩

theorem declares (h : x.Holds i j ⟨t :: ts, next⟩)
    (plain : ¬(t.kind = .ident && Grammar.startsDeclaration t ⟨ts, next⟩) = true) :
    (if t.kind = .ident then x.startsDeclaration i j else some false) = some false := by
  split
  · rename_i ident
    rw [h.startsDeclaration ident]
    refine congrArg some (Bool.eq_false_iff.mpr fun starts => plain ?_)
    rw [ident, starts]
    rfl
  · rfl

theorem items_agree (x : Input) :
    (∀ nested t rest, AtRuleAgrees x nested t rest) ∧
      (∀ top keyframes nested s, RulesAgree x top keyframes nested s) ∧
        ∀ nested s, ItemsAgree x nested s := by
  refine items_induction ?atRule ?rulesEnd ?rulesSkip ?rulesAtRule ?rulesRule ?rulesRest ?itemsEnd
    ?itemsSkip ?itemsAtRule ?itemsDeclaration ?itemsRule ?itemsLoose
  case atRule =>
    intro nested t rest inside i j h keyword
    exact h.atRule nested keyword inside
  case rulesEnd =>
    intro top keyframes nested next i j h
    rw [Input.ruleList, dif_neg h.not_lt, ruleList_nil]
  case rulesSkip =>
    intro top keyframes nested t ts next skipped ih i j h
    rw [Input.ruleList, dif_pos h.lt, h.token_head, ruleList_skip skipped]
    simp only [Option.bind_eq_bind, Option.bind_some]
    rw [if_pos skipped]
    exact ih _ _ (h.tail_of_leaf (Token.Kind.opensBlock_of_separatesRules skipped))
  case rulesAtRule =>
    intro top keyframes nested t ts next other keyword rule ih i j h
    obtain ⟨n, read, after⟩ := rule i j h keyword
    rw [Input.ruleList, dif_pos h.lt, h.token_head, ruleList_atRule other keyword]
    simp only [Option.bind_eq_bind, Option.bind_some]
    rw [if_neg other, if_pos keyword, read]
    simp only [Option.bind_some]
    rw [ih _ _ after]
    rfl
  case rulesRule =>
    intro top keyframes nested t ts next b other keyword ends inside ih i j h
    obtain ⟨e, d, n, lt, cut, -, -, read, rest⟩ :=
      h.item_rule keyframes endsItems_leftCurly ends inside
    rw [Input.ruleList, dif_pos h.lt, h.token_head, ruleList_rule other keyword ends]
    simp only [Option.bind_eq_bind, Option.bind_some]
    rw [if_neg other, if_neg keyword, cut]
    simp only [Option.bind_some]
    rw [dif_pos lt, read]
    simp only [Option.bind_some]
    rw [ih _ _ rest]
    rfl
  case rulesRest =>
    intro top keyframes nested t ts next other keyword ends i j h
    obtain ⟨e, cut, -, found⟩ := h.item endsItems_leftCurly
    obtain ⟨d, ds, ending, -⟩ | ⟨d, ds, -, -, ⟨semicolon, curly⟩, -⟩ | ⟨ending, -, stop⟩ := found
    · exact absurd ending (ends _)
    · rw [semicolon] at curly
      cases curly
    · rw [Input.ruleList, dif_pos h.lt, h.token_head, ruleList_rest other keyword ends]
      simp only [Option.bind_eq_bind, Option.bind_some]
      rw [if_neg other, if_neg keyword, cut]
      simp only [Option.bind_some]
      rw [dif_neg (by omega), h.endOffset, Option.bind_some, h.rawTrimmed]
      rfl
  case itemsEnd =>
    intro nested next i j h
    rw [Input.blockItems, dif_neg h.not_lt, blockItems_nil]
  case itemsSkip =>
    intro nested t ts next skipped ih i j h
    rw [Input.blockItems, dif_pos h.lt, h.token_head, blockItems_skip skipped]
    simp only [Option.bind_eq_bind, Option.bind_some]
    rw [if_pos skipped]
    exact ih _ _ (h.tail_of_leaf (Token.Kind.opensBlock_of_separatesItems skipped))
  case itemsAtRule =>
    intro nested t ts next other keyword rule ih i j h
    obtain ⟨n, read, after⟩ := rule i j h keyword
    rw [Input.blockItems, dif_pos h.lt, h.token_head, blockItems_atRule other keyword]
    simp only [Option.bind_eq_bind, Option.bind_some]
    rw [if_neg other, if_pos keyword, read]
    simp only [Option.bind_some]
    rw [ih _ _ after]
    rfl
  case itemsDeclaration =>
    intro nested t ts next other keyword declares ih i j h
    obtain ⟨ident, starts⟩ := (Bool.and_eq_true _ _).mp declares
    rw [decide_eq_true_eq] at ident
    obtain ⟨e, cut, prelude, -, resumes⟩ := h.item_open endsItems_semicolon
      Item.take_semicolon_ne_block ih
    have ahead : i < e.1 ∧ e.1 ≤ j := ⟨lt_of_cut (by rw [ident]; rfl) prelude, e.2.2⟩
    rw [Input.blockItems, dif_pos h.lt, h.token_head, blockItems_declaration other keyword declares]
    simp only [Option.bind_eq_bind, Option.bind_some]
    rw [if_neg other, if_neg keyword, if_pos ident, h.startsDeclaration ident, starts,
      Option.bind_some, if_pos rfl, cut]
    simp only [Option.bind_some]
    rw [prelude.declaration, Option.bind_some, advance_eq ahead]
    simp only [Option.bind_some]
    rw [resumes]
    rfl
  case itemsRule =>
    intro nested t ts next b other keyword plain ends inside ih i j h
    have declares := h.declares plain
    obtain ⟨e, d, n, lt, cut, peeked, curly, read, rest⟩ :=
      h.item_rule false endsItems_endsPrelude ends inside
    rw [Input.blockItems, dif_pos h.lt, h.token_head, blockItems_rule other keyword plain ends]
    simp only [Option.bind_eq_bind, Option.bind_some]
    rw [if_neg other, if_neg keyword, declares, Option.bind_some, if_neg Bool.false_ne_true, cut]
    simp only [Option.bind_some]
    rw [peeked]
    simp only [Option.bind_some]
    rw [dif_pos ⟨lt, by simp [curly]⟩, read]
    simp only [Option.bind_some]
    rw [ih _ _ rest]
    rfl
  case itemsLoose =>
    intro nested t ts next other keyword plain ends ih i j h
    have declares := h.declares plain
    have starts : endsPrelude t.kind = false := by
      refine Bool.eq_false_iff.mpr fun selected => ?_
      obtain curly | semicolon := endsItems_endsPrelude _ selected
      · refine ends (Scope.enter t ⟨ts, next⟩) ?_
        simp [Item.take, Scope.cut, Token.spanTop, endsPrelude, curly]
      · exact other (by rw [semicolon]; rfl)
    obtain ⟨e, cut, prelude, behind, resumes⟩ := h.item_open endsItems_endsPrelude ends ih
    have ahead : i < e.1 ∧ e.1 ≤ j := ⟨lt_of_cut starts prelude, e.2.2⟩
    obtain ⟨d, peeked, uncurly⟩ := behind
    rw [Input.blockItems, dif_pos h.lt, h.token_head, blockItems_loose other keyword plain ends]
    simp only [Option.bind_eq_bind, Option.bind_some]
    rw [if_neg other, if_neg keyword, declares, Option.bind_some, if_neg Bool.false_ne_true, cut]
    simp only [Option.bind_some]
    rw [peeked]
    simp only [Option.bind_some]
    rw [dif_neg fun both => by rw [uncurly] at both; exact absurd both.2 Bool.false_ne_true,
      prelude.looseItem h.token_head, Option.bind_some, advance_eq ahead]
    simp only [Option.bind_some]
    rw [resumes]
    rfl

end Holds

end Input

end Stylesheet
