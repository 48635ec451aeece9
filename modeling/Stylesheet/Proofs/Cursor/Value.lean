import Stylesheet.Proofs.Cursor.Range
import Stylesheet.Proofs.Grammar
import Stylesheet.Proofs.Kept.Item

/-!
# Values by index

Components, media queries and the preludes of at-rules, read by a cursor. A cursor that does not
move ahead ends the reading without an answer, as does a name or a number that is cut out of the
text of its token where it cannot be cut.

On a range that holds a scope, the cursor finds what the grammar finds in the scope.
-/

namespace Stylesheet

namespace Input

open Located Grammar

variable (x : Input)

/-- A text without its last byte. -/
def dropLast (text : String) : Option String :=
  if 0 < text.utf8ByteSize then Text.slice? text 0 (text.utf8ByteSize - 1) else none

/-- A text without its first byte. -/
def dropFirst (text : String) : Option String := Text.slice? text 1 text.utf8ByteSize

/-- The node of a token that opens no block. -/
def tokenNode (i : Nat) : Option Located := do
  let t ← x.token i
  let text ← x.textAt i
  match t.kind with
  | .percentage => do
    let value ← dropLast text
    some (leaf .percentage (.value value) t.span)
  | .dimension => do
    let split := Token.Numeral.length text.toList
    let value ← Text.slice? text 0 split
    let unit ← Text.slice? text split text.utf8ByteSize
    some (leaf .dimension (.dimension value unit) t.span)
  | .hash => do
    let value ← dropFirst text
    some (leaf .hash (.value value) t.span)
  | _ => some (Grammar.tokenNode t)

/-- The node of a parenthesis, a square bracket or a function that ends at `stop`, given what it
holds. -/
def blockNode (i stop : Nat) (children : List Located) : Option Located := do
  let t ← x.token i
  let span : Span := ⟨t.start, stop⟩
  match t.kind with
  | .leftParen => some ⟨.parentheses, .none, span, children⟩
  | .leftSquare => some ⟨.brackets, .none, span, children⟩
  | _ => do
    let text ← x.textAt i
    let name ← dropLast text
    let function : Located := ⟨.function, .name name, span, children⟩
    match children with
    | [⟨.string, detail, _, _⟩] =>
      if Text.sameName name "url" then some (leaf .url (.value (detail.value?.getD "")) span)
      else some function
    | _ => some function

/-- All components of a range. -/
def components (i limit : Nat) : Option (Parsed (List Located)) :=
  if _h : i < limit then do
    let t ← x.token i
    -- every token has its text cut out, whether it is used or not
    let _ ← x.textAt i
    if t.kind = .comment then components (i + 1) limit
    else if t.kind = .leftCurly then do
      let stop ← x.componentEnd i limit
      let errors ← x.unclosed i limit
      let ⟨next, _⟩ ← advance i limit stop
      let node ← x.raw i next
      let rest ← components next limit
      some (Parsed.cons ⟨node, errors⟩ rest)
    else if t.kind.opensBlock then do
      let ⟨inner, _⟩ ← x.innerEnd i limit
      let children ← components (i + 1) inner
      let (after, stop, errors) ← x.leave i inner limit
      let ⟨next, _⟩ ← advance i limit after
      let node ← x.blockNode i stop (tidy children.value)
      let rest ← components next limit
      some (Parsed.cons ⟨node, children.errors ++ errors⟩ rest)
    else do
      let node ← x.tokenNode i
      let rest ← components (i + 1) limit
      some (Parsed.cons ⟨node, tokenErrors t⟩ rest)
  else some ⟨[], []⟩
termination_by limit - i

/-- A node of a kind whose children are the components of its range. -/
def sequenceNode (kind : NodeKind) (i limit : Nat) : Option (Parsed Located) := do
  let children ← x.components i limit
  let span ← x.span i limit
  some ((children.map tidy).map fun children => ⟨kind, .none, span, children⟩)

/-- The media queries of a range, separated by commas; empty ones are left out. -/
def mediaQueries (i limit : Nat) : Option (Parsed (List Located)) := do
  let ⟨stop, _⟩ ← x.cut (· = .comma) i limit
  let ⟨part, _⟩ ← x.trim i stop
  let later := if stop < limit then mediaQueries (stop + 1) limit else some ⟨[], []⟩
  let rest ← later
  if part.1 = part.2 then some rest
  else do
    let query ← x.sequenceNode .mediaQuery part.1 part.2
    some (query.cons rest)
termination_by limit - i

/-- A list of media queries. -/
def mediaQueryList (i limit : Nat) : Option (Parsed Located) := do
  let queries ← x.mediaQueries i limit
  let span ← x.span i limit
  some (queries.map fun queries => ⟨.mediaQueryList, .none, span, queries⟩)

/-- The prelude of the at-rule with a given name, read from a trimmed range. -/
def atRulePrelude (name : String) (i limit : Nat) : Option (Parsed Located) :=
  let within (inner : Option (Parsed Located)) : Option (Parsed Located) := do
    let inner ← inner
    let span ← x.span i limit
    some (inner.map fun n => ⟨.atrulePrelude, .none, span, [n]⟩)
  match Text.lowerAscii name with
  | "media" | "custom-media" => within (x.mediaQueryList i limit)
  | "supports" | "container" => within (x.sequenceNode .condition i limit)
  | _ => x.sequenceNode .atrulePrelude i limit

/-! ### Slices of one token -/

section

open Text

variable {text : String} {front rest : List Char} {c : Char}

/-- The front of a text is a slice of it. -/
theorem slice?_front (h : text.toList = front ++ rest) :
    Text.slice? text 0 (width front) = some (String.ofList front) := by
  have stands := h ▸ stands_zero text
  have slice := stands.left.slice?
  rwa [Nat.zero_add] at slice

/-- What follows the front of a text is a slice of it. -/
theorem slice?_rest (h : text.toList = front ++ rest) :
    Text.slice? text (width front) text.utf8ByteSize = some (String.ofList rest) := by
  have stands := h ▸ stands_zero text
  have slice := stands.right.slice?
  have size : 0 + width front + width rest = text.utf8ByteSize := by
    rw [Nat.zero_add, ← width_append, ← h, width_toList]
  rwa [size, Nat.zero_add] at slice

theorem dropLast_eq (narrow : c.utf8Size = 1) (h : ∃ front, text.toList = front ++ [c]) :
    dropLast text = some (String.ofList text.toList.dropLast) := by
  obtain ⟨front, h⟩ := h
  have size : text.utf8ByteSize = width front + 1 := by
    rw [← width_toList, h, width_append, width_cons, width_nil, narrow]
  rw [dropLast, size, if_pos (Nat.succ_pos _), Nat.add_sub_cancel, slice?_front h, h,
    List.dropLast_concat]

theorem dropFirst_eq (narrow : c.utf8Size = 1) (h : ∃ rest, text.toList = c :: rest) :
    dropFirst text = some (String.ofList text.toList.tail) := by
  obtain ⟨rest, h⟩ := h
  have slice := slice?_rest (show text.toList = [c] ++ rest from h)
  rw [width_cons, width_nil, narrow] at slice
  rw [dropFirst, slice, h, List.tail_cons]

/-- A dimension is cut behind its number. -/
theorem slice?_numeral (text : String) :
    Text.slice? text 0 (Token.Numeral.length text.toList) = some (Token.Numeral.split text).1 ∧
      Text.slice? text (Token.Numeral.length text.toList) text.utf8ByteSize =
        some (Token.Numeral.split text).2 := by
  have cut : text.toList = text.toList.take (Token.Numeral.length text.toList) ++
      text.toList.drop (Token.Numeral.length text.toList) := (List.take_append_drop _ _).symm
  have number := slice?_front cut
  have unit := slice?_rest cut
  rw [show width _ = _ from Token.Numeral.narrow_length text.toList] at number unit
  exact ⟨number, unit⟩

end

/-! ### Reading the range of a scope -/

namespace Holds

variable {x : Input} {i j : Nat} {s : Scope} {t : Token} {ts : List Token} {next : Nat}

theorem spelt_head (h : x.Holds i j ⟨t :: ts, next⟩) : Token.Spelt t.kind t.text :=
  h.spelt t List.mem_cons_self

theorem tokenNode (h : x.Holds i j ⟨t :: ts, next⟩) :
    x.tokenNode i = some (Grammar.tokenNode t) := by
  have spelt := h.spelt_head
  rw [Input.tokenNode, h.token_head]
  simp only [Option.bind_eq_bind, Option.bind_some]
  rw [h.textAt, Option.bind_some]
  unfold Grammar.tokenNode
  split
  · rename_i kind
    rw [dropLast_eq rfl (spelt.percentage kind), kind]
    rfl
  · rename_i kind
    obtain ⟨number, unit⟩ := slice?_numeral t.text
    rw [number, Option.bind_some, unit, kind]
    rfl
  · rename_i kind
    rw [dropFirst_eq rfl (spelt.hash kind), kind]
    rfl
  · rfl

theorem blockNode (h : x.Holds i j ⟨t :: ts, next⟩) (opens : t.kind.opensBlock = true)
    (curly : t.kind ≠ .leftCurly) (children : List Located) :
    x.blockNode i (Scope.enter t ⟨ts, next⟩).stop children =
      some (Grammar.blockNode (Scope.enter t ⟨ts, next⟩) children) := by
  have spelt := h.spelt_head
  have opener : (Scope.enter t ⟨ts, next⟩).opener = t := Scope.enter_opener t _
  rw [Input.blockNode, h.token_head]
  simp only [Option.bind_eq_bind, Option.bind_some]
  split
  · rename_i kind
    unfold Grammar.blockNode
    rw [Block.span, opener, kind]
  · rename_i kind
    unfold Grammar.blockNode
    rw [Block.span, opener, kind]
  · rename_i paren square
    have function : t.kind = .function := by
      cases kind : t.kind <;> simp_all [Token.Kind.opensBlock, Token.Kind.closing]
    rw [h.textAt, Option.bind_some, dropLast_eq rfl (spelt.function function), Option.bind_some]
    split
    · unfold Grammar.blockNode functionName
      rw [Block.span, opener, function]
      dsimp only
      split <;> rfl
    · rename_i other
      unfold Grammar.blockNode
      rw [Block.span, opener, function]
      dsimp only
      split
      · exact (other _ _ _ rfl).elim
      · rfl

/-- The cursor finds the components of the scope, and stays in its range. -/
theorem components (h : x.Holds i j s) : x.components i j = some (Grammar.components s) := by
  fun_induction Grammar.components s generalizing i j with
  | case1 s hs =>
    obtain ⟨tokens, next⟩ := s
    obtain rfl : tokens = [] := hs
    rw [Input.components, dif_neg h.not_lt]
  | case2 s t ts hs comment ih =>
    obtain ⟨tokens, next⟩ := s
    obtain rfl : tokens = t :: ts := hs
    have tail := h.tail (h.matched.of_leaf (by rw [comment]; rfl))
    rw [Input.components, dif_pos h.lt, h.token_head]
    simp only [Option.bind_eq_bind, Option.bind_some]
    rw [h.textAt, Option.bind_some, if_pos comment]
    exact ih tail
  | case3 =>
    rename_i s t ts hs comment opens b inner node ih ihAfter
    obtain ⟨tokens, next⟩ := s
    obtain rfl : tokens = t :: ts := hs
    rw [Input.components, dif_pos h.lt, h.token_head]
    simp only [Option.bind_eq_bind, Option.bind_some]
    rw [h.textAt, Option.bind_some, if_neg comment]
    split
    · rename_i curly
      obtain ⟨n, block, after⟩ := h.block opens
      have ahead : i < i + 1 + t.more ts ∧ i + 1 + t.more ts ≤ j := ⟨by omega, after.le⟩
      have opener : b.opener = t := Scope.enter_opener t _
      have raw : Located.raw ⟨b.tokens, n⟩ = node := by
        have start : Scope.start ⟨b.tokens, n⟩ = t.start := congrArg Token.start opener
        unfold node Grammar.blockNode
        rw [Located.raw, Scope.span, ← block_stop b n, start, Block.span, opener, curly]
        rfl
      have nothing : inner = ⟨[], []⟩ := if_pos curly
      rw [h.componentEnd, Option.bind_some, h.unclosed opens, Option.bind_some, advance_eq ahead]
      simp only [Option.bind_some]
      rw [block.raw, Option.bind_some, ihAfter after, Option.bind_some, raw, nothing]
      rfl
    · rename_i curly
      obtain ⟨e, found, content⟩ := h.innerEnd opens
      obtain ⟨k, left, lo, hi, after⟩ := h.leave opens content
      have read : inner = Grammar.components b.inner := if_neg curly
      rw [found, Option.bind_some, ih content, Option.bind_some, left]
      simp only [Option.bind_some]
      rw [advance_eq ⟨lo, hi⟩]
      simp only [Option.bind_some]
      have built : node = Grammar.blockNode b (tidy (Grammar.components b.inner).value) :=
        congrArg (fun children => Grammar.blockNode b (tidy children.value)) read
      rw [h.blockNode opens curly, Option.bind_some, ihAfter after, Option.bind_some, built, read]
  | case4 s t ts hs comment plain ih =>
    obtain ⟨tokens, next⟩ := s
    obtain rfl : tokens = t :: ts := hs
    rw [Bool.not_eq_true] at plain
    have tail := h.tail (h.matched.of_leaf plain)
    have curly : t.kind ≠ .leftCurly := by
      intro curly
      rw [curly] at plain
      cases plain
    rw [Input.components, dif_pos h.lt, h.token_head]
    simp only [Option.bind_eq_bind, Option.bind_some]
    rw [h.textAt, Option.bind_some, if_neg comment, if_neg curly, plain, if_neg Bool.false_ne_true,
      h.tokenNode, Option.bind_some, ih tail]
    rfl

theorem sequenceNode (kind : NodeKind) (h : x.Holds i j s) :
    x.sequenceNode kind i j = some (Grammar.sequenceNode kind s) := by
  rw [Input.sequenceNode, h.components]
  simp only [Option.bind_eq_bind, Option.bind_some]
  rw [h.span]
  rfl

/-- The cursor finds the media queries of the scope, each in its range. -/
theorem mediaQueries (h : x.Holds i j s) :
    x.mediaQueries i j = some (Grammar.mediaQueries s) := by
  fun_induction Grammar.mediaQueries s generalizing i j
  all_goals
    rename_i s cut part rest hp ih
    obtain ⟨e, comma, first, later⟩ := h.cut (· = .comma)
    obtain ⟨r, trimmed, held⟩ := first.trim
    have read : (if e.1 < j then x.mediaQueries (e.1 + 1) j else some ⟨[], []⟩) = some rest := by
      unfold rest
      cases found : cut.2.tokens with
      | nil =>
        have same := later.nil_iff.mpr found
        rw [if_neg (by omega)]
      | cons t ts =>
        have kind : t.kind = .comma := by simpa using Token.spanTop_head found
        have later : x.Holds e.1 j ⟨t :: ts, s.next⟩ := found ▸ later
        rw [if_pos later.lt]
        exact ih t ts found (later.tail (later.matched.of_leaf (by rw [kind]; rfl)))
    rw [Input.mediaQueries, comma]
    simp only [Option.bind_eq_bind, Option.bind_some]
    rw [trimmed]
    simp only [Option.bind_some]
    rw [read, Option.bind_some]
  · exact if_pos (held.eq_iff.mpr hp)
  · rw [if_neg (mt held.eq_iff.mp hp), held.sequenceNode]
    rfl

theorem mediaQueryList (h : x.Holds i j s) :
    x.mediaQueryList i j = some (Grammar.mediaQueryList s) := by
  rw [Input.mediaQueryList, h.mediaQueries]
  simp only [Option.bind_eq_bind, Option.bind_some]
  rw [h.span]
  rfl

theorem atRulePrelude (name : String) (h : x.Holds i j s) :
    x.atRulePrelude name i j = some (Grammar.atRulePrelude name s) := by
  rw [Input.atRulePrelude, h.mediaQueryList, h.sequenceNode, h.sequenceNode, h.span]
  dsimp only [Option.bind_eq_bind, Option.bind_some]
  split
  · rename_i media
    unfold Grammar.atRulePrelude
    rw [media]
    rfl
  · rename_i custom
    unfold Grammar.atRulePrelude
    rw [custom]
    rfl
  · rename_i supports
    unfold Grammar.atRulePrelude
    rw [supports]
    rfl
  · rename_i container
    unfold Grammar.atRulePrelude
    rw [container]
    rfl
  · rename_i media custom supports container
    unfold Grammar.atRulePrelude
    dsimp only
    split
    · exact (media (by assumption)).elim
    · exact (custom (by assumption)).elim
    · exact (supports (by assumption)).elim
    · exact (container (by assumption)).elim
    · rfl

end Holds

end Input

end Stylesheet
