import Stylesheet.Proofs.Shift.Selector
import Stylesheet.Proofs.Shift.Value

/-!
# Shifted rules

Items are cut out of a shifted scope as they are cut out of the scope, and what each of them is read
as is shifted with it. So the rules of a shifted scope are those of the scope, shifted:
`ruleList_shift`.
-/

namespace Stylesheet.Grammar

open Located

variable {k limit limit' : Nat} {t : Token} {s rest : Scope}

@[simp] theorem orRaw_shift (r : SelectorResult Located) :
    orRaw (s.shift k) (moved k (Located.shift k) r) = (orRaw s r).shift k := by
  cases r with
  | ok n => rfl
  | error e =>
    rw [moved, orRaw, raw_shift]
    rfl

/-- Preludes are read alike wherever they stand. -/
theorem rulePrelude_shift {keyframes : Bool} (suits : Suits k limit limit' s.tokens) :
    rulePrelude keyframes limit' (s.shift k) = (rulePrelude keyframes limit s).shift k := by
  have trimmed : Suits k limit limit' s.trim.tokens := suits.imp_right Scope.closed_trim
  rw [rulePrelude, rulePrelude, Scope.trim_shift, Scope.tokens_shift, List.isEmpty_map]
  split
  · rw [raw_shift, Scope.next_shift]
    rfl
  · split
    · rw [raw_shift]
      rfl
    · rw [selectorList_shift trimmed, orRaw_shift]

@[simp] theorem withBlock_shift (b : Block) (items : Parsed (List Located)) :
    withBlock (b.shift k) (items.shiftAll k) = (withBlock b items).shift k := by
  simp [withBlock, Parsed.shift]

@[simp] theorem styleRule_shift (start : Nat) (prelude block : Parsed Located) :
    styleRule (start + k) (prelude.shift k) (block.shift k) =
      (styleRule start prelude block).shift k := by
  simp [styleRule, Parsed.shift, Span.shift]

/-- The end of an item, `k` bytes further on. -/
def Ending.shift (k : Nat) : Ending → Ending
  | .block b => .block (b.shift k)
  | .semicolon t => .semicolon (t.shift k)
  | .missing => .missing

/-- The item, `k` bytes further on. -/
def Item.shift (k : Nat) (item : Item) : Item :=
  ⟨item.prelude.shift k, item.ending.shift k, item.after.shift k⟩

@[simp] theorem Item.prelude_shift (item : Item) :
    (item.shift k).prelude = item.prelude.shift k := rfl

@[simp] theorem Item.after_shift (item : Item) : (item.shift k).after = item.after.shift k := rfl

/-- Items are cut out alike wherever they stand. -/
@[simp] theorem Item.take_shift {stop : Token.Kind → Bool} :
    Item.take stop (s.shift k) = (Item.take stop s).shift k := by
  rw [Item.take, Item.take, Scope.cut_shift]
  dsimp only
  rw [Scope.tokens_shift]
  cases (s.cut stop).2.tokens with
  | nil => rfl
  | cons d ds =>
    simp only [List.map_cons]
    by_cases curly : d.kind = .leftCurly
    · rw [if_pos (by exact curly), if_pos curly, Scope.next_shift, Scope.enter_shift_mk]
      rfl
    · rw [if_neg (by exact curly), if_neg curly]
      rfl

@[simp] theorem atRuleName_shift : atRuleName (t.shift k) = atRuleName t := rfl

@[simp] theorem preludeNodes_shift (name : String) (s : Scope) :
    preludeNodes name (s.shift k) = (preludeNodes name s).shiftAll k := by
  rw [preludeNodes, preludeNodes, Scope.tokens_shift, List.isEmpty_map, atRulePrelude_shift]
  split <;> rfl

@[simp] theorem openStop_shift (prelude : Scope) :
    openStop (t.shift k) (rest.shift k) (prelude.shift k) = openStop t rest prelude + k := by
  have last : Scope.stop ⟨t.shift k :: (rest.shift k).tokens, (rest.shift k).next⟩ =
      Scope.stop ⟨t :: rest.tokens, rest.next⟩ + k :=
    Scope.stop_shift (s := ⟨t :: rest.tokens, rest.next⟩)
  rw [openStop, openStop, Scope.trim_shift, Scope.tokens_shift, List.isEmpty_map, last,
    Scope.stop_shift]
  split <;> rfl

@[simp] theorem atRuleOf_shift (item : Item) (block : Parsed Located) :
    atRuleOf (t.shift k) (rest.shift k) (item.shift k) (block.shift k) =
      (atRuleOf t rest item block).shift k := by
  obtain ⟨prelude, ending, after⟩ := item
  cases ending with
  | block b =>
    rw [Item.shift, Ending.shift, atRuleOf_block, atRuleOf_block]
    simp [Parsed.shift, Span.shift]
  | semicolon d =>
    rw [Item.shift, Ending.shift, atRuleOf_semicolon, atRuleOf_semicolon]
    simp [Parsed.shift, Span.shift]
  | missing =>
    rw [Item.shift, Ending.shift, atRuleOf_missing, atRuleOf_missing]
    simp [Parsed.shift, Span.shift, SyntaxError.shift]

theorem ending_block_shift {stop : Token.Kind → Bool} {b : Block}
    (h : (Item.take stop s).ending = .block b) :
    (Item.take stop (s.shift k)).ending = .block (b.shift k) := by
  rw [Item.take_shift, Item.shift, h]
  rfl

theorem ending_ne_block_shift {stop : Token.Kind → Bool}
    (h : ∀ b, (Item.take stop s).ending ≠ .block b) (b : Block) :
    (Item.take stop (s.shift k)).ending ≠ .block b := by
  rw [Item.take_shift, Item.shift]
  cases he : (Item.take stop s).ending with
  | block b => exact absurd he (h b)
  | semicolon d => rintro ⟨⟩
  | missing => rintro ⟨⟩

@[simp] theorem looseItem_shift : looseItem (t.shift k) (s.shift k) = (looseItem t s).shift k := by
  by_cases ident : t.kind = .ident
  · rw [looseItem, looseItem, if_pos (by exact ident), if_pos ident, declaration_shift]
  · rw [looseItem, looseItem, if_neg (by exact ident), if_neg ident, Scope.trim_shift, raw_shift]
    rfl

theorem startsDeclaration_shift_mk (t : Token) (ts : List Token) (next : Nat) :
    startsDeclaration (t.shift k) ⟨ts.map (Token.shift k), next + k⟩ =
      startsDeclaration t ⟨ts, next⟩ := by
  rw [← Scope.shift_mk, startsDeclaration_shift]

/-- At-rules are read alike wherever they stand. -/
def AtRuleShifts (k : Nat) (nested : Bool) (t : Token) (rest : Scope) : Prop :=
  atRule nested (t.shift k) (rest.shift k) = (atRule nested t rest).shift k

/-- Items are read alike wherever they stand. -/
def ItemsShift (k : Nat) (read : Scope → Parsed (List Located)) (s : Scope) : Prop :=
  read (s.shift k) = (read s).shiftAll k

/-- A style rule cut out of a scope is read alike wherever the scope stands. -/
theorem styleRule_take_shift {keyframes : Bool} {stop : Token.Kind → Bool} {b : Block}
    (items : ItemsShift k (blockItems true) b.inner) :
    styleRule (t.start + k)
        (rulePrelude keyframes (s.shift k).stop (Item.take stop (s.shift k)).prelude)
        (withBlock (b.shift k) (blockItems true (b.shift k).inner)) =
      (styleRule t.start (rulePrelude keyframes s.stop (Item.take stop s).prelude)
        (withBlock b (blockItems true b.inner))).shift k := by
  rw [← styleRule_shift, ← withBlock_shift, Item.take_shift, Item.prelude_shift,
    rulePrelude_shift (.inl Scope.stop_shift), Block.inner_shift, items]

theorem items_shift_all : (∀ nested t rest, AtRuleShifts k nested t rest) ∧
    (∀ top keyframes nested s, ItemsShift k (ruleList top keyframes nested) s) ∧
      ∀ nested s, ItemsShift k (blockItems nested) s := by
  refine items_induction ?atRule ?rulesEnd ?rulesSkip ?rulesAtRule ?rulesRule ?rulesRest ?itemsEnd
    ?itemsSkip ?itemsAtRule ?itemsDeclaration ?itemsRule ?itemsLoose
  case atRule =>
    intro nested t rest items
    by_cases blocked : ∃ b, (Item.take endsPrelude rest).ending = .block b
    · obtain ⟨b, he⟩ := blocked
      obtain ⟨ofItems, ofRules⟩ := items b he
      rw [AtRuleShifts, atRule_block (ending_block_shift he), atRule_block he, ← atRuleOf_shift,
        Item.take_shift, ← withBlock_shift, atRuleName_shift, Block.inner_shift]
      split
      · rw [ofItems]
      · rw [ofRules]
    · have unblocked := not_exists.mp blocked
      rw [AtRuleShifts, atRule_unblocked (ending_ne_block_shift unblocked),
        atRule_unblocked unblocked, ← atRuleOf_shift, Item.take_shift, Item.shift, raw_shift]
      rfl
  case rulesEnd =>
    intro top keyframes nested next
    rw [ItemsShift, Scope.shift_mk, List.map_nil, ruleList_nil, ruleList_nil]
    rfl
  case rulesSkip =>
    intro top keyframes nested t ts next hk ih
    rw [ItemsShift, Scope.shift_cons, ruleList_skip (by exact hk), ruleList_skip hk]
    exact ih
  case rulesAtRule =>
    intro top keyframes nested t ts next hk ha hat ih
    rw [ItemsShift, Scope.shift_cons, ruleList_atRule (by exact hk) (by exact ha),
      ruleList_atRule hk ha, Parsed.shiftAll_cons, ← hat, ← ih, ← Item.after_shift,
      ← Item.take_shift]
    rfl
  case rulesRule =>
    intro top keyframes nested t ts next b hk ha hb items ih
    rw [ItemsShift, Scope.shift_cons,
      ruleList_rule (by exact hk) (by exact ha) (ending_block_shift hb), ruleList_rule hk ha hb,
      Parsed.shiftAll_cons, ← styleRule_take_shift items, ← ih, ← Item.after_shift,
      ← Item.take_shift]
    rfl
  case rulesRest =>
    intro top keyframes nested t ts next hk ha hno
    have last : Scope.stop ⟨t.shift k :: ts.map (Token.shift k), next + k⟩ = _ :=
      Scope.stop_shift (s := ⟨t :: ts, next⟩)
    rw [ItemsShift, Scope.shift_cons,
      ruleList_rest (by exact hk) (by exact ha) (ending_ne_block_shift hno),
      ruleList_rest hk ha hno, ← Scope.shift_cons, Scope.trim_shift, raw_shift, Scope.stop_shift]
    rfl
  case itemsEnd =>
    intro nested next
    rw [ItemsShift, Scope.shift_mk, List.map_nil, blockItems_nil, blockItems_nil]
    rfl
  case itemsSkip =>
    intro nested t ts next hk ih
    rw [ItemsShift, Scope.shift_cons, blockItems_skip (by exact hk), blockItems_skip hk]
    exact ih
  case itemsAtRule =>
    intro nested t ts next hk ha hat ih
    rw [ItemsShift, Scope.shift_cons, blockItems_atRule (by exact hk) (by exact ha),
      blockItems_atRule hk ha, Parsed.shiftAll_cons, ← hat, ← ih, ← Item.after_shift,
      ← Item.take_shift]
    rfl
  case itemsDeclaration =>
    intro nested t ts next hk ha hd ih
    rw [ItemsShift, Scope.shift_cons, blockItems_declaration (by exact hk) (by exact ha)
      (by rw [startsDeclaration_shift_mk]; exact hd), blockItems_declaration hk ha hd,
      Parsed.shiftAll_cons, ← declaration_shift, ← ih, ← Item.after_shift, ← Item.prelude_shift,
      ← Item.take_shift]
    rfl
  case itemsRule =>
    intro nested t ts next b hk ha hd hb items ih
    rw [ItemsShift, Scope.shift_cons, blockItems_rule (by exact hk) (by exact ha)
      (by rw [startsDeclaration_shift_mk]; exact hd) (ending_block_shift hb),
      blockItems_rule hk ha hd hb, Parsed.shiftAll_cons, ← styleRule_take_shift items,
      ← ih, ← Item.after_shift, ← Item.take_shift]
    rfl
  case itemsLoose =>
    intro nested t ts next hk ha hd hno ih
    rw [ItemsShift, Scope.shift_cons, blockItems_loose (by exact hk) (by exact ha)
      (by rw [startsDeclaration_shift_mk]; exact hd) (ending_ne_block_shift hno),
      blockItems_loose hk ha hd hno, Parsed.shiftAll_cons, ← looseItem_shift, ← ih,
      ← Item.after_shift, ← Item.prelude_shift, ← Item.take_shift]
    rfl

/-- The rules of a shifted scope are those of the scope, shifted. -/
theorem ruleList_shift (top keyframes nested : Bool) (s : Scope) :
    ruleList top keyframes nested (s.shift k) = (ruleList top keyframes nested s).shiftAll k :=
  items_shift_all.2.1 top keyframes nested s

end Stylesheet.Grammar
