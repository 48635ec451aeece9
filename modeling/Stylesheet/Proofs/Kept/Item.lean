import Stylesheet.Proofs.Matched
import Stylesheet.Proofs.Placement.Error
import Stylesheet.Proofs.Regular.Document

/-!
# What an item takes

An item takes tokens off the front of its scope, up to its end, and what it is read as spans them. It
leaves out nothing but white space and comments around its prelude and the semicolon behind it.
-/

namespace Stylesheet

/-- The tokens that separate the items of a block. -/
def Token.Kind.separatesItems (k : Token.Kind) : Bool := k.isTrivia || k = .semicolon

/-- The tokens that separate rules, at the top level of a style sheet or below it. -/
def Token.Kind.separatesRules (top : Bool) (k : Token.Kind) : Bool :=
  k.isTrivia || (top && (k = .cdo || k = .cdc))

namespace Token.Kind

variable {k : Kind}

theorem separatesItems_of_isTrivia (h : k.isTrivia = true) : k.separatesItems = true := by
  rw [separatesItems, h, Bool.true_or]

theorem separatesRules_of_isTrivia (top : Bool) (h : k.isTrivia = true) :
    k.separatesRules top = true := by
  rw [separatesRules, h, Bool.true_or]

theorem separatesItems_of_separatesRules (h : k.separatesRules false = true) :
    k.separatesItems = true := by
  rw [separatesRules, Bool.false_and, Bool.or_false] at h
  exact separatesItems_of_isTrivia h

theorem opensBlock_of_separatesItems (h : k.separatesItems = true) : k.opensBlock = false := by
  cases k <;> first | rfl | cases h

theorem opensBlock_of_separatesRules {top : Bool} (h : k.separatesRules top = true) :
    k.opensBlock = false := by
  rw [separatesRules, Bool.or_eq_true, Bool.and_eq_true, Bool.or_eq_true] at h
  obtain h | ⟨-, h | h⟩ := h
  · exact opensBlock_of_isTrivia h
  · rw [of_decide_eq_true h]
    rfl
  · rw [of_decide_eq_true h]
    rfl

end Token.Kind

namespace Grammar

open Located Scope Node

variable {source : String} {whole s : Scope} {f skips : Token.Kind → Bool} {t d : Token} {b : Block}
variable {n : Located} {ns : List Located} {items : Parsed (List Located)}

/-! ### What an item takes -/

/-- The block that ends an item, in a scope with matched tokens. -/
structure BlockEnds (item : Item) (b : Block) (s : Scope) : Prop where
  tokens : s.tokens = item.prelude.tokens ++ (b.tokens ++ item.after.tokens)
  opens : b.opener.kind = .leftCurly
  closed : ∀ c, b.closer = some c →
    b.opener.inside = some b.inner.tokens.length ∧ c.kind = .rightCurly
  unclosed : b.closer = none → b.opener.inside = none
  inner : Token.Matched b.inner.tokens
  after : Token.Matched item.after.tokens

theorem item_block_opener (hb : (Item.take f s).ending = .block b) :
    b.opener.kind = .leftCurly ∧ f b.opener.kind = true := by
  obtain ⟨d, ds, opens, -, rfl, -⟩ := Item.exists_block hb
  rw [enter_opener]
  exact opens

theorem item_blockEnds (h : Token.Matched s.tokens) (hb : (Item.take f s).ending = .block b) :
    BlockEnds (Item.take f s) b s := by
  obtain ⟨d, ds, ⟨opens, -⟩, hc, rfl, ht⟩ := Item.exists_block hb
  rw [ht]
  have split := Token.spanTop_append f s.tokens
  have found : (Token.spanTop f s.tokens).2 = d :: ds := congrArg Scope.tokens hc
  have rest : Token.Matched (d :: ds) := found ▸ h.spanTop.2
  have brackets : d.kind.opensBlock = true := by rw [opens]; rfl
  obtain ⟨inner, after⟩ := matched_enter (s := ⟨ds, s.next⟩) brackets rest
  obtain ⟨same, closer⟩ := enter_closer_of_matched (s := ⟨ds, s.next⟩) brackets rest
  refine ⟨?_, by rw [enter_opener]; exact opens, ?_, ?_, inner, after⟩
  · rw [← split, found]
    refine congrArg (_ ++ ·) ?_
    rw [Block.tokens, enter_opener]
    cases hcl : (enter d ⟨ds, s.next⟩).closer with
    | none =>
      obtain ⟨hi, ha⟩ := enter_unclosed d ⟨ds, s.next⟩ hcl
      simp [hi, ha]
    | some c =>
      obtain ⟨tokens, -, -⟩ := enter_closer d ⟨ds, s.next⟩ hcl
      simpa using tokens
  · intro c hcl
    rw [enter_opener]
    obtain ⟨inside, kind⟩ := closer c hcl
    rw [opens] at kind
    exact ⟨inside, (Option.some.inj kind).symm⟩
  · intro hcl
    rw [hcl] at same
    rw [enter_opener]
    exact Option.isNone_iff_eq_none.mp (by rw [← Option.not_isSome, same]; rfl)

/-- Only semicolons and curly brackets end items. -/
def EndsItems (f : Token.Kind → Bool) : Prop :=
  ∀ k, f k = true → k = .leftCurly ∨ k = .semicolon

theorem endsItems_endsPrelude : EndsItems endsPrelude := by
  intro k h
  simpa [endsPrelude] using h

theorem endsItems_leftCurly : EndsItems (· = .leftCurly) :=
  fun _ h => .inl (of_decide_eq_true h)

theorem endsItems_semicolon : EndsItems (· = .semicolon) :=
  fun _ h => .inr (of_decide_eq_true h)

theorem item_semicolon (hf : EndsItems f) (hd : (Item.take f s).ending = .semicolon d) :
    s.tokens = (Item.take f s).prelude.tokens ++ d :: (Item.take f s).after.tokens ∧
      (s.cut f).2.tokens = d :: (Item.take f s).after.tokens ∧ d.kind = .semicolon := by
  have split := Token.spanTop_append f s.tokens
  unfold Item.take at hd ⊢
  dsimp only at hd ⊢
  split at hd
  · cases hd
  · rename_i found
    split at hd
    · cases hd
    · rename_i hk
      cases hd
      rw [if_neg hk]
      refine ⟨?_, found, (hf _ (Token.spanTop_head found)).resolve_left hk⟩
      rw [← split]
      exact congrArg (_ ++ ·) found

theorem item_missing (hm : (Item.take f s).ending = .missing) :
    s.tokens = (Item.take f s).prelude.tokens ∧ (Item.take f s).after.tokens = [] := by
  have split := Token.spanTop_append f s.tokens
  unfold Item.take at hm ⊢
  dsimp only at hm ⊢
  split at hm
  · rename_i found
    refine ⟨?_, found⟩
    rw [← split]
    exact (congrArg (_ ++ ·) found).trans (List.append_nil _)
  · split at hm <;> cases hm

theorem item_after_matched (hf : EndsItems f) (h : Token.Matched s.tokens) :
    Token.Matched (Item.take f s).after.tokens := by
  cases he : (Item.take f s).ending with
  | block b => exact (item_blockEnds h he).after
  | semicolon d =>
    obtain ⟨-, found, kind⟩ := item_semicolon hf he
    have rest : Token.Matched (s.cut f).2.tokens := (matched_cut h).2
    rw [found] at rest
    exact rest.of_leaf (by rw [kind]; rfl)
  | missing =>
    rw [(item_missing he).2]
    exact .nil

/-! ### Where the tokens of an item lie -/

/-- Tokens that stand before others stop by where those start. -/
theorem stop_le_start {front back : List Token} {u v : Token} (h : s.LiesIn source)
    (split : s.tokens = front ++ back) (hu : u ∈ front) (hv : v ∈ back) : u.stop ≤ v.start := by
  rw [LiesIn, split] at h
  obtain ⟨m, left, right⟩ := Token.Run.append_iff.mp h
  exact Nat.le_trans u.stop_le_reach (Nat.le_trans (left.mem hu).2.1 (right.mem hv).1)

/-- A block stops where its last token does. -/
theorem block_stop (b : Block) (next : Nat) : b.stop = Scope.stop ⟨b.tokens, next⟩ := by
  rw [Block.stop, Block.tokens]
  cases b.closer with
  | none => simp [Scope.stop, List.getLast?_cons]
  | some c => simp [Scope.stop, List.getLast?_cons, List.getLast?_append]

/-- The tokens of a block stop by its end. -/
theorem stop_le_block_stop (h : s.LiesIn source) (stands : b.tokens <:+: s.tokens) :
    ∀ u ∈ b.tokens, u.stop ≤ b.stop := by
  obtain ⟨front, back, split⟩ := stands
  rw [LiesIn, ← split] at h
  obtain ⟨next, left, -⟩ := Token.Run.append_iff.mp h
  obtain ⟨_, -, run⟩ := Token.Run.append_iff.mp left
  have lies : LiesIn source ⟨b.tokens, next⟩ := by
    rw [LiesIn, Scope.start, run.startOf_eq]
    exact run
  rw [block_stop b next]
  exact lies.endsBy_stop

/-- Trimming leaves out white space and comments. -/
theorem mem_trim {u : Token} (hu : u ∈ s.tokens) :
    u.kind.isTrivia = true ∨ u ∈ s.trim.tokens := by
  obtain ⟨back, tokens, -, trivia⟩ := trim_split s
  rw [tokens, List.mem_append, List.mem_append] at hu
  obtain hu | hu | hu := hu
  · exact .inl (List.mem_takeWhile_imp (p := fun t : Token => t.kind.isTrivia) hu)
  · exact .inr hu
  · exact .inl (trivia u hu)

/-- Every token of `s` is skipped, lies inside the span of `n`, or is left for later. -/
def Takes (skips : Token.Kind → Bool) (s : Scope) (n : Located) (after : Scope) : Prop :=
  ∀ u ∈ s.tokens, skips u.kind = true ∨ (n.note.start ≤ u.start ∧ u.stop ≤ n.note.stop) ∨
    u ∈ after.tokens

/-- What spans a scope up to the end of some of its tokens takes them and all in front of them. -/
theorem takes_upto {front own : List Token} {after : Scope} {stop : Nat} {o : Token}
    (h : s.LiesIn source) (tokens : s.tokens = front ++ (own ++ after.tokens)) (first : o ∈ own)
    (stops : ∀ u ∈ own, u.stop ≤ stop) (note : n.note = ⟨s.start, stop⟩) :
    Takes skips s n after := by
  intro u hu
  have start := h.start_le hu
  rw [note]
  rw [tokens, List.mem_append, List.mem_append] at hu
  obtain hu | hu | hu := hu
  · have before := stop_le_start h tokens hu (List.mem_append_left _ first)
    have := stops o first
    have := o.start_le_stop
    exact .inr (.inl ⟨start, by dsimp only; omega⟩)
  · exact .inr (.inl ⟨start, stops u hu⟩)
  · exact .inr (.inr hu)

/-- What spans a scope up to the end of a block takes the block and all in front of it. -/
theorem takes_upto_block {front : List Token} {after : Scope} (h : s.LiesIn source)
    (tokens : s.tokens = front ++ (b.tokens ++ after.tokens)) (note : n.note = ⟨s.start, b.stop⟩) :
    Takes skips s n after :=
  takes_upto (o := b.opener) h tokens List.mem_cons_self
    (stop_le_block_stop h ⟨front, after.tokens, (List.append_assoc ..).trans tokens.symm⟩) note

/-- A rule takes its prelude and its block. -/
theorem takes_block (h : s.LiesIn source) (matched : Token.Matched s.tokens)
    (hb : (Item.take f s).ending = .block b) (note : n.note = ⟨s.start, b.stop⟩) :
    Takes skips s n (Item.take f s).after :=
  takes_upto_block h (item_blockEnds matched hb).tokens note

/-- What spans the trimmed prelude of an item takes all of it but separators. -/
theorem takes_trimmed (h : s.LiesIn source) (hf : EndsItems f)
    (hno : ∀ b, (Item.take f s).ending ≠ .block b)
    (note : n.note = (Item.take f s).prelude.trim.span) :
    Takes Token.Kind.separatesItems s n (Item.take f s).after := by
  have part := (trim_isPart _).trans (item_prelude_isPart f s)
  have lies := part.liesIn h
  have prelude {u : Token} (hu : u ∈ (Item.take f s).prelude.tokens) :
      u.kind.separatesItems = true ∨ n.note.start ≤ u.start ∧ u.stop ≤ n.note.stop := by
    obtain trivia | hu := mem_trim hu
    · exact .inl (Token.Kind.separatesItems_of_isTrivia trivia)
    · rw [note]
      exact .inr ⟨lies.start_le hu, lies.endsBy_stop u hu⟩
  intro u hu
  cases he : (Item.take f s).ending with
  | block b => exact absurd he (hno b)
  | semicolon d =>
    obtain ⟨tokens, -, kind⟩ := item_semicolon hf he
    rw [tokens, List.mem_append, List.mem_cons] at hu
    obtain hu | rfl | hu := hu
    · exact (prelude hu).imp_right .inl
    · exact .inl (by rw [kind]; rfl)
    · exact .inr (.inr hu)
  | missing =>
    rw [(item_missing he).1] at hu
    exact (prelude hu).imp_right .inl

/-- An at-rule takes its keyword and all tokens up to its end, but for white space and comments. -/
theorem takes_atRule (rest : Scope) {block : Parsed Located}
    (h : LiesIn source ⟨t :: rest.tokens, rest.next⟩) (matched : Token.Matched rest.tokens)
    (trivia : ∀ k : Token.Kind, k.isTrivia = true → skips k = true) :
    Takes skips ⟨t :: rest.tokens, rest.next⟩
      (atRuleOf t rest (Item.take endsPrelude rest) block).value
      (Item.take endsPrelude rest).after := by
  cases he : (Item.take endsPrelude rest).ending with
  | block b =>
    have split : t :: rest.tokens =
        (t :: (Item.take endsPrelude rest).prelude.tokens) ++
          (b.tokens ++ (Item.take endsPrelude rest).after.tokens) :=
      congrArg (t :: ·) (item_blockEnds matched he).tokens
    exact takes_upto_block h split (by rw [atRuleOf, he]; rfl)
  | semicolon d =>
    have split : t :: rest.tokens =
        (t :: (Item.take endsPrelude rest).prelude.tokens) ++
          ([d] ++ (Item.take endsPrelude rest).after.tokens) :=
      congrArg (t :: ·) (item_semicolon endsItems_endsPrelude he).1
    exact takes_upto h split (List.mem_singleton_self d)
      (List.forall_mem_singleton.mpr (Nat.le_refl _)) (by rw [atRuleOf, he]; rfl)
  | missing =>
    obtain ⟨tokens, -⟩ := item_missing he
    have tail : IsPart rest ⟨t :: rest.tokens, rest.next⟩ := isPart_tail
    intro u hu
    have start : t.start ≤ u.start := h.start_le hu
    have note : (atRuleOf t rest (Item.take endsPrelude rest) block).value.note =
        ⟨t.start, openStop t rest (Item.take endsPrelude rest).prelude⟩ := by
      rw [atRuleOf, he]
      rfl
    rw [note, openStop]
    split
    · exact .inr (.inl ⟨start, h.endsBy_stop u hu⟩)
    · rename_i hne
      have part := (trim_isPart _).trans ((item_prelude_isPart endsPrelude rest).trans tail)
      have ends := (part.liesIn h).endsBy_stop
      obtain rfl | hu := List.mem_cons.mp hu
      · obtain ⟨v, hv⟩ := List.exists_mem_of_ne_nil
          (Item.take endsPrelude rest).prelude.trim.tokens (by simpa using hne)
        have found := ((trim_isPart _).trans (item_prelude_isPart endsPrelude rest)).subset hv
        have before := stop_le_start h (show _ = [u] ++ rest.tokens from rfl)
          (List.mem_singleton_self u) found
        have := ends v hv
        have := v.start_le_stop
        exact .inr (.inl ⟨start, by dsimp only; omega⟩)
      · rw [tokens] at hu
        obtain white | hu := mem_trim hu
        · exact .inl (trivia _ white)
        · exact .inr (.inl ⟨start, ends u hu⟩)

end Grammar

end Stylesheet
