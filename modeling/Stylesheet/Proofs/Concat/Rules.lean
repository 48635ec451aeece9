import Stylesheet.Proofs.Placement.Error
import Stylesheet.Proofs.Shift.Rule

/-!
# Rules of a scope in two parts

Where the first tokens of a scope are closed and end with a block in curly brackets, no item
reaches beyond them: every item ends with a semicolon or a block, and what is read in it never looks
further. So the rules of the scope are those of its first tokens followed by those of the rest.
-/

namespace Stylesheet

namespace Token

/-- Closed tokens that end, if there are any, with a block in curly brackets. -/
inductive BlockLast : List Token → Prop
  | nil : BlockLast []
  | leaf {t : Token} {ts : List Token} (plain : t.kind.opensBlock = false) (more : ts ≠ [])
    (rest : BlockLast ts) : BlockLast (t :: ts)
  | block {opener closer : Token} {inner ts : List Token}
    (paired : opener.kind.closing = some closer.kind) (inside : opener.inside = some inner.length)
    (content : Closed inner) (last : ts = [] → opener.kind = .leftCurly) (rest : BlockLast ts) :
    BlockLast (opener :: (inner ++ closer :: ts))

section

variable {ts us before after inner : List Token} {t closer : Token}

/-- Two ways to look at a list around different members. -/
theorem append_cons_cases (h : inner ++ closer :: ts = before ++ t :: after) (ne : closer ≠ t) :
    (∃ mid, inner = before ++ t :: mid ∧ after = mid ++ closer :: ts) ∨
      ∃ mid, before = inner ++ closer :: mid ∧ ts = mid ++ t :: after := by
  obtain ⟨mid, hb, hc⟩ | ⟨mid, hi, ht⟩ := List.append_eq_append_iff.mp h
  · cases mid with
    | nil => exact absurd (List.head_eq_of_cons_eq hc) ne
    | cons c mid =>
      obtain ⟨rfl, rfl⟩ := List.cons.inj hc
      exact .inr ⟨mid, hb, rfl⟩
  · cases mid with
    | nil => exact absurd (List.head_eq_of_cons_eq ht).symm ne
    | cons c mid =>
      obtain ⟨rfl, rfl⟩ := List.cons.inj ht
      exact .inl ⟨mid, hi, rfl⟩

theorem Kind.ne_of_closing {opener : Token} (h : opener.kind.closing = some closer.kind)
    (opens : t.kind.opensBlock = true) : closer ≠ t := by
  rintro rfl
  rw [Kind.closing_ne_opensBlock h] at opens
  cases opens

/-- A block of closed tokens ends before they do. -/
theorem Closed.inside_lt {n : Nat} (h : Closed (before ++ t :: after))
    (opens : t.kind.opensBlock = true) (inside : t.inside = some n) : n < after.length := by
  generalize he : before ++ t :: after = us at h
  induction h generalizing before after with
  | nil => exact absurd he (List.append_ne_nil_of_right_ne_nil before (List.cons_ne_nil t after))
  | @leaf u us plain _ ih =>
    cases before with
    | nil =>
      obtain ⟨rfl, -⟩ := List.cons.inj he
      rw [opens] at plain
      cases plain
    | cons b before => exact ih (List.tail_eq_of_cons_eq he)
  | @block opener closer inner us paired inside' _ _ ihInner ih =>
    cases before with
    | nil =>
      obtain ⟨rfl, rfl⟩ := List.cons.inj he
      obtain rfl : n = inner.length := Option.some.inj (inside.symm.trans inside')
      rw [List.length_append, List.length_cons]
      omega
    | cons b before =>
      obtain ⟨mid, hi, ha⟩ | ⟨mid, -, hu⟩ := append_cons_cases (List.tail_eq_of_cons_eq he).symm
        (Kind.ne_of_closing paired opens)
      · have := ihInner hi.symm
        rw [ha, List.length_append]
        omega
      · exact ih hu.symm

namespace BlockLast

/-- Closed tokens whose last one closes a curly bracket. -/
theorem of_closed (h : Closed (before ++ t :: (inner ++ [closer]))) (curly : t.kind = .leftCurly)
    (inside : t.inside = some inner.length) : BlockLast (before ++ t :: (inner ++ [closer])) := by
  have opens : t.kind.opensBlock = true := by rw [curly]; rfl
  generalize he : before ++ t :: (inner ++ [closer]) = us at h
  induction h generalizing before with
  | nil => exact absurd he (List.append_ne_nil_of_right_ne_nil before (List.cons_ne_nil t _))
  | @leaf u us plain _ ih =>
    cases before with
    | nil =>
      obtain ⟨rfl, -⟩ := List.cons.inj he
      rw [opens] at plain
      cases plain
    | cons b before =>
      obtain ⟨rfl, rfl⟩ := List.cons.inj he
      exact .leaf plain (List.append_ne_nil_of_right_ne_nil before (List.cons_ne_nil t _)) (ih rfl)
  | @block opener closer' inner' us paired inside' content _ _ ih =>
    cases before with
    | nil =>
      obtain ⟨rfl, tail⟩ := List.cons.inj he
      have same : inner.length = inner'.length := Option.some.inj (inside.symm.trans inside')
      obtain ⟨rfl, last⟩ := List.append_inj tail same
      obtain ⟨rfl, rfl⟩ := List.cons.inj last
      exact .block paired inside' content (fun _ => curly) .nil
    | cons b before =>
      obtain rfl : b = opener := List.head_eq_of_cons_eq he
      obtain ⟨mid, hi, ha⟩ | ⟨mid, hb, hu⟩ := append_cons_cases (List.tail_eq_of_cons_eq he).symm
        (Kind.ne_of_closing paired opens)
      · -- The bracket would have to be closed within the other block.
        have short := Closed.inside_lt (hi ▸ content) opens inside
        have long := congrArg List.length ha
        rw [List.length_append, List.length_append, List.length_singleton, List.length_cons] at long
        omega
      · refine .block paired inside' content ?_ (hu ▸ ih hu.symm)
        rintro rfl
        exact absurd hu.symm (List.append_ne_nil_of_right_ne_nil mid (List.cons_ne_nil t _))

theorem of_leaf (h : BlockLast (t :: ts)) (plain : t.kind.opensBlock = false) :
    BlockLast ts ∧ ts ≠ [] := by
  cases h with
  | leaf _ more rest => exact ⟨rest, more⟩
  | block paired _ _ _ _ =>
    rw [Kind.opensBlock_of_closing paired] at plain
    cases plain

theorem of_opener (h : BlockLast (t :: ts)) (opens : t.kind.opensBlock = true) :
    ∃ inner closer rest, ts = inner ++ closer :: rest ∧ t.kind.closing = some closer.kind ∧
      t.inside = some inner.length ∧ Closed inner ∧ BlockLast rest := by
  cases h with
  | leaf plain _ _ =>
    rw [opens] at plain
    cases plain
  | block paired inside content _ rest => exact ⟨_, _, _, rfl, paired, inside, content, rest⟩

/-- The last token closes a curly bracket. -/
theorem getLast_kind (h : BlockLast ts) (ne : ts ≠ []) :
    ∃ t, ts.getLast? = some t ∧ t.kind = .rightCurly := by
  induction h with
  | nil => exact absurd rfl ne
  | @leaf t ts _ more _ ih =>
    obtain ⟨last, found, curly⟩ := ih more
    exact ⟨last, by rw [List.getLast?_cons, found]; rfl, curly⟩
  | @block opener closer inner ts paired _ _ last _ ih =>
    cases ts with
    | nil =>
      rw [last rfl] at paired
      refine ⟨closer, ?_, (Option.some.inj paired).symm⟩
      rw [List.getLast?_cons, List.getLast?_concat]
      rfl
    | cons u us =>
      obtain ⟨last, found, curly⟩ := ih (List.cons_ne_nil u us)
      refine ⟨last, ?_, curly⟩
      rw [List.getLast?_cons, List.getLast?_append, List.getLast?_cons_cons, found]
      rfl

/-- A search at the top level that stops at curly brackets finds something among the tokens, cuts
off closed ones, and does not look at what follows. -/
theorem spanTop {stop : Kind → Bool} (h : BlockLast ts) (ne : ts ≠ []) (curly : stop .leftCurly) :
    ∃ before d ds, (∀ us, spanTop stop (ts ++ us) = (before, d :: (ds ++ us))) ∧ Closed before ∧
      BlockLast (d :: ds) ∧ stop d.kind = true := by
  induction h with
  | nil => exact absurd rfl ne
  | @leaf t ts plain more rest ih =>
    cases found : stop t.kind with
    | true => exact ⟨[], t, ts, fun us => spanTop_found found, .nil, .leaf plain more rest, found⟩
    | false =>
      obtain ⟨before, d, ds, search, closed, last, hd⟩ := ih more
      refine ⟨t :: before, d, ds, fun us => ?_, .leaf plain closed, last, hd⟩
      rw [List.cons_append, spanTop_plain found plain, search]
  | @block opener closer inner ts paired inside content last rest ih =>
    cases found : stop opener.kind with
    | true =>
      exact ⟨[], opener, _, fun us => spanTop_found found, .nil,
        .block paired inside content last rest, found⟩
    | false =>
      have more : ts ≠ [] := by
        intro nothing
        rw [last nothing, curly] at found
        cases found
      obtain ⟨before, d, ds, search, closed, last, hd⟩ := ih more
      refine ⟨opener :: (inner ++ closer :: before), d, ds, fun us => ?_,
        .block paired inside content closed, last, hd⟩
      rw [List.cons_append, List.append_assoc, List.cons_append,
        spanTop_block found (Kind.opensBlock_of_closing paired) inside, search]

end BlockLast

end

end Token

/-- Two lists, one behind the other, with the errors of both. -/
def Parsed.append {α : Type} (p q : Parsed (List α)) : Parsed (List α) :=
  ⟨p.value ++ q.value, p.errors ++ q.errors⟩

theorem Parsed.cons_append {α : Type} (p : Parsed α) (q r : Parsed (List α)) :
    (p.cons q).append r = p.cons (q.append r) := by
  simp [append, cons]

namespace Grammar

open Located Token

variable {stop : Kind → Bool} {ts rest : List Token} {t : Token} {item : Item} {after : Scope}
variable {nested keyframes : Bool}

namespace Item

/-- The same item, with something else behind it. -/
def leaving (item : Item) (after : Scope) : Item :=
  ⟨item.prelude,
    match item.ending with
    | .block b => .block { b with after := after }
    | ending => ending,
    after⟩

theorem leaving_block {b : Block} (h : item.ending = .block b) :
    (item.leaving after).ending = .block { b with after := after } := by
  rw [leaving, h]

/-- An item ends among some tokens: with a block whose brackets are among them, or with a semicolon
that is. -/
inductive EndsIn (stop : Kind → Bool) (ts : List Token) : Item → Prop
  | block {prelude inner after after' : Scope} {opener closer : Token} (opens : opener ∈ ts)
    (closes : closer ∈ ts) (starts : prelude.next = opener.start)
    (within : inner.next = closer.start) :
    EndsIn stop ts ⟨prelude, .block ⟨opener, inner, some closer, after⟩, after'⟩
  | semicolon {prelude after : Scope} {d : Token} (ends : d ∈ ts) (starts : prelude.next = d.start)
    (found : stop .semicolon = true) : EndsIn stop ts ⟨prelude, .semicolon d, after⟩

/-- The end of a rule is a block. -/
theorem EndsIn.exists_block (h : item.EndsIn (· = .leftCurly) ts) :
    ∃ b, item.ending = .block b := by
  cases h with
  | block => exact ⟨_, rfl⟩
  | semicolon _ _ found => cases found

/-- An item is cut off the front of some tokens and leaves others that end with a block; what
follows the tokens does not matter. -/
structure CutOff (stop : Kind → Bool) (ts : List Token) (item : Item) (rest : List Token) :
    Prop where
  ends : item.EndsIn stop ts
  closed : Token.Closed item.prelude.tokens
  last : BlockLast rest
  take : ∀ us next, Item.take stop ⟨ts ++ us, next⟩ = item.leaving ⟨rest ++ us, next⟩

theorem CutOff.alone (h : item.CutOff stop ts rest) (next : Nat) :
    Item.take stop ⟨ts, next⟩ = item.leaving ⟨rest, next⟩ := by
  have alone := h.take [] next
  rwa [List.append_nil, List.append_nil] at alone

theorem CutOff.left (h : item.CutOff stop ts rest) (next : Nat) :
    (Item.take stop ⟨ts, next⟩).after = ⟨rest, next⟩ :=
  congrArg Item.after (h.alone next)

/-- An item ends among tokens that end with a block. -/
theorem exists_cutOff (stop : Kind → Bool) (h : BlockLast ts) (ne : ts ≠ [])
    (curly : stop .leftCurly = true) (only : ∀ k, stop k = true → endsPrelude k = true) :
    ∃ item rest, Item.CutOff stop ts item rest := by
  obtain ⟨before, d, ds, search, closed, last, hd⟩ := h.spanTop ne curly
  have members : before ++ d :: ds = ts := by
    have whole := spanTop_append stop (ts ++ [])
    rwa [search, List.append_nil, List.append_nil] at whole
  have hmem : d ∈ ts := members ▸ List.mem_append_right _ List.mem_cons_self
  have found (us : List Token) (next : Nat) : Scope.cut stop ⟨ts ++ us, next⟩ =
      (⟨before, d.start⟩, ⟨d :: (ds ++ us), next⟩) := by
    rw [Scope.cut, search]
    rfl
  by_cases block : d.kind = .leftCurly
  · obtain ⟨inner, closer, rest, rfl, paired, inside, content, last⟩ :=
      last.of_opener (by rw [block]; rfl)
    have hclose : closer ∈ ts := by
      rw [← members]
      exact List.mem_append_right _ (List.mem_cons_of_mem d
        (List.mem_append_right _ List.mem_cons_self))
    refine ⟨⟨⟨before, d.start⟩, .block ⟨d, ⟨inner, closer.start⟩, some closer, ⟨[], 0⟩⟩, ⟨[], 0⟩⟩,
      rest, .block hmem hclose rfl rfl, closed, last, fun us next => ?_⟩
    rw [Item.take, found]
    dsimp only
    rw [if_pos block, List.append_assoc, List.cons_append, Scope.enter_closed inside]
    rfl
  · have semicolon : d.kind = .semicolon := by
      have ends := only d.kind hd
      rw [endsPrelude, Bool.or_eq_true, decide_eq_true_eq, decide_eq_true_eq] at ends
      exact ends.resolve_left block
    refine ⟨⟨⟨before, d.start⟩, .semicolon d, ⟨[], 0⟩⟩, ds,
      .semicolon hmem rfl (semicolon ▸ hd), closed,
      (last.of_leaf (by rw [semicolon]; rfl)).1, fun us next => ?_⟩
    rw [Item.take, found]
    dsimp only
    rw [if_neg block]
    rfl

theorem exists_cutOff_atRule (h : BlockLast ts) (ne : ts ≠ []) :
    ∃ item rest, Item.CutOff endsPrelude ts item rest :=
  exists_cutOff endsPrelude h ne rfl fun _ ends => ends

theorem exists_cutOff_rule (h : BlockLast (t :: ts)) :
    ∃ item rest, Item.CutOff (· = .leftCurly) (t :: ts) item rest := by
  refine exists_cutOff _ h (List.cons_ne_nil t ts) rfl fun k curly => ?_
  rw [endsPrelude, curly]
  rfl

end Item

/-- An at-rule that ends with a block or a semicolon does not depend on what follows it. -/
theorem atRule_leaving {s s' after' : Scope} (ends : item.EndsIn endsPrelude ts)
    (h : Item.take endsPrelude s = item.leaving after)
    (h' : Item.take endsPrelude s' = item.leaving after') :
    atRule nested t s = atRule nested t s' := by
  cases ends with
  | block opens closes starts within =>
    rw [atRule_block (b := _) (by rw [h]; rfl), atRule_block (b := _) (by rw [h']; rfl), h, h']
    rfl
  | semicolon ends starts found =>
    rw [atRule_unblocked (by rw [h]; rintro _ ⟨⟩), atRule_unblocked (by rw [h']; rintro _ ⟨⟩), h,
      h']
    rfl

/-- The prelude of a rule whose blocks are closed does not depend on where its scope ends. -/
theorem rulePrelude_closed {limit limit' : Nat} {s : Scope} (h : Token.Closed s.tokens) :
    rulePrelude keyframes limit' s = rulePrelude keyframes limit s := by
  have moved : rulePrelude keyframes limit' (s.shift 0) = (rulePrelude keyframes limit s).shift 0 :=
    rulePrelude_shift (.inr h)
  rwa [Scope.shift_zero, Parsed.shift_zero] at moved

/-- Tokens that may stand between rules open no block. -/
theorem skipped_plain {top : Bool}
    (h : (t.kind.isTrivia || (top && (t.kind = .cdo || t.kind = .cdc))) = true) :
    t.kind.opensBlock = false := by
  obtain trivia | ⟨-, other⟩ := (Bool.or_eq_true ..).mp h |>.imp_right (Bool.and_eq_true_iff.mp)
  · exact Kind.opensBlock_of_isTrivia trivia
  · rw [Bool.or_eq_true, decide_eq_true_eq, decide_eq_true_eq] at other
    obtain other | other := other <;> rw [other] <;> rfl

/-- The rules of `s` come first, whatever follows its tokens. -/
def RulesFirst (top keyframes nested : Bool) (s : Scope) : Prop :=
  BlockLast s.tokens → ∀ us next, ruleList top keyframes nested ⟨s.tokens ++ us, next⟩ =
    (ruleList top keyframes nested s).append (ruleList top keyframes nested ⟨us, next⟩)

theorem ruleList_append_all (top keyframes nested : Bool) (s : Scope) :
    RulesFirst top keyframes nested s := by
  refine (@items_induction (fun _ _ _ => True) RulesFirst (fun _ _ => True) ?atRule
    ?rulesEnd ?rulesSkip ?rulesAtRule ?rulesRule ?rulesRest ?itemsEnd ?itemsSkip ?itemsAtRule
    ?itemsDeclaration ?itemsRule ?itemsLoose).2.1 top keyframes nested s
  case rulesEnd =>
    intro top keyframes nested next _ us next'
    rw [ruleList_nil]
    rfl
  case rulesSkip =>
    intro top keyframes nested t ts next hk ih last us next'
    obtain ⟨last, -⟩ := last.of_leaf (skipped_plain hk)
    rw [List.cons_append, ruleList_skip hk, ruleList_skip hk]
    exact ih last us next'
  case rulesAtRule =>
    intro top keyframes nested t ts next hk ha _ ih last us next'
    obtain ⟨last, more⟩ := last.of_leaf (by rw [ha]; rfl)
    obtain ⟨item, rest, cut⟩ := Item.exists_cutOff_atRule last more
    have alone := cut.alone next
    rw [cut.left] at ih
    rw [List.cons_append, ruleList_atRule hk ha, ruleList_atRule hk ha,
      atRule_leaving cut.ends (cut.take us next') alone, cut.take, alone, Parsed.cons_append]
    exact congrArg _ (ih cut.last us next')
  case rulesRule =>
    intro top keyframes nested t ts next b hk ha _ _ ih last us next'
    obtain ⟨item, rest, cut⟩ := Item.exists_cutOff_rule last
    obtain ⟨b, hb⟩ := cut.ends.exists_block
    have alone := cut.alone next
    have front : Item.take (· = .leftCurly) ⟨t :: (ts ++ us), next'⟩ =
        item.leaving ⟨rest ++ us, next'⟩ := cut.take us next'
    have same : rulePrelude keyframes (Scope.stop ⟨t :: (ts ++ us), next'⟩) item.prelude =
        rulePrelude keyframes (Scope.stop ⟨t :: ts, next⟩) item.prelude :=
      rulePrelude_closed cut.closed
    rw [cut.left] at ih
    rw [List.cons_append, ruleList_rule hk ha (by rw [front, Item.leaving_block hb]),
      ruleList_rule hk ha (by rw [alone, Item.leaving_block hb]), front, alone,
      Parsed.cons_append]
    exact congrArg₂ Parsed.cons (congrArg (styleRule t.start · _) same) (ih cut.last us next')
  case rulesRest =>
    intro top keyframes nested t ts next hk ha hno last
    obtain ⟨item, rest, cut⟩ := Item.exists_cutOff_rule last
    obtain ⟨b, hb⟩ := cut.ends.exists_block
    exact absurd ((congrArg Item.ending (cut.alone next)).trans (Item.leaving_block hb)) (hno _)
  all_goals intros; trivial

/-- Behind closed tokens that end with a block, rules are read as if nothing stood before them. -/
theorem ruleList_append {next next' : Nat} {us : List Token} (top keyframes nested : Bool)
    (last : BlockLast ts) :
    ruleList top keyframes nested ⟨ts ++ us, next⟩ =
      (ruleList top keyframes nested ⟨ts, next'⟩).append
        (ruleList top keyframes nested ⟨us, next⟩) :=
  ruleList_append_all top keyframes nested ⟨ts, next'⟩ last us next

/-! ### Errors -/

/-- All errors were found before an offset. -/
def FoundBefore (n : Nat) (es : List SyntaxError) : Prop := ∀ e ∈ es, e.offset < n

section

variable {source : String} {s : Scope} {n : Nat} {es fs : List SyntaxError}

theorem FoundBefore.append (h : FoundBefore n es) (h' : FoundBefore n fs) :
    FoundBefore n (es ++ fs) := by
  intro e he
  obtain he | he := List.mem_append.mp he
  · exact h e he
  · exact h' e he

variable (h : s.LiesIn source) (text : ∀ t ∈ s.tokens, t.text ≠ "")
include h text

/-- What is found by the start of a token is found before the end of its scope. -/
theorem foundBefore_of_token (ht : t ∈ s.tokens) (found : FoundBy source t.start es) :
    FoundBefore s.next es := by
  intro e he
  have before := (found e he).2
  have stop := h.endsBy_next t ht
  have pos : 0 < t.text.utf8ByteSize := by
    rw [Nat.pos_iff_ne_zero]
    exact fun empty => text t ht (String.utf8ByteSize_eq_zero_iff.mp empty)
  rw [Token.stop] at stop
  omega

/-- The items of a closed block are read before its scope ends. -/
theorem withBlock_foundBefore {opener closer : Token} {inner : Scope}
    {read : Scope → Parsed (List Located)}
    (hb : (Item.take stop s).ending = .block ⟨opener, inner, some closer, after⟩)
    (closes : closer ∈ s.tokens) (within : inner.next = closer.start)
    (items : ItemsFound source read inner) :
    FoundBefore s.next (withBlock ⟨opener, inner, some closer, after⟩ (read inner)).errors := by
  have found := items ((item_inner_isPart hb).liesIn h)
  rw [within] at found
  exact (foundBefore_of_token h text closes found).append (by rintro _ ⟨⟩)

theorem atRule_foundBefore (cut : item.CutOff endsPrelude s.tokens rest) :
    FoundBefore s.next (atRule nested t s).errors := by
  have took := cut.alone s.next
  obtain ⟨ends, -, -, -⟩ := cut
  have prelude := (item_prelude_isPart endsPrelude s).liesIn h
  have trimmed := Scope.trim_isPart (Item.take endsPrelude s).prelude
  have nodes : FoundBy source (Item.take endsPrelude s).prelude.next
      (preludeNodes (atRuleName t) (Item.take endsPrelude s).prelude.trim).errors :=
    foundBy_part trimmed prelude (preludeNodes_found _ (trimmed.liesIn prelude))
  cases ends with
  | block opens closes starts within =>
    have blocked := congrArg Item.ending took
    rw [atRule_block blocked]
    rw [took] at nodes ⊢
    refine (foundBefore_of_token h text opens (starts ▸ nodes)).append ?_
    split
    · exact withBlock_foundBefore h text blocked closes within (items_found_all.2.2 _ _)
    · exact withBlock_foundBefore h text blocked closes within (items_found_all.2.1 _ _ _ _)
  | semicolon ends starts found =>
    rw [atRule_unblocked (by rw [took]; rintro _ ⟨⟩)]
    rw [took] at nodes ⊢
    exact foundBefore_of_token h text ends (starts ▸ nodes)

theorem styleRule_foundBefore {b : Block} (start : Nat)
    (cut : item.CutOff (· = .leftCurly) s.tokens rest)
    (hb : (Item.take (· = .leftCurly) s).ending = .block b) :
    FoundBefore s.next (styleRule start
      (rulePrelude keyframes s.stop (Item.take (· = .leftCurly) s).prelude)
      (withBlock b (blockItems true b.inner))).errors := by
  have took := cut.alone s.next
  obtain ⟨ends, closed, -, -⟩ := cut
  have prelude := (item_prelude_isPart (· = .leftCurly) s).liesIn h
  have found : FoundBy source (Item.take (· = .leftCurly) s).prelude.next
      (rulePrelude keyframes s.stop (Item.take (· = .leftCurly) s).prelude).errors := by
    rw [rulePrelude_closed (by rw [took]; exact closed)]
    exact rulePrelude_found prelude (Nat.le_refl _) prelude.isEdge_next
  cases ends with
  | block opens closes starts within =>
    have blocked := hb
    rw [took] at hb found ⊢
    cases hb
    exact (foundBefore_of_token h text opens (starts ▸ found)).append
      (withBlock_foundBefore h text blocked closes within (items_found_all.2.2 _ _))
  | semicolon _ _ found => cases found

end

/-- The errors of rules whose tokens end with a block are found before the end of their scope. -/
def RulesFoundBefore (source : String) (top keyframes nested : Bool) (s : Scope) : Prop :=
  BlockLast s.tokens → s.LiesIn source → (∀ t ∈ s.tokens, t.text ≠ "") →
    FoundBefore s.next (ruleList top keyframes nested s).errors

theorem ruleList_foundBefore (source : String) (top keyframes nested : Bool) (s : Scope) :
    RulesFoundBefore source top keyframes nested s := by
  refine (@items_induction (fun _ _ _ => True) (RulesFoundBefore source) (fun _ _ => True) ?atRule
    ?rulesEnd ?rulesSkip ?rulesAtRule ?rulesRule ?rulesRest ?itemsEnd ?itemsSkip ?itemsAtRule
    ?itemsDeclaration ?itemsRule ?itemsLoose).2.1 top keyframes nested s
  case rulesEnd =>
    intro top keyframes nested next _ _ _
    rw [ruleList_nil]
    rintro _ ⟨⟩
  case rulesSkip =>
    intro top keyframes nested t ts next hk ih last h text
    obtain ⟨last, -⟩ := last.of_leaf (skipped_plain hk)
    rw [ruleList_skip hk]
    exact ih last (Scope.isPart_tail.liesIn h) (List.forall_mem_cons.mp text).2
  case rulesAtRule =>
    intro top keyframes nested t ts next hk ha _ ih last h text
    obtain ⟨last, more⟩ := last.of_leaf (by rw [ha]; rfl)
    obtain ⟨item, rest, cut⟩ := Item.exists_cutOff_atRule last more
    have lies := Scope.isPart_tail.liesIn h
    have text' := (List.forall_mem_cons.mp text).2
    have part := item_after_isPart endsPrelude ⟨ts, next⟩
    rw [cut.left] at ih part
    rw [ruleList_atRule hk ha, cut.left]
    exact (atRule_foundBefore lies text' cut).append
      (ih cut.last (part.liesIn lies) fun t ht => text' t (part.subset ht))
  case rulesRule =>
    intro top keyframes nested t ts next b hk ha hb _ ih last h text
    obtain ⟨item, rest, cut⟩ := Item.exists_cutOff_rule last
    have part := item_after_isPart (· = .leftCurly) ⟨t :: ts, next⟩
    rw [cut.left] at ih part
    rw [ruleList_rule hk ha hb, cut.left]
    exact (styleRule_foundBefore h text t.start cut hb).append
      (ih cut.last (part.liesIn h) fun t ht => text t (part.subset ht))
  case rulesRest =>
    intro top keyframes nested t ts next hk ha hno last
    obtain ⟨item, rest, cut⟩ := Item.exists_cutOff_rule last
    obtain ⟨b, hb⟩ := cut.ends.exists_block
    exact absurd ((congrArg Item.ending (cut.alone next)).trans (Item.leaving_block hb)) (hno _)
  all_goals intros; trivial

end Grammar

end Stylesheet
