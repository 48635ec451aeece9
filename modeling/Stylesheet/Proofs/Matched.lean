import Stylesheet.Proofs.Concat.Tokens

/-!
# Matched tokens

The openers of a text say where they are closed, and the blocks that they open lie within each
other. An opener that is not closed takes up the rest of its block. Nothing that the grammar cuts out
of matched tokens ends inside a closed block, so a block that is closed at all is closed within every
scope that it starts in.
-/

namespace Stylesheet

namespace Token

/-- Every opener that is recorded as closed is closed where the record says. -/
inductive Matched : List Token → Prop
  | nil : Matched []
  | cons {t : Token} {ts : List Token} (waits : t.kind.opensBlock = true → t.inside = none)
    (rest : Matched ts) : Matched (t :: ts)
  | block {opener closer : Token} {inner ts : List Token}
    (paired : opener.kind.closing = some closer.kind) (inside : opener.inside = some inner.length)
    (content : Matched inner) (rest : Matched ts) : Matched (opener :: (inner ++ closer :: ts))

theorem Closed.matched {ts : List Token} (h : Closed ts) : Matched ts := by
  induction h with
  | nil => exact .nil
  | leaf plain _ ih =>
    refine .cons (fun opens => ?_) ih
    rw [plain] at opens
    cases opens
  | block paired inside _ _ content rest => exact .block paired inside content rest

namespace Matched

variable {ts us : List Token} {t : Token} {stop : Kind → Bool}

theorem append (h : Matched ts) (h' : Matched us) : Matched (ts ++ us) := by
  induction h with
  | nil => exact h'
  | cons waits _ ih => exact .cons waits ih
  | block paired inside content _ _ ih =>
    rw [List.cons_append, List.append_assoc, List.cons_append]
    exact .block paired inside content ih

/-- A token that opens no block may be left out at the front. -/
theorem of_leaf (h : Matched (t :: ts)) (plain : t.kind.opensBlock = false) : Matched ts := by
  cases h with
  | cons _ rest => exact rest
  | block paired _ _ _ =>
    rw [Kind.opensBlock_of_closing paired] at plain
    cases plain

/-- A token that opens a block that is never closed is followed by what the block holds. -/
theorem of_open (h : Matched (t :: ts)) (inside : t.inside = none) : Matched ts := by
  cases h with
  | cons _ rest => exact rest
  | block _ closed _ _ =>
    rw [inside] at closed
    cases closed

/-- A token that opens a block that is closed is followed by what the block holds and the token that
closes it. -/
theorem of_closed {n : Nat} (h : Matched (t :: ts)) (opens : t.kind.opensBlock = true)
    (inside : t.inside = some n) :
    ∃ inner closer rest, ts = inner ++ closer :: rest ∧ inner.length = n ∧
      t.kind.closing = some closer.kind ∧ Matched inner ∧ Matched rest := by
  cases h with
  | cons waits _ =>
    rw [waits opens] at inside
    cases inside
  | block paired closed content rest =>
    rw [inside] at closed
    exact ⟨_, _, _, rfl, (Option.some.inj closed).symm, paired, content, rest⟩

/-- A token that closes no block may be left out at the end. -/
theorem of_concat (h : Matched (ts ++ [t])) (plain : ∀ k : Kind, k.closing ≠ some t.kind) :
    Matched ts := by
  generalize he : ts ++ [t] = us at h
  induction h generalizing ts with
  | nil => exact absurd he (List.append_ne_nil_of_right_ne_nil ts (List.cons_ne_nil t []))
  | @cons u us waits rest ih =>
    cases ts with
    | nil => exact .nil
    | cons a as =>
      obtain ⟨rfl, rfl⟩ := List.cons.inj he
      exact .cons waits (ih rfl)
  | @block opener closer inner us paired inside content rest _ ih =>
    cases ts with
    | nil =>
      obtain ⟨-, he⟩ := List.cons.inj he
      exact absurd he.symm (List.append_ne_nil_of_right_ne_nil inner (List.cons_ne_nil closer us))
    | cons a as =>
      have tail : as ++ [t] = inner ++ closer :: us := List.tail_eq_of_cons_eq he
      obtain rfl : a = opener := List.head_eq_of_cons_eq he
      obtain rfl | ⟨before, last, rfl⟩ := List.eq_nil_or_concat us
      · obtain ⟨-, last⟩ := List.append_inj' tail rfl
        obtain rfl : t = closer := List.singleton_inj.mp last
        exact absurd paired (plain _)
      · have split : as ++ [t] = (inner ++ closer :: before) ++ [last] := by
          simpa only [List.concat_eq_append, List.append_assoc, List.cons_append] using tail
        obtain ⟨rfl, last⟩ := List.append_inj' split rfl
        obtain rfl : t = _ := List.singleton_inj.mp last
        exact .block paired inside content (ih (List.concat_eq_append ..).symm)

theorem of_trivia (h : Matched (ts ++ [t])) (trivia : t.kind.isTrivia = true) : Matched ts := by
  refine h.of_concat fun k closing => ?_
  rw [Kind.isTrivia_of_closing closing] at trivia
  cases trivia

theorem significant (h : Matched ts) : Matched (significant ts) := by
  induction ts with
  | nil => exact .nil
  | cons t ts ih =>
    rw [Token.significant, List.dropWhile_cons]
    split
    · rename_i trivia
      exact ih (h.of_leaf (Kind.opensBlock_of_isTrivia trivia))
    · exact h

/-- A block that is not closed is not left before the list ends. -/
theorem spanTop_open (found : stop t.kind = false) (opens : t.kind.opensBlock = true)
    (inside : t.inside = none) : Token.spanTop stop (t :: ts) = (t :: ts, []) := by
  have more : t.more ts = ts.length := by rw [Token.more, if_pos opens, inside]
  rw [Token.spanTop, found, if_neg Bool.false_ne_true, more, List.drop_length, List.take_length,
    Token.spanTop]
  exact congrArg (fun ts => (t :: ts, [])) (List.append_nil ts)

/-- A search at the top level cuts no closed block. -/
theorem spanTop (h : Matched ts) : Matched (spanTop stop ts).1 ∧ Matched (spanTop stop ts).2 := by
  induction h with
  | nil =>
    rw [Token.spanTop]
    exact ⟨.nil, .nil⟩
  | @cons t ts waits rest ih =>
    cases found : stop t.kind with
    | true =>
      rw [spanTop_found found]
      exact ⟨.nil, .cons waits rest⟩
    | false =>
      cases opens : t.kind.opensBlock with
      | false =>
        rw [spanTop_plain found opens]
        exact ⟨.cons waits ih.1, ih.2⟩
      | true =>
        rw [spanTop_open found opens (waits opens)]
        exact ⟨.cons waits rest, .nil⟩
  | @block opener closer inner ts paired inside content rest _ ih =>
    cases found : stop opener.kind with
    | true =>
      rw [spanTop_found found]
      exact ⟨.nil, .block paired inside content rest⟩
    | false =>
      rw [spanTop_block found (Kind.opensBlock_of_closing paired) inside]
      exact ⟨.block paired inside content ih.1, ih.2⟩

/-- What is recorded, and the kinds, are all that matters. -/
theorem congr (h : Matched ts)
    (same : us.map (fun t => (t.kind, t.inside)) = ts.map fun t => (t.kind, t.inside)) :
    Matched us := by
  induction h generalizing us with
  | nil =>
    rw [List.map_nil, List.map_eq_nil_iff] at same
    exact same ▸ .nil
  | @cons t ts waits _ ih =>
    obtain ⟨u, us, rfl, hu, hus⟩ := List.map_eq_cons_iff.mp same
    obtain ⟨kind, inside⟩ := Prod.mk.inj hu
    exact .cons (by rw [kind, inside]; exact waits) (ih hus)
  | @block opener closer inner ts paired closed _ _ ihContent ihRest =>
    obtain ⟨u, us, rfl, hu, hus⟩ := List.map_eq_cons_iff.mp same
    rw [List.map_append] at hus
    obtain ⟨content, later, rfl, hcontent, hlater⟩ := List.map_eq_append_iff.mp hus
    obtain ⟨v, rest, rfl, hv, hrest⟩ := List.map_eq_cons_iff.mp hlater
    obtain ⟨kind, inside⟩ := Prod.mk.inj hu
    have length : content.length = inner.length := by
      simpa using congrArg List.length hcontent
    refine .block ?_ ?_ (ihContent hcontent) (ihRest hrest)
    · rw [kind, (Prod.mk.inj hv).1]
      exact paired
    · rw [inside, length]
      exact closed

end Matched

/-! ### Pairing -/

namespace Nesting

variable {s : Nesting} {t : Token} {d : DeepBlock} {x : Lexeme × List Char}

theorem Paired.skip (h : s.Paired) (d : DeepBlock) (t : Token) : (s.skip d t).Paired := by
  cases closing : t.kind.closing with
  | some c =>
    rw [skip_opener closing]
    exact ⟨h.outer, h.blocks⟩
  | none =>
    cases waits : d.awaited with
    | cons c awaited =>
      rw [skip_awaiting closing waits]
      exact ⟨h.outer, h.blocks⟩
    | nil =>
      by_cases own : d.opener.kind.closing = some t.kind
      · rw [skip_closer closing waits own]
        have rest : Paired { s with deep := none } := ⟨h.outer, h.blocks⟩
        exact rest.add (Paired.close .nil own)
      · rw [skip_other closing waits own]
        exact ⟨h.outer, h.blocks⟩

/-- Besides, a block that is left out is not closed. -/
structure Pairing (s : Nesting) : Prop extends s.Paired where
  deep : ∀ d, s.deep = some d → d.opener.inside = none

namespace Pairing

theorem empty : Pairing {} where
  outer := .nil
  blocks := by rintro _ ⟨⟩
  deep := by rintro _ ⟨⟩

theorem step (h : s.Pairing) : (s.step x).Pairing := by
  have moved : Paired { s with offset := (s.next x).stop } := ⟨h.outer, h.blocks⟩
  cases deep : s.deep with
  | none =>
    rw [step_place deep]
    refine ⟨moved.place rfl, fun d hd => ?_⟩
    obtain none | ⟨-, some⟩ :=
      deep_place (s := { s with offset := (s.next x).stop }) (t := s.next x) deep
    · rw [none] at hd
      cases hd
    · rw [some] at hd
      cases hd
      rfl
  | some d =>
    rw [step_deep deep]
    refine ⟨moved.skip d _, fun d' hd => ?_⟩
    obtain ⟨awaited, skips⟩ | skips :=
      skip_cases { s with offset := (s.next x).stop } d (s.next x)
    · rw [skips] at hd
      cases hd
      exact h.deep d deep
    · rw [skips, deep_add] at hd
      cases hd

theorem foldl (xs : List (Lexeme × List Char)) (h : s.Pairing) :
    (xs.foldl Nesting.step s).Pairing := by
  induction xs generalizing s with
  | nil => exact h
  | cons x xs ih => exact ih h.step

/-- A block that the end of the text ends is matched, whether it is closed there or not. -/
theorem atEnd_block {size : Nat} {b : OpenBlock} (waits : b.opener.inside = none)
    (content : Matched b.content.reverse) : Matched (b.atEnd size).reverse := by
  obtain ⟨opener, content'⟩ := b
  have abandoned : Matched (OpenBlock.abandon ⟨opener, content'⟩).reverse := by
    rw [OpenBlock.abandon, List.reverse_append]
    exact .cons (fun _ => waits) content
  have closed {k : Kind} {o : Token} {ts : List Token} (own : opener.kind.closing = some k)
      (kind : o.kind = opener.kind)
      (same : ts.map (fun t => (t.kind, t.inside)) = content'.map fun t => (t.kind, t.inside)) :
      Matched (OpenBlock.close ⟨o, ts⟩ ⟨k, k.name, size - 1, none, none, ""⟩).reverse := by
    have inner : Matched ts.reverse := content.congr (by
      rw [List.map_reverse, List.map_reverse, same])
    have block : Matched ({ o with inside := some ts.length } ::
        (ts.reverse ++ (⟨k, k.name, size - 1, none, none, ""⟩ : Token) :: [])) :=
      .block (by rw [kind]; exact own) (by rw [List.length_reverse]) inner .nil
    simpa [OpenBlock.close] using block
  rw [OpenBlock.atEnd]
  split
  · exact abandoned
  · rename_i k own
    dsimp only at own ⊢
    split
    · split
      · rename_i o reclaimed
        obtain ⟨_, _, -, -, rfl⟩ := reclaim_eq_some reclaimed
        exact closed own rfl rfl
      · exact abandoned
    · split
      · rename_i t reclaimed
        obtain ⟨_, _, -, -, rfl⟩ := reclaim_eq_some reclaimed
        exact closed own rfl rfl
      · exact abandoned

theorem atEnd (h : s.Pairing) : Matched s.atEnd.reverse := by
  have blocks (bs : List OpenBlock) (inner : List Token) (hi : Matched inner.reverse)
      (hb : ∀ b ∈ bs, b.opener.inside = none ∧ Closed b.content.reverse) :
      Matched (bs.foldl
        (fun inner b => OpenBlock.atEnd s.offset ⟨b.opener, inner ++ b.content⟩) inner).reverse := by
    induction bs generalizing inner with
    | nil => exact hi
    | cons b bs ih =>
      obtain ⟨⟨waits, content⟩, later⟩ := List.forall_mem_cons.mp hb
      refine ih _ (atEnd_block waits ?_) later
      rw [List.reverse_append]
      exact content.matched.append hi
  rw [Nesting.atEnd, List.reverse_append]
  refine h.outer.matched.append
    (blocks _ _ ?_ fun b hb => ⟨(h.blocks b hb).2.1, (h.blocks b hb).2.2⟩)
  cases hd : s.deep with
  | none => exact .nil
  | some d => exact atEnd_block (h.deep d hd) .nil

end Pairing

end Nesting

end Token

open Token

/-- The tokens of a text are matched, whatever it leaves open or out. -/
theorem tokenize_matched (source : String) : Matched (tokenize source).tokens :=
  (Nesting.Pairing.empty.foldl (lexemes source.toList)).atEnd

namespace Scope

variable {s : Scope} {opener : Token} {n : Nat}

theorem matched_cut {stop : Token.Kind → Bool} (h : Matched s.tokens) :
    Matched (s.cut stop).1.tokens ∧ Matched (s.cut stop).2.tokens :=
  h.spanTop

theorem matched_trim (h : Matched s.tokens) : Matched s.trim.tokens :=
  trim_of_forall (fun trivia h => h.of_leaf (Token.Kind.opensBlock_of_isTrivia trivia))
    (fun trivia h => h.of_trivia trivia) h

/-- What a block holds and what follows it are matched. -/
theorem matched_enter (opens : opener.kind.opensBlock = true) (h : Matched (opener :: s.tokens)) :
    Matched (s.enter opener).inner.tokens ∧ Matched (s.enter opener).after.tokens := by
  cases inside : opener.inside with
  | none =>
    rw [enter, inside]
    exact ⟨h.of_open inside, .nil⟩
  | some n =>
    obtain ⟨tokens, next⟩ := s
    obtain ⟨inner, closer, rest, rfl, rfl, -, content, later⟩ := h.of_closed opens inside
    rw [enter_closed inside]
    exact ⟨content, later⟩

/-- A block is closed in its scope if and only if it is closed at all, and by a token of the right
kind. -/
theorem enter_closer_of_matched (opens : opener.kind.opensBlock = true)
    (h : Matched (opener :: s.tokens)) :
    opener.inside.isSome = (s.enter opener).closer.isSome ∧
      ∀ c ∈ (s.enter opener).closer, opener.inside = some (s.enter opener).inner.tokens.length ∧
        opener.kind.closing = some c.kind := by
  cases inside : opener.inside with
  | none =>
    rw [enter, inside]
    exact ⟨rfl, by rintro _ ⟨⟩⟩
  | some n =>
    obtain ⟨tokens, next⟩ := s
    obtain ⟨inner, closer, rest, rfl, rfl, paired, -, -⟩ := h.of_closed opens inside
    rw [enter_closed inside]
    refine ⟨rfl, ?_⟩
    rintro _ ⟨⟩
    exact ⟨rfl, paired⟩

end Scope

end Stylesheet
