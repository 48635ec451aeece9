import Stylesheet.Grammar.Scope

/-!
# Closed tokens

A list of tokens is closed if every block that begins in it ends in it. Whatever a search at the top
level or a block cuts out of closed tokens is closed again, so what is read there never meets the
end of its scope by surprise.
-/

namespace Stylesheet

namespace Token

namespace Kind

variable {k c : Kind}

theorem opensBlock_of_closing (h : k.closing = some c) : k.opensBlock = true := by
  rw [opensBlock, h]
  rfl

theorem isTrivia_of_closing (h : k.closing = some c) : c.isTrivia = false := by
  cases k <;> simp only [closing, Option.some.injEq, reduceCtorEq] at h <;> subst h <;> rfl

theorem isTrivia_of_opensBlock (h : k.opensBlock = true) : k.isTrivia = false := by
  cases k <;> first | rfl | cases h

theorem opensBlock_of_isTrivia (h : k.isTrivia = true) : k.opensBlock = false := by
  cases k <;> first | rfl | cases h

end Kind

section

variable {stop : Kind → Bool} {ts : List Token} {t : Token}

theorem spanTop_found (h : stop t.kind) : spanTop stop (t :: ts) = ([], t :: ts) := by
  rw [spanTop, if_pos h]

theorem spanTop_plain (h : stop t.kind = false) (plain : t.kind.opensBlock = false) :
    spanTop stop (t :: ts) = (t :: (spanTop stop ts).1, (spanTop stop ts).2) := by
  have more : t.more ts = 0 := by rw [Token.more, plain, if_neg Bool.false_ne_true]
  rw [spanTop, h, if_neg Bool.false_ne_true, more]
  rfl

theorem spanTop_block {closer : Token} {us : List Token} (h : stop t.kind = false)
    (opens : t.kind.opensBlock = true) (inside : t.inside = some ts.length) :
    spanTop stop (t :: (ts ++ closer :: us)) =
      (t :: (ts ++ closer :: (spanTop stop us).1), (spanTop stop us).2) := by
  have more : t.more (ts ++ closer :: us) = (ts ++ [closer]).length := by
    rw [Token.more, opens, if_pos rfl, inside]
    simp
  have split : ts ++ closer :: us = (ts ++ [closer]) ++ us := List.append_cons ts closer us
  rw [spanTop, h, if_neg Bool.false_ne_true, more, split, List.drop_left, List.take_left]
  simp only [List.append_assoc, List.singleton_append]

end

/-- Every block of the list is closed within it. -/
inductive Closed : List Token → Prop
  | nil : Closed []
  | leaf {t : Token} {ts : List Token} (plain : t.kind.opensBlock = false) (rest : Closed ts) :
    Closed (t :: ts)
  | block {opener closer : Token} {inner ts : List Token}
    (paired : opener.kind.closing = some closer.kind) (inside : opener.inside = some inner.length)
    (content : Closed inner) (rest : Closed ts) : Closed (opener :: (inner ++ closer :: ts))

namespace Closed

variable {ts us : List Token} {t : Token} {stop : Kind → Bool}

theorem append (h : Closed ts) (h' : Closed us) : Closed (ts ++ us) := by
  induction h with
  | nil => exact h'
  | leaf plain _ ih => exact .leaf plain ih
  | block paired inside content _ _ ih =>
    rw [List.cons_append, List.append_assoc, List.cons_append]
    exact .block paired inside content ih

/-- A token that opens no block may be left out at the front. -/
theorem of_leaf (h : Closed (t :: ts)) (plain : t.kind.opensBlock = false) : Closed ts := by
  cases h with
  | leaf _ rest => exact rest
  | block paired _ _ _ =>
    rw [Kind.opensBlock_of_closing paired] at plain
    cases plain

/-- A token that opens a block is closed by a later one. -/
theorem of_opener (h : Closed (t :: ts)) (opens : t.kind.opensBlock = true) :
    ∃ inner closer rest, ts = inner ++ closer :: rest ∧ t.kind.closing = some closer.kind ∧
      t.inside = some inner.length ∧ Closed inner ∧ Closed rest := by
  cases h with
  | leaf plain _ =>
    rw [opens] at plain
    cases plain
  | block paired inside content rest => exact ⟨_, _, _, rfl, paired, inside, content, rest⟩

/-- A token that ends no block may be left out at the end. -/
theorem of_concat (h : Closed (ts ++ [t])) (other : ∀ k : Kind, k.closing ≠ some t.kind) :
    Closed ts := by
  generalize he : ts ++ [t] = us at h
  induction h generalizing ts with
  | nil => exact absurd he (List.append_ne_nil_of_right_ne_nil ts (List.cons_ne_nil t []))
  | @leaf u us plain rest ih =>
    cases ts with
    | nil => exact .nil
    | cons a as =>
      obtain ⟨rfl, rfl⟩ := List.cons.inj he
      exact .leaf plain (ih rfl)
  | @block opener closer inner us paired inside content rest _ ih =>
    cases ts with
    | nil =>
      obtain ⟨-, he⟩ := List.cons.inj he
      exact absurd he.symm (List.append_ne_nil_of_right_ne_nil inner (List.cons_ne_nil closer us))
    | cons a as =>
      have tail : as ++ [t] = inner ++ closer :: us := List.tail_eq_of_cons_eq he
      obtain rfl : a = opener := List.head_eq_of_cons_eq he
      obtain rfl | ⟨before, last, rfl⟩ := List.eq_nil_or_concat us
      · obtain ⟨-, last⟩ := List.append_inj' tail rfl
        obtain rfl : t = closer := List.singleton_inj.mp last
        exact absurd paired (other _)
      · have split : as ++ [t] = (inner ++ closer :: before) ++ [last] := by
          simpa only [List.concat_eq_append, List.append_assoc, List.cons_append] using tail
        obtain ⟨rfl, last⟩ := List.append_inj' split rfl
        obtain rfl : t = _ := List.singleton_inj.mp last
        exact .block paired inside content (ih (List.concat_eq_append ..).symm)

theorem significant (h : Closed ts) : Closed (significant ts) := by
  induction ts with
  | nil => exact .nil
  | cons t ts ih =>
    rw [Token.significant, List.dropWhile_cons]
    split
    · rename_i trivia
      exact ih (h.of_leaf (Kind.opensBlock_of_isTrivia trivia))
    · exact h

/-- A search at the top level cuts closed tokens in two closed parts. -/
theorem spanTop (h : Closed ts) : Closed (spanTop stop ts).1 ∧ Closed (spanTop stop ts).2 := by
  induction h with
  | nil =>
    rw [Token.spanTop]
    exact ⟨.nil, .nil⟩
  | @leaf t ts plain rest ih =>
    cases found : stop t.kind with
    | true =>
      rw [spanTop_found found]
      exact ⟨.nil, .leaf plain rest⟩
    | false =>
      rw [spanTop_plain found plain]
      exact ⟨.leaf plain ih.1, ih.2⟩
  | @block opener closer inner ts paired inside content rest _ ih =>
    cases found : stop opener.kind with
    | true =>
      rw [spanTop_found found]
      exact ⟨.nil, .block paired inside content rest⟩
    | false =>
      rw [spanTop_block found (Kind.opensBlock_of_closing paired) inside]
      exact ⟨.block paired inside content ih.1, ih.2⟩

end Closed

end Token

namespace Scope

variable {ts us : List Token} {s : Scope} {t opener closer : Token} {next : Nat}

/-- A block that is closed holds the tokens up to its closing one. -/
theorem enter_closed (h : opener.inside = some ts.length) :
    Scope.enter opener ⟨ts ++ closer :: us, next⟩ =
      ⟨opener, ⟨ts, closer.start⟩, some closer, ⟨us, next⟩⟩ := by
  rw [enter, h]
  simp only [List.drop_left, List.take_left]

theorem closed_cut {stop : Token.Kind → Bool} (h : Token.Closed s.tokens) :
    Token.Closed (s.cut stop).1.tokens ∧ Token.Closed (s.cut stop).2.tokens :=
  h.spanTop

/-- What holds of tokens holds of them trimmed, if white space and comments may be left out at both
ends. -/
theorem trim_of_forall {C : List Token → Prop}
    (front : ∀ {t ts}, t.kind.isTrivia = true → C (t :: ts) → C ts)
    (back : ∀ {t ts}, t.kind.isTrivia = true → C (ts ++ [t]) → C ts) (h : C s.tokens) :
    C s.trim.tokens := by
  have ends (us : List Token) (h : C us.reverse) : C (Token.significant us).reverse := by
    induction us with
    | nil => exact h
    | cons t us ih =>
      rw [Token.significant, List.dropWhile_cons]
      split
      · rename_i trivia
        rw [List.reverse_cons] at h
        exact ih (back trivia h)
      · exact h
  have starts (us : List Token) (h : C us) : C (Token.significant us) := by
    induction us with
    | nil => exact h
    | cons t us ih =>
      rw [Token.significant, List.dropWhile_cons]
      split
      · rename_i trivia
        exact ih (front trivia h)
      · exact h
  refine ends _ ?_
  rw [List.reverse_reverse]
  exact starts s.tokens h

theorem closed_trim (h : Token.Closed s.tokens) : Token.Closed s.trim.tokens := by
  refine trim_of_forall (fun trivia h => ?_) (fun trivia h => ?_) h
  · exact h.of_leaf (Token.Kind.opensBlock_of_isTrivia trivia)
  · refine h.of_concat fun k closing => ?_
    rw [Token.Kind.isTrivia_of_closing closing] at trivia
    cases trivia

end Scope

end Stylesheet
