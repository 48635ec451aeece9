import Stylesheet.Proofs.Concat.Rules

/-!
# Items cut out of closed tokens

A search at the top level goes past closed tokens without looking at what follows them, or it stops
among them. So where an item ends is settled by the tokens up to its end: what its block holds and
what follows it do not matter. Whether an item is a declaration is settled by then, too.
-/

namespace Stylesheet

namespace Token

variable {stop : Kind → Bool} {ts us front : List Token} {t : Token}

/-- A search at the top level goes past the tokens, whatever follows them. -/
def Passes (stop : Kind → Bool) (ts : List Token) : Prop :=
  ∀ us, spanTop stop (ts ++ us) = (ts ++ (spanTop stop us).1, (spanTop stop us).2)

theorem Passes.nil : Passes stop [] := fun _ => rfl

theorem Passes.found (h : Passes stop front) (found : stop t.kind = true) (us : List Token) :
    spanTop stop (front ++ t :: us) = (front, t :: us) := by
  rw [h, spanTop_found found, List.append_nil]

theorem Passes.spanTop_eq (h : Passes stop front) : spanTop stop front = (front, []) := by
  have alone := h []
  rw [spanTop, List.append_nil] at alone
  exact alone

/-- Closed tokens begin with some that the search goes past; at what follows them it stops. -/
theorem Closed.exists_passes (stop : Kind → Bool) (h : Closed ts) :
    ∃ front back, ts = front ++ back ∧ Passes stop front ∧ Closed front ∧ Closed back ∧
      ∀ t ∈ back.head?, stop t.kind = true := by
  induction h with
  | nil => exact ⟨[], [], rfl, .nil, .nil, .nil, by rintro _ ⟨⟩⟩
  | @leaf t ts plain rest ih =>
    cases found : stop t.kind with
    | true => exact ⟨[], t :: ts, rfl, .nil, .nil, .leaf plain rest, by rintro _ ⟨⟩; exact found⟩
    | false =>
      obtain ⟨front, back, rfl, passes, closed, later, ends⟩ := ih
      refine ⟨t :: front, back, rfl, fun us => ?_, .leaf plain closed, later, ends⟩
      rw [List.cons_append, spanTop_plain found plain, passes us]
      rfl
  | @block opener closer inner ts paired inside content rest _ ih =>
    cases found : stop opener.kind with
    | true =>
      exact ⟨[], opener :: (inner ++ closer :: ts), rfl, .nil, .nil,
        .block paired inside content rest, by rintro _ ⟨⟩; exact found⟩
    | false =>
      obtain ⟨front, back, rfl, passes, closed, later, ends⟩ := ih
      refine ⟨opener :: (inner ++ closer :: front), back, ?_, fun us => ?_,
        .block paired inside content closed, later, ends⟩
      · simp only [List.cons_append, List.append_assoc]
      · rw [List.cons_append, List.append_assoc, List.cons_append,
          spanTop_block found (Kind.opensBlock_of_closing paired) inside, passes us]
        simp only [List.cons_append, List.append_assoc]

/-- The kind at which a search stops that goes through closed tokens to one that ends it is settled
by them and by the kind of that one. -/
theorem spanTop_kind (stop : Kind → Bool) {e e' : Token} (h : Closed ts) (ends : stop e.kind = true)
    (same : e'.kind = e.kind) (us us' : List Token) :
    ∃ d ds d' ds', (spanTop stop (ts ++ e :: us)).2 = d :: ds ∧
      (spanTop stop (ts ++ e' :: us')).2 = d' :: ds' ∧ d'.kind = d.kind := by
  obtain ⟨front, back, rfl, passes, -, -, first⟩ := h.exists_passes stop
  cases back with
  | nil =>
    rw [List.append_nil, passes.found ends, passes.found (same ▸ ends)]
    exact ⟨e, us, e', us', rfl, rfl, same⟩
  | cons b bs =>
    rw [List.append_assoc, List.append_assoc, List.cons_append, List.cons_append,
      passes.found (first b rfl), passes.found (first b rfl)]
    exact ⟨b, _, b, _, rfl, rfl, rfl⟩

end Token

namespace Grammar

open Token

variable {stop : Kind → Bool} {front inner after : List Token} {d opener closer : Token} {next : Nat}

/-- Whether an item is a declaration is settled by the tokens up to its end. -/
theorem startsDeclaration_end {t e e' : Token} {us us' : List Token} {next next' : Nat}
    (h : Closed front) (ends : endsPrelude e.kind = true) (same : e'.kind = e.kind) :
    startsDeclaration t ⟨front ++ e :: us, next⟩ =
      startsDeclaration t ⟨front ++ e' :: us', next'⟩ := by
  have solid (u : Token) (hu : endsPrelude u.kind = true) (vs : List Token) :
      significant (u :: vs) = u :: vs ∧ u.kind ≠ .colon := by
    rw [endsPrelude, Bool.or_eq_true, decide_eq_true_eq, decide_eq_true_eq] at hu
    obtain hu | hu := hu
    all_goals exact ⟨List.dropWhile_cons_of_neg (by rw [hu]; exact Bool.false_ne_true), by simp [hu]⟩
  rw [startsDeclaration, startsDeclaration, Scope.trimStart, Scope.trimStart]
  dsimp only
  cases hs : significant front with
  | nil =>
    have here (vs : List Token) : significant (front ++ vs) = significant vs := by
      rw [significant, List.dropWhile_append, ← significant, hs]
      rfl
    rw [here, here, (solid e ends us).1, (solid e' (same ▸ ends) us').1]
    simp [(solid e ends us).2, (solid e' (same ▸ ends) us').2]
  | cons c cs =>
    have here (vs : List Token) : significant (front ++ vs) = c :: (cs ++ vs) := by
      rw [significant, List.dropWhile_append, ← significant, hs]
      rfl
    rw [here, here]
    by_cases colon : c.kind = .colon
    · have closed : Closed cs := (hs ▸ h.significant).of_leaf (by rw [colon]; rfl)
      obtain ⟨d, ds, d', ds', found, found', kind⟩ :=
        spanTop_kind (fun k => k = .leftCurly || k = .semicolon) closed ends same us us'
      simp [Scope.cut, found, found', kind]
    · simp [colon]

theorem curly_ends (k : Kind) (h : (k = .leftCurly : Bool) = true) : endsPrelude k = true := by
  rw [of_decide_eq_true h]
  rfl

theorem semicolon_ends (k : Kind) (h : (k = .semicolon : Bool) = true) : endsPrelude k = true := by
  rw [of_decide_eq_true h]
  rfl

namespace Item

theorem take_missing (passes : Passes stop front) :
    Item.take stop ⟨front, next⟩ = ⟨⟨front, next⟩, .missing, ⟨[], next⟩⟩ := by
  have cut : Scope.cut stop ⟨front, next⟩ = (⟨front, next⟩, ⟨[], next⟩) := by
    rw [Scope.cut, passes.spanTop_eq]
    rfl
  rw [Item.take, cut]

theorem cut_found (passes : Passes stop front) (found : stop d.kind = true) :
    Scope.cut stop ⟨front ++ d :: after, next⟩ = (⟨front, d.start⟩, ⟨d :: after, next⟩) := by
  rw [Scope.cut, passes.found found]
  rfl

theorem take_semicolon (passes : Passes stop front) (found : stop d.kind = true)
    (semicolon : d.kind = .semicolon) :
    Item.take stop ⟨front ++ d :: after, next⟩ =
      ⟨⟨front, d.start⟩, .semicolon d, ⟨after, next⟩⟩ := by
  rw [Item.take, cut_found passes found]
  exact if_neg (by rw [semicolon]; rintro ⟨⟩)

theorem take_closed (passes : Passes stop front) (found : stop opener.kind = true)
    (curly : opener.kind = .leftCurly) (inside : opener.inside = some inner.length) :
    Item.take stop ⟨front ++ opener :: (inner ++ closer :: after), next⟩ =
      ⟨⟨front, opener.start⟩, .block ⟨opener, ⟨inner, closer.start⟩, some closer, ⟨after, next⟩⟩,
        ⟨after, next⟩⟩ := by
  rw [Item.take, cut_found passes found]
  dsimp only
  rw [if_pos curly, Scope.enter_closed inside]

/-- The ways in which an item of closed tokens ends. -/
inductive View (stop : Kind → Bool) (ts : List Token) : Prop
  | missing (passes : Passes stop ts)
  | semicolon {front after : List Token} {d : Token} (split : ts = front ++ d :: after)
    (passes : Passes stop front) (closed : Closed front) (found : stop d.kind = true)
    (semicolon : d.kind = .semicolon) (rest : Closed after)
  | block {front inner after : List Token} {opener closer : Token}
    (split : ts = front ++ opener :: (inner ++ closer :: after)) (passes : Passes stop front)
    (closed : Closed front) (found : stop opener.kind = true) (curly : opener.kind = .leftCurly)
    (closes : closer.kind = .rightCurly) (inside : opener.inside = some inner.length)
    (content : Closed inner) (rest : Closed after)

theorem view {ts : List Token} (only : ∀ k, stop k = true → endsPrelude k = true)
    (h : Closed ts) : View stop ts := by
  obtain ⟨front, back, rfl, passes, closed, later, first⟩ := h.exists_passes stop
  cases back with
  | nil =>
    rw [List.append_nil]
    exact .missing passes
  | cons d ds =>
    have found := first d rfl
    by_cases curly : d.kind = .leftCurly
    · obtain ⟨inner, closer, rest, rfl, paired, inside, content, rest⟩ :=
        later.of_opener (by rw [curly]; rfl)
      rw [curly] at paired
      exact .block rfl passes closed found curly (Option.some.inj paired).symm inside content rest
    · have semicolon : d.kind = .semicolon := by
        have ends := only d.kind found
        rw [endsPrelude, Bool.or_eq_true, decide_eq_true_eq, decide_eq_true_eq] at ends
        exact ends.resolve_left curly
      exact .semicolon rfl passes closed found semicolon (later.of_leaf (by rw [semicolon]; rfl))

end Item

end Grammar

end Stylesheet
