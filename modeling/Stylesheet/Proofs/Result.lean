import Mathlib.Data.List.Forall2

/-!
# Steps that may fail

A sequence of steps has a result if every step has one, and otherwise fails the way its first
failing step does.
-/

namespace Stylesheet

variable {α β ε : Type}

theorem bind_eq_ok_iff {x : Except ε α} {f : α → Except ε β} {b : β} :
    x >>= f = .ok b ↔ ∃ a, x = .ok a ∧ f a = .ok b := by
  cases x with
  | error e => simp [bind, Except.bind]
  | ok a => simp [bind, Except.bind]

/-- A step for each element of a list succeeds if all of them do. -/
theorem mapM_eq_ok_iff {f : α → Except ε β} {as : List α} {bs : List β} :
    as.mapM f = .ok bs ↔ List.Forall₂ (fun a b => f a = .ok b) as bs := by
  induction as generalizing bs with
  | nil =>
    rw [List.mapM_nil, List.forall₂_nil_left_iff]
    exact ⟨fun h => (Except.ok.inj h).symm, fun h => congrArg Except.ok h.symm⟩
  | cons a as ih =>
    simp only [List.mapM_cons, bind_eq_ok_iff, ih, List.forall₂_cons_left_iff]
    constructor
    · rintro ⟨b, hb, bs, hbs, h⟩
      exact ⟨b, bs, hb, hbs, (Except.ok.inj h).symm⟩
    · rintro ⟨b, bs, hb, hbs, rfl⟩
      exact ⟨b, hb, bs, hbs, rfl⟩

/-- The first step that fails is the one that counts. -/
theorem mapM_eq_error {f : α → Except ε β} {front back : List α} {a : α} {e : ε}
    (before : ∀ x ∈ front, ∃ b, f x = .ok b) (h : f a = .error e) :
    (front ++ a :: back).mapM f = .error e := by
  induction front with
  | nil => rw [List.nil_append, List.mapM_cons, h]; rfl
  | cons x front ih =>
    obtain ⟨b, hb⟩ := before x List.mem_cons_self
    rw [List.cons_append, List.mapM_cons, hb, ih fun y hy => before y (List.mem_cons_of_mem x hy)]
    rfl

end Stylesheet
