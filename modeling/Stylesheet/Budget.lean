/-!
# Budgets

A budget is a limit on something that a call measures. Limits are inclusive, and an absent limit is
no limit. Exceeding one ends the call with the name of the budget, the limit and the measure.

How long a call takes does not follow from its input, so what the clock shows is part of the input of
every call that has a limit on time.
-/

namespace Stylesheet

/-- What can be limited. -/
inductive Budget where
  | maxInputBytes | maxBufferedBytes | maxTokens | maxNodes | maxDepth | maxTraceEvents
  | maxTraceBytes | maxTimeMs
  deriving DecidableEq, Repr, Inhabited

namespace Budget

/-- The name a budget is shown by. -/
def name : Budget → String
  | maxInputBytes => "maxInputBytes"
  | maxBufferedBytes => "maxBufferedBytes"
  | maxTokens => "maxTokens"
  | maxNodes => "maxNodes"
  | maxDepth => "maxDepth"
  | maxTraceEvents => "maxTraceEvents"
  | maxTraceBytes => "maxTraceBytes"
  | maxTimeMs => "maxTimeMs"

/-- All budgets. -/
def all : List Budget :=
  [maxInputBytes, maxBufferedBytes, maxTokens, maxNodes, maxDepth, maxTraceEvents, maxTraceBytes,
    maxTimeMs]

/-- The budget with a given name. -/
def ofName? (name : String) : Option Budget := all.find? fun b => b.name = name

end Budget

/-- A measure that is greater than its limit. -/
structure BudgetExceeded where
  budget : Budget
  limit : Nat
  actual : Nat
  deriving DecidableEq, Repr, Inhabited

/-- The wording of an exceeded budget. -/
def BudgetExceeded.message (e : BudgetExceeded) : String :=
  s!"budget {e.budget.name} exceeded: limit {e.limit}, actual {e.actual}"

/-- Fail if a measure is greater than its limit. -/
def Budget.enforce (budget : Budget) (limit : Option Nat) (actual : Nat) :
    Except BudgetExceeded Unit :=
  match limit with
  | some limit => if limit < actual then .error ⟨budget, limit, actual⟩ else .ok ()
  | none => .ok ()

/-- The limits of one call. -/
structure Budgets where
  maxInputBytes : Option Nat := none
  maxBufferedBytes : Option Nat := none
  maxTokens : Option Nat := none
  maxNodes : Option Nat := none
  maxDepth : Option Nat := none
  maxTraceEvents : Option Nat := none
  maxTraceBytes : Option Nat := none
  maxTimeMs : Option Nat := none
  deriving DecidableEq, Repr, Inhabited

namespace Budgets

/-- The limit of a budget. -/
def limit (b : Budgets) : Budget → Option Nat
  | .maxInputBytes => b.maxInputBytes
  | .maxBufferedBytes => b.maxBufferedBytes
  | .maxTokens => b.maxTokens
  | .maxNodes => b.maxNodes
  | .maxDepth => b.maxDepth
  | .maxTraceEvents => b.maxTraceEvents
  | .maxTraceBytes => b.maxTraceBytes
  | .maxTimeMs => b.maxTimeMs

/-- Fail if a measure is greater than the limit of its budget. -/
def check (b : Budgets) (budget : Budget) (actual : Nat) : Except BudgetExceeded Unit :=
  budget.enforce (b.limit budget) actual

end Budgets

/-- What the clock shows whenever a call looks at it, in milliseconds. A clock that is stopped at zero
exceeds no limit. -/
structure Clock where
  /-- How long after a stream was first asked for a chunk the chunk at an index was there. -/
  chunk : Nat → Nat := fun _ => 0
  /-- How long after a text was handed in its tokens were there. -/
  tokens : Nat := 0
  /-- How long after a text was handed in its tree had been built and measured. -/
  tree : Nat := 0
  deriving Inhabited

namespace Budget

theorem enforce_eq_ok_iff {b : Budget} {limit : Option Nat} {actual : Nat} :
    b.enforce limit actual = .ok () ↔ ∀ l, limit = some l → actual ≤ l := by
  unfold enforce
  cases limit with
  | none => simp
  | some l =>
    by_cases h : l < actual
    · simp [h]
    · simp [h]; omega

theorem enforce_eq_error_iff {b : Budget} {limit : Option Nat} {actual : Nat} {e : BudgetExceeded} :
    b.enforce limit actual = .error e ↔
      limit = some e.limit ∧ e.limit < actual ∧ e.budget = b ∧ e.actual = actual := by
  obtain ⟨eb, el, ea⟩ := e
  unfold enforce
  cases limit with
  | none => simp
  | some l =>
    by_cases h : l < actual
    · simp only [h, ↓reduceIte, Except.error.injEq, BudgetExceeded.mk.injEq, Option.some.injEq]
      constructor
      · rintro ⟨rfl, rfl, rfl⟩; exact ⟨rfl, h, rfl, rfl⟩
      · rintro ⟨rfl, _, rfl, rfl⟩; exact ⟨rfl, rfl, rfl⟩
    · simp only [h, ↓reduceIte, reduceCtorEq, Option.some.injEq, false_iff]
      rintro ⟨rfl, h', _⟩
      exact h h'

end Budget

/-- Without a limit on time it does not matter what the clock shows. -/
theorem Budgets.check_untimed {budgets : Budgets} (untimed : budgets.maxTimeMs = none)
    (elapsed : Nat) : budgets.check .maxTimeMs elapsed = .ok () := by
  rw [check, limit, untimed, Budget.enforce]

end Stylesheet
