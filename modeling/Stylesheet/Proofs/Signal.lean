import Mathlib.Data.Prod.Lex
import Stylesheet.Proofs.Limits.Reading
import Stylesheet.Proofs.Regular.Document
import Stylesheet.Proofs.Verbatim.Node
import Stylesheet.Signal

/-!
# What signals say, and which of them are kept

A style rule has one signal, wherever it is nested, and its position counts all style rules before
it. What the options decide is only what becomes of the signals that are not supported: if they are
kept, there is one for every style rule; if they are left out, the others are the same as before,
positions included; and if they are refused, the first of them is what the failure reports.
-/

namespace Stylesheet

/-! ### The greatest specificity -/

namespace Specificity

/-- The counts in the order in which they are compared. -/
def key (s : Specificity) : ℕ ×ₗ ℕ ×ₗ ℕ := toLex (s.ids, toLex (s.classes, s.types))

theorem le_iff {s t : Specificity} : s.le t = true ↔ s.key ≤ t.key := by
  simp [le, key, Prod.Lex.toLex_le_toLex]

theorem le_max_left (s t : Specificity) : s.le (s.max t) = true := by
  unfold max
  split
  · assumption
  · exact le_refl s

theorem le_max_right (s t : Specificity) : t.le (s.max t) = true := by
  unfold max
  split
  · exact le_refl t
  · rename_i less
    exact (Bool.or_eq_true_iff.mp (le_total s t)).resolve_left less

end Specificity

namespace RuleSignal

end RuleSignal

/-! ### Style rules -/

namespace Signal

/-- A style rule is a rule that has a list of selectors. -/
theorem styleRule?_eq_some {n : Node Mark} {pair : Node Mark × Node Mark}
    (h : styleRule? n = some pair) : ∃ list, pair = (n, list) ∧ n.kind = .rule ∧
      list ∈ n.children ∧ list.kind = .selectorList := by
  unfold styleRule? at h
  split at h
  · rename_i kind
    obtain ⟨list, found, rfl⟩ := Option.map_eq_some_iff.mp h
    refine ⟨list, rfl, kind, List.mem_of_find?_eq_some found, ?_⟩
    simpa using List.find?_some found
  · cases h

section

variable {options : SignalOptions} {order : Nat} {pairs : List (Node Mark × Node Mark)}

/-- The signals of all style rules, the first of which has the position `order`. -/
def all (order : Nat) (pairs : List (Node Mark × Node Mark)) : List RuleSignal :=
  (pairs.zipIdx order).map fun x => rule x.2 x.1

theorem all_cons (order : Nat) (pair : Node Mark × Node Mark)
    (pairs : List (Node Mark × Node Mark)) :
    all order (pair :: pairs) = rule order pair :: all (order + 1) pairs := rfl

theorem collect_included (lenient : options.strict = false) (kept : options.includeUnsupported) :
    collect options order pairs = .ok (all order pairs) := by
  induction pairs generalizing order with
  | nil => rfl
  | cons pair pairs ih =>
    rw [collect, lenient, kept, ih, all_cons]
    simp [Except.map]

theorem collect_skipped (lenient : options.strict = false)
    (dropped : options.includeUnsupported = false) :
    collect options order pairs = .ok ((all order pairs).filter RuleSignal.supported) := by
  induction pairs generalizing order with
  | nil => rfl
  | cons pair pairs ih =>
    rw [collect, lenient, dropped, ih, all_cons]
    cases supported : (rule order pair).supported with
    | true => simp [supported, Except.map]
    | false => simp [supported]

theorem collect_refused (strict : options.strict) :
    collect options order pairs =
      match (all order pairs).find? fun r => !r.supported with
      | some r => .error (.unsupported r.id r.selectorText)
      | none => .ok (all order pairs) := by
  induction pairs generalizing order with
  | nil => rfl
  | cons pair pairs ih =>
    rw [collect, strict, ih, all_cons]
    cases supported : (rule order pair).supported with
    | true =>
      simp only [List.find?_cons, supported]
      cases (all (order + 1) pairs).find? fun r => !r.supported <;> rfl
    | false => simp [supported]

/-- Whatever the options are, each signal is that of a style rule. -/
theorem exists_rule {rs : List RuleSignal} (h : collect options order pairs = .ok rs) :
    ∀ r ∈ rs, ∃ i, ∃ pair ∈ pairs, r = rule i pair := by
  intro r hr
  have found : r ∈ all order pairs := by
    cases strict : options.strict with
    | true =>
      rw [collect_refused strict] at h
      split at h
      · cases h
      · cases h
        exact hr
    | false =>
      cases kept : options.includeUnsupported with
      | true =>
        rw [collect_included strict kept] at h
        cases h
        exact hr
      | false =>
        rw [collect_skipped strict kept] at h
        cases h
        exact List.mem_of_mem_filter hr
  obtain ⟨⟨pair, i⟩, numbered, rfl⟩ := List.mem_map.mp found
  exact ⟨i, pair, List.fst_mem_of_mem_zipIdx numbered, rfl⟩

end

end Signal

end Stylesheet
