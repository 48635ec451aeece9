import Stylesheet.Selector

/-!
# Specificity

The specificity of a selector counts its ids, its classes and attributes, and its types, and is
compared in this order. The counts are natural numbers. Counters of 32 bits hold the same unless a
selector has more than 4294967295 simple selectors of one sort.
-/

namespace Stylesheet

/-- How specific a selector is. -/
structure Specificity where
  ids : Nat := 0
  classes : Nat := 0
  types : Nat := 0
  deriving DecidableEq, Repr, Inhabited

namespace Specificity

/-- The sum of two specificities. -/
def add (s t : Specificity) : Specificity :=
  ⟨s.ids + t.ids, s.classes + t.classes, s.types + t.types⟩

/-- At most as specific. -/
def le (s t : Specificity) : Bool :=
  s.ids < t.ids ||
    (s.ids = t.ids && (s.classes < t.classes || (s.classes = t.classes && s.types ≤ t.types)))

/-- The more specific of two. -/
def max (s t : Specificity) : Specificity := if s.le t then t else s

/-- The greatest of a list. -/
def greatest? : List Specificity → Option Specificity
  | [] => none
  | s :: ss => some (ss.foldl max s)

/-- What a simple selector adds. -/
def ofSimple : SimpleSelector → Specificity
  | .universal => {}
  | .type _ => ⟨0, 0, 1⟩
  | .id _ => ⟨1, 0, 0⟩
  | .className _ | .attr .. => ⟨0, 1, 0⟩

theorem le_refl (s : Specificity) : s.le s := by simp [le]

theorem le_total (s t : Specificity) : s.le t || t.le s := by
  simp only [le, Bool.or_eq_true, Bool.and_eq_true, decide_eq_true_eq]
  omega

theorem le_trans {s t u : Specificity} (h : s.le t) (h' : t.le u) : s.le u := by
  simp only [le, Bool.or_eq_true, Bool.and_eq_true, decide_eq_true_eq] at *
  omega

end Specificity

/-- The specificity of a selector. Combinators add nothing. -/
def Selector.specificity (s : Selector) : Specificity :=
  (s.compounds.flatten.map Specificity.ofSimple).foldl Specificity.add {}

end Stylesheet
