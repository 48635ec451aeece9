import Stylesheet.Text.Capital

/-!
# Lower case

Some names are compared in lower case, for which Unicode has three rules: every capital letter
becomes its small letter, `İ` becomes an `i` and a dot, and `Σ` becomes `ς` where it ends a word.
-/

namespace Stylesheet.Text

/-- A character in lower case, wherever it stands. -/
def lowerChar (c : Char) : List Char :=
  if c.toNat < 0x80 then [c.toLower]
  else if c = 'İ' then ['i', '\u0307']
  else
    match capitalRuns.find? fun r => r.holds c.toNat with
    | some r => [Char.ofNat (r.small + (c.toNat - r.first))]
    | none => [c]

/-- Tells whether a letter with case is the first of some characters that is not passed over. -/
def letterNext (cs : List Char) : Bool := (cs.dropWhile isCaseIgnorable).head?.any isCased

/-- Lower characters; `before` are those in front of them, last first. A word ends where a letter
stands before and none after. -/
def lowerFrom (before : List Char) : List Char → List Char
  | [] => []
  | c :: cs =>
    (if c = 'Σ' && letterNext before && !letterNext cs then ['ς'] else lowerChar c) ++
      lowerFrom (c :: before) cs

/-- A text in lower case. -/
def lower (s : String) : String := String.ofList (lowerFrom [] s.toList)

/-- Texts without capital `Σ` are lowered character by character. -/
theorem lowerFrom_eq_flatMap {before cs : List Char} (h : 'Σ' ∉ cs) :
    lowerFrom before cs = cs.flatMap lowerChar := by
  induction cs generalizing before with
  | nil => rfl
  | cons c cs ih =>
    simp only [List.mem_cons, not_or] at h
    have hc : c ≠ 'Σ' := fun e => h.1 e.symm
    simp [lowerFrom, hc, ih h.2]

end Stylesheet.Text
