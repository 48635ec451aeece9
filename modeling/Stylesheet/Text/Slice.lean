/-!
# Cutting texts at byte offsets

A text can be cut only between two of its characters, so an offset that falls inside one cuts
nothing.
-/

namespace Stylesheet.Text

/-- The characters that make up the first `n` bytes, and the others. -/
def splitBytes? : Nat → List Char → Option (List Char × List Char)
  | 0, cs => some ([], cs)
  | _ + 1, [] => none
  | n + 1, c :: cs =>
    if c.utf8Size ≤ n + 1 then
      (splitBytes? (n + 1 - c.utf8Size) cs).map fun (front, back) => (c :: front, back)
    else none

/-- The part of a text between two byte offsets. -/
def slice? (text : String) (start stop : Nat) : Option String := do
  guard (start ≤ stop)
  let (_, rest) ← splitBytes? start text.toList
  let (front, _) ← splitBytes? (stop - start) rest
  some (String.ofList front)

theorem append_of_splitBytes? {n : Nat} {cs front back : List Char}
    (h : splitBytes? n cs = some (front, back)) : front ++ back = cs := by
  fun_induction splitBytes? n cs generalizing front back with
  | case1 cs => simp_all
  | case2 => simp at h
  | case3 n c cs _ ih =>
    simp only [Option.map_eq_some_iff, Prod.exists, Prod.mk.injEq] at h
    obtain ⟨f, b, hs, rfl, rfl⟩ := h
    simp [ih hs]
  | case4 => simp at h

end Stylesheet.Text
