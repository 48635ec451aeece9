import Stylesheet.Proofs.Text
import Stylesheet.Text.Position

/-!
# Places in the front of a text

Lines and columns are counted from the start of a text, so what follows a place does not move it.
-/

namespace Stylesheet.Text

theorem byteLength_eq_width (cs : List Char) : byteLength cs = width cs := by
  induction cs with
  | nil => rfl
  | cons c cs ih => rw [byteLength, width_cons, ih]

/-- Characters beyond the first `n` bytes are not counted. -/
theorem charsBefore_append {n : Nat} {cs : List Char} (ds : List Char) (h : n ≤ width cs) :
    charsBefore n (cs ++ ds) = charsBefore n cs := by
  induction cs generalizing n with
  | nil =>
    obtain rfl := Nat.le_zero.mp h
    rw [charsBefore, charsBefore]
  | cons c cs ih =>
    cases n with
    | zero => rw [charsBefore, charsBefore]
    | succ n =>
      rw [width_cons] at h
      rw [List.cons_append, charsBefore, charsBefore, ih (by omega)]

/-- The line, with more characters behind it. -/
def Line.extend (ds : List Char) (l : Line) : Line := ⟨l.start, l.rest ++ ds⟩

namespace LineIndex

variable {offset : Nat} {cs ds : List Char}

@[simp] theorem size_ofString (text : String) : (ofString text).size = text.utf8ByteSize :=
  (byteLength_eq_width text.toList).trans (width_toList text)

theorem afterFeeds_append (offset : Nat) (cs ds : List Char) :
    afterFeeds offset (cs ++ ds) =
      (afterFeeds offset cs).map (Line.extend ds) ++ afterFeeds (offset + width cs) ds := by
  induction cs generalizing offset with
  | nil => rfl
  | cons c cs ih =>
    rw [List.cons_append, afterFeeds, afterFeeds, width_cons, ← Nat.add_assoc]
    split
    · rw [List.map_cons, List.cons_append, ih]
      rfl
    · exact ih _

/-- Later lines start behind the first one, and all lines end with the text. -/
theorem mem_afterFeeds {l : Line} (h : l ∈ afterFeeds offset cs) :
    offset < l.start ∧ l.start + width l.rest = offset + width cs := by
  induction cs generalizing offset with
  | nil => cases h
  | cons c cs ih =>
    have pos := c.utf8Size_pos
    have later (h : l ∈ afterFeeds (offset + c.utf8Size) cs) :
        offset < l.start ∧ l.start + width l.rest = offset + width (c :: cs) := by
      obtain ⟨start, ends⟩ := ih h
      rw [width_cons]
      omega
    rw [afterFeeds] at h
    split at h
    · obtain rfl | h := List.mem_cons.mp h
      · rw [width_cons]
        dsimp only
        omega
      · exact later h
    · exact later h

variable {x : String}

theorem lines_append (x y : String) :
    (ofString (x ++ y)).lines =
      (ofString x).lines.map (Line.extend y.toList) ++ afterFeeds x.utf8ByteSize y.toList := by
  rw [ofString, String.toList_append, afterFeeds_append, Nat.zero_add, width_toList]
  rfl

theorem mem_lines {l : Line} (h : l ∈ (ofString x).lines) :
    l.start + width l.rest = x.utf8ByteSize := by
  obtain rfl | h := List.mem_cons.mp h
  · exact (Nat.zero_add _).trans (width_toList x)
  · rw [(mem_afterFeeds h).2, Nat.zero_add, width_toList]

/-- A place in the front of a text is on the same line and column as in the front alone. -/
theorem position_append (y : String) (h : offset ≤ x.utf8ByteSize) :
    (ofString (x ++ y)).position offset = (ofString x).position offset := by
  have whole : min offset (ofString (x ++ y)).size = offset := by
    rw [size_ofString, String.utf8ByteSize_append]
    omega
  have front : min offset (ofString x).size = offset := by
    rw [size_ofString]
    omega
  -- The lines that start in the other text are not reached.
  have beyond :
      (afterFeeds x.utf8ByteSize y.toList).takeWhile (fun l => l.start ≤ offset) = [] := by
    cases later : afterFeeds x.utf8ByteSize y.toList with
    | nil => rfl
    | cons l ls =>
      have starts := (mem_afterFeeds (later ▸ List.mem_cons_self : l ∈ _)).1
      rw [List.takeWhile_cons_of_neg (by rw [decide_eq_true_eq]; omega)]
  have reached : (ofString (x ++ y)).lines.takeWhile (fun l => l.start ≤ offset) =
      ((ofString x).lines.takeWhile fun l => l.start ≤ offset).map (Line.extend y.toList) := by
    rw [lines_append, List.takeWhile_append, beyond, List.append_nil, List.takeWhile_map]
    split
    · rename_i all
      rw [List.length_map, List.length_map] at all
      exact congrArg _ (List.takeWhile_prefix _ |>.eq_of_length all).symm
    · rfl
  rw [position, position, whole, front, reached, List.getLast?_map, List.length_map]
  cases last : ((ofString x).lines.takeWhile fun l => l.start ≤ offset).getLast? with
  | none => rfl
  | some l =>
    have found : l ∈ (ofString x).lines :=
      (List.takeWhile_prefix _).subset (List.mem_of_getLast? last)
    have ends := mem_lines found
    exact congrArg (fun n => Position.mk _ (1 + n)) (charsBefore_append _ (by
      show offset - l.start ≤ width l.rest
      omega))

end LineIndex

end Stylesheet.Text
