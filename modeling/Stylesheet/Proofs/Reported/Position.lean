import Mathlib.Data.List.DropRight
import Mathlib.Data.List.TakeWhile
import Stylesheet.Proofs.Encoded.Utf8
import Stylesheet.Proofs.Position

/-!
# Lines and columns of places

The position of a place is a matter of the text in front of it: its line is one more than the number
of line feeds there, as bytes or as characters, and its column is one more than the number of
characters behind the last of them. The line index, which finds the line among all that the text
has, gives just this at every place where the text can be cut, and the end of the text beyond it.
-/

namespace Stylesheet.Text

open String (utf8EncodeChar)

variable {c : Char} {cs front back : List Char} {text : String} {offset : Nat}

/-- The characters behind the last line feed. -/
def lastLine (cs : List Char) : List Char := cs.rtakeWhile (· ≠ '\n')

/-- The line and the column behind some characters: one more than the number of line feeds among
their bytes, and one more than the number of characters behind the last line feed. -/
def Position.behind (front : List Char) : Position :=
  ⟨1 + (front.flatMap utf8EncodeChar).count 0x0A, 1 + (lastLine front).length⟩

/-! ### Bytes -/

theorem feed_ne_ofNat {n : Nat} (high : 0x80 ≤ n) (low : n < 0x100) :
    (0x0A : UInt8) ≠ UInt8.ofNat n := by
  intro same
  have value := congrArg UInt8.toNat same
  rw [UInt8.toNat_ofNat_of_lt' low] at value
  have feed : (0x0A : UInt8).toNat = 0x0A := rfl
  omega

/-- The bytes of a character beyond ASCII are no line feeds. -/
theorem feed_notMem_encode (h : 0x80 ≤ c.toNat) : 0x0A ∉ utf8EncodeChar c := by
  have valid : c.toNat < 0xD800 ∨ 0xDFFF < c.toNat ∧ c.toNat < 0x110000 := c.valid
  by_cases two : c.toNat < 0x800
  · rw [Encoding.Utf8.encode_two h two]
    simp only [List.mem_cons, List.not_mem_nil, or_false, not_or]
    exact ⟨feed_ne_ofNat (by omega) (by omega), feed_ne_ofNat (by omega) (by omega)⟩
  · by_cases three : c.toNat < 0x10000
    · rw [Encoding.Utf8.encode_three (by omega) three]
      simp only [List.mem_cons, List.not_mem_nil, or_false, not_or]
      exact ⟨feed_ne_ofNat (by omega) (by omega), feed_ne_ofNat (by omega) (by omega),
        feed_ne_ofNat (by omega) (by omega)⟩
    · rw [Encoding.Utf8.encode_four (by omega)]
      simp only [List.mem_cons, List.not_mem_nil, or_false, not_or]
      exact ⟨feed_ne_ofNat (by omega) (by omega), feed_ne_ofNat (by omega) (by omega),
        feed_ne_ofNat (by omega) (by omega), feed_ne_ofNat (by omega) (by omega)⟩

/-- The byte of a line feed is part of no other character. -/
theorem count_encode (c : Char) : (utf8EncodeChar c).count 0x0A = [c].count '\n' := by
  by_cases ascii : c.toNat < 0x80
  · rw [Encoding.Utf8.encode_one ascii]
    by_cases feed : c = '\n'
    · subst feed
      rfl
    · rw [List.count_singleton, List.count_singleton, if_neg, if_neg (by simpa using feed)]
      rw [beq_iff_eq]
      intro same
      have value := congrArg UInt8.toNat same
      rw [UInt8.toNat_ofNat_of_lt' (Nat.lt_trans ascii (by decide))] at value
      exact feed (Char.toNat_inj.mp value)
  · have wide : 0x80 ≤ c.toNat := Nat.le_of_not_lt ascii
    rw [List.count_eq_zero.mpr (feed_notMem_encode wide), List.count_singleton, if_neg]
    rw [beq_iff_eq]
    rintro rfl
    exact ascii (by decide)

theorem count_utf8 (cs : List Char) : (cs.flatMap utf8EncodeChar).count 0x0A = cs.count '\n' := by
  induction cs with
  | nil => rfl
  | cons c cs ih =>
    rw [List.flatMap_cons, List.count_append, count_encode, ih, ← List.count_append,
      List.singleton_append]

/-! ### Lines -/

/-- All characters start before the end. -/
theorem charsBefore_width (cs : List Char) : charsBefore (width cs) cs = cs.length := by
  induction cs with
  | nil => rfl
  | cons c cs ih =>
    have pos := c.utf8Size_pos
    obtain ⟨n, hn⟩ := Nat.exists_eq_succ_of_ne_zero (n := width (c :: cs)) (by rw [width_cons]; omega)
    have rest : n + 1 - c.utf8Size = width cs := by
      rw [← Nat.succ_eq_add_one, ← hn, width_cons]
      omega
    rw [hn, charsBefore, rest, ih, List.length_cons, Nat.add_comm]

namespace LineIndex

theorem length_afterFeeds (offset : Nat) (cs : List Char) :
    (afterFeeds offset cs).length = cs.count '\n' := by
  induction cs generalizing offset with
  | nil => rfl
  | cons c cs ih =>
    rw [afterFeeds, List.count_cons]
    split
    · rename_i feed
      rw [List.length_cons, ih, feed]
      rfl
    · rename_i other
      rw [ih, if_neg (by simpa using other), Nat.add_zero]

/-- The last of the lines that start in a text holds the characters behind the last line feed. -/
theorem getLast_lines (offset : Nat) (cs : List Char) :
    ∃ l, (⟨offset, cs⟩ :: afterFeeds offset cs).getLast? = some l ∧ l.rest = lastLine cs := by
  induction cs using List.reverseRecOn with
  | nil => exact ⟨_, rfl, rfl⟩
  | append_singleton cs c ih =>
    obtain ⟨l, last, rest⟩ := ih
    have lines : ⟨offset, cs ++ [c]⟩ :: afterFeeds offset (cs ++ [c]) =
        (⟨offset, cs⟩ :: afterFeeds offset cs).map (Line.extend [c]) ++
          afterFeeds (offset + width cs) [c] := by
      rw [afterFeeds_append]
      rfl
    rw [lines, lastLine]
    by_cases feed : c = '\n'
    · rw [List.rtakeWhile_concat_neg _ _ _ (by simpa using feed), afterFeeds, if_pos feed]
      exact ⟨_, List.getLast?_concat, rfl⟩
    · rw [List.rtakeWhile_concat_pos _ _ _ (by simpa using feed), afterFeeds, if_neg feed,
        afterFeeds, List.append_nil, List.getLast?_map, last]
      exact ⟨_, rfl, congrArg (· ++ [c]) rest⟩

/-- The end of a text has the line and the column behind all of it. -/
theorem position_end (text : String) :
    (ofString text).position text.utf8ByteSize = .behind text.toList := by
  obtain ⟨l, last, rest⟩ := getLast_lines 0 text.toList
  have ends (m : Line) (hm : m ∈ (ofString text).lines) := mem_lines hm
  have reached : (ofString text).lines.takeWhile (fun l => l.start ≤ text.utf8ByteSize) =
      (ofString text).lines := by
    refine List.takeWhile_eq_self_iff.mpr fun m hm => ?_
    rw [decide_eq_true_eq, ← ends m hm]
    exact Nat.le_add_right _ _
  have stop : text.utf8ByteSize - l.start = width l.rest := by
    rw [← ends l (List.mem_of_getLast? last), Nat.add_sub_cancel_left]
  have found : (ofString text).lines.getLast? = some l := last
  have line : (ofString text).lines.length = 1 + (afterFeeds 0 text.toList).length :=
    Nat.add_comm _ 1
  rw [position, size_ofString, Nat.min_self, reached, found]
  dsimp only
  rw [line, stop, charsBefore_width, rest, Position.behind, count_utf8, length_afterFeeds]

/-- Every place where a text can be cut has the line and the column behind the text in front of it.
Offsets beyond the text count as its end. -/
theorem position_behind (split : text.toList = front ++ back)
    (place : min offset text.utf8ByteSize = width front) :
    (ofString text).position offset = .behind front := by
  have whole : text = String.ofList front ++ String.ofList back := by
    rw [← String.toList_inj, split, String.toList_append, String.toList_ofList,
      String.toList_ofList]
  have within : (ofString text).position offset = (ofString text).position (width front) := by
    rw [← place, position, position, size_ofString, Nat.min_assoc, Nat.min_self]
  have ends := position_end (String.ofList front)
  rw [String.toList_ofList] at ends
  rw [within, whole]
  exact (position_append _ (Nat.le_refl _)).trans ends

end LineIndex

end Stylesheet.Text
