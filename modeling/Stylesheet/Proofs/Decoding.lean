import Stylesheet.Encoding.Sniff

/-!
# Decoding in portions

What a decoder adds for a portion depends only on the bytes before it, so bytes may be cut into
portions anywhere: inside a character, inside a byte order mark, or nowhere at all.

The encoding is found out from a front part of the bytes. A byte order mark takes three bytes, and a
`@charset` rule is looked for in a limited number of them, so more bytes change nothing.
-/

namespace Stylesheet

namespace Encoding

variable {legacy : Legacy}

theorem textOf_append (a b : List (Option Char)) : textOf (a ++ b) = textOf a ++ textOf b := by
  rw [textOf, List.map_append, String.ofList_append]
  rfl

theorem dropMark_append {a : List (Option Char)} (h : a ≠ []) (b : List (Option Char)) :
    dropMark (a ++ b) = dropMark a ++ b := by
  obtain ⟨c, a, rfl⟩ := List.exists_cons_of_ne_nil h
  cases c with
  | none => rfl
  | some c =>
    rw [List.cons_append, dropMark, dropMark]
    split
    · rfl
    · rfl

namespace Decoder

theorem passed_append (d : Decoder legacy) (u : Unfinished legacy) (a b : List (Option Char)) :
    d.passed (a ++ b) = d.passed a ++ passed ⟨u, d.atStart && a.isEmpty⟩ b := by
  obtain ⟨unfinished, atStart⟩ := d
  cases atStart with
  | false => rfl
  | true =>
    cases a with
    | nil => rfl
    | cons c a => exact dropMark_append (List.cons_ne_nil c a) b

/-- Two portions may as well come as one. -/
theorem push_append (d : Decoder legacy) (a b : Bytes) :
    d.push (a ++ b) = (((d.push a).1.push b).1, (d.push a).2 ++ ((d.push a).1.push b).2) := by
  have more : (d.unfinished.run (a ++ b)).2.isEmpty =
      ((d.unfinished.run a).2.isEmpty && ((d.unfinished.run a).1.run b).2.isEmpty) := by
    rw [Unfinished.run_append, Bool.eq_iff_iff]
    simp
  simp only [push]
  rw [more, Unfinished.run_append, passed_append d (d.unfinished.run a).1, textOf_append,
    Bool.and_assoc]

end Decoder

/-- A decoder that has got all bytes and then the end has decoded them. -/
theorem decode_eq {e : Encoding} {bytes : Bytes} {d : Decoder legacy} {text : String}
    (h : (Decoder.start e legacy).push bytes = (d, text)) :
    text ++ d.finish = e.decode bytes legacy := by
  rw [decode, h]

/-! ### Finding out the encoding -/

/-- Three bytes decide about a byte order mark. -/
theorem ofMark?_append {a : Bytes} (h : 3 ≤ a.length) (b : Bytes) :
    ofMark? (a ++ b) = ofMark? a := by
  obtain ⟨x, y, z, a, rfl⟩ : ∃ x y z r, a = x :: y :: z :: r := by
    match a, h with
    | x :: y :: z :: r, _ => exact ⟨x, y, z, r, rfl⟩
  simp only [List.cons_append]
  unfold ofMark?
  split
  · rename_i heq
    cases heq
    rfl
  · rename_i heq
    cases heq
    rfl
  · rename_i heq
    cases heq
    rfl
  · split <;> simp_all

end Encoding

variable {a b : Bytes} (options : SniffOptions)

/-- Without a default label of its own, finding out the encoding never fails. -/
theorem exists_sniff (bytes : Bytes) (h : options.defaultLabel = none) :
    ∃ sniffed, sniff bytes options = .ok sniffed := by
  simp only [sniff, h, bind, Except.bind]
  split
  · exact ⟨_, rfl⟩
  · split
    · exact ⟨_, rfl⟩
    · split
      · exact ⟨_, rfl⟩
      · exact ⟨_, rfl⟩

/-- Bytes beyond those in which a `@charset` rule is looked for do not count. -/
theorem sniff_append (mark : 3 ≤ a.length) (h : options.maxPrescan ≤ a.length) :
    sniff (a ++ b) options = sniff a options := by
  rw [sniff, sniff, Encoding.ofMark?_append mark, List.take_append_of_le_length h]

/-- Where a label names an encoding, only a byte order mark could count more. -/
theorem sniff_append_of_label {e : Encoding} (mark : 3 ≤ a.length)
    (h : options.transportLabel.bind Encoding.ofLabel? = some e) :
    sniff (a ++ b) options = sniff a options := by
  simp only [sniff, Encoding.ofMark?_append mark, h]

end Stylesheet
