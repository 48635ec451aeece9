import Stylesheet.Proofs.Encoded.Form

/-!
# The meaning of UTF-8

A decoder for UTF-8 holds the bytes of a sequence that is not complete yet. What it holds opens the
form of some character, and it takes a further byte exactly if the longer sequence still does; else
what it holds is malformed, and the byte is read anew. So each malformed sequence is the longest
part that opens a character, or a single byte if none does.
-/

namespace Stylesheet.Encoding.Utf8

open String (utf8EncodeChar)

/-- The form of some character starts with these bytes. -/
def Opens (part : Bytes) : Prop := ∃ c, part <+: utf8EncodeChar c

/-- Bytes that are one malformed sequence in front of others: no character can be read, and they are
all bytes in front that open a character, or one byte. -/
structure Malformed (part rest : Bytes) : Prop where
  ne_nil : part ≠ []
  unreadable : ∀ c, ¬ utf8EncodeChar c <+: part ++ rest
  opens : Opens part ∨ part.length = 1
  longest : ∀ b ∈ rest.head?, ¬ Opens (part ++ [b])

/-- UTF-8. -/
def form : Form := ⟨utf8EncodeChar, Malformed⟩

theorem Opens.left {a b : Bytes} (h : Opens (a ++ b)) : Opens a := by
  obtain ⟨c, hc⟩ := h
  exact ⟨c, (List.prefix_append a b).trans hc⟩

/-! ### The forms of characters -/

section

variable {c : Char}

theorem encode_one (h : c.toNat < 0x80) : utf8EncodeChar c = [UInt8.ofNat c.toNat] := by
  have h : c.val.toNat < 0x80 := h
  rw [utf8EncodeChar, if_pos (by omega)]
  rfl

theorem encode_two (h : 0x80 ≤ c.toNat) (h' : c.toNat < 0x800) :
    utf8EncodeChar c = [UInt8.ofNat (c.toNat / 64 + 0xC0), UInt8.ofNat (c.toNat % 64 + 0x80)] := by
  have h : 0x80 ≤ c.val.toNat := h
  have h' : c.val.toNat < 0x800 := h'
  have high : c.val.toNat / 64 % 0x20 = c.val.toNat / 64 := Nat.mod_eq_of_lt (by omega)
  rw [utf8EncodeChar, if_neg (by omega), if_pos (by omega), high]
  rfl

theorem encode_three (h : 0x800 ≤ c.toNat) (h' : c.toNat < 0x10000) :
    utf8EncodeChar c = [UInt8.ofNat (c.toNat / 4096 + 0xE0),
      UInt8.ofNat (c.toNat / 64 % 64 + 0x80), UInt8.ofNat (c.toNat % 64 + 0x80)] := by
  have h : 0x800 ≤ c.val.toNat := h
  have h' : c.val.toNat < 0x10000 := h'
  have high : c.val.toNat / 4096 % 0x10 = c.val.toNat / 4096 := Nat.mod_eq_of_lt (by omega)
  rw [utf8EncodeChar, if_neg (by omega), if_neg (by omega), if_pos (by omega), high]
  rfl

theorem encode_four (h : 0x10000 ≤ c.toNat) :
    utf8EncodeChar c = [UInt8.ofNat (c.toNat / 262144 + 0xF0),
      UInt8.ofNat (c.toNat / 4096 % 64 + 0x80), UInt8.ofNat (c.toNat / 64 % 64 + 0x80),
      UInt8.ofNat (c.toNat % 64 + 0x80)] := by
  have h : 0x10000 ≤ c.val.toNat := h
  have valid : c.val.toNat < 0xD800 ∨ 0xDFFF < c.val.toNat ∧ c.val.toNat < 0x110000 := c.valid
  have high : c.val.toNat / 262144 % 0x08 = c.val.toNat / 262144 := Nat.mod_eq_of_lt (by omega)
  rw [utf8EncodeChar, if_neg (by omega), if_neg (by omega), if_neg (by omega), high]
  rfl

end

/-! ### What a decoder holds -/

/-- The least second byte behind a first one. -/
def low (a : Nat) : Nat := if a = 0xE0 then 0xA0 else if a = 0xF0 then 0x90 else 0x80

/-- The greatest second byte behind a first one. -/
def high (a : Nat) : Nat := if a = 0xED then 0x9F else if a = 0xF4 then 0x8F else 0xBF

/-- What a decoder has got since the last character, and the state that it is in: some of the two,
three or four bytes of a form. -/
inductive Held : Bytes → State → Prop
  | two {a : UInt8} (ha : 0xC2 ≤ a.toNat ∧ a.toNat < 0xE0) :
    Held [a] (.within 1 0x80 0xBF (a.toNat - 0xC0))
  | three {a : UInt8} (ha : 0xE0 ≤ a.toNat ∧ a.toNat < 0xF0) :
    Held [a] (.within 2 (low a.toNat) (high a.toNat) (a.toNat - 0xE0))
  | three_next {a b : UInt8} (ha : 0xE0 ≤ a.toNat ∧ a.toNat < 0xF0)
    (hb : low a.toNat ≤ b.toNat ∧ b.toNat ≤ high a.toNat) :
    Held [a, b] (.within 1 0x80 0xBF ((a.toNat - 0xE0) * 64 + (b.toNat - 0x80)))
  | four {a : UInt8} (ha : 0xF0 ≤ a.toNat ∧ a.toNat < 0xF5) :
    Held [a] (.within 3 (low a.toNat) (high a.toNat) (a.toNat - 0xF0))
  | four_next {a b : UInt8} (ha : 0xF0 ≤ a.toNat ∧ a.toNat < 0xF5)
    (hb : low a.toNat ≤ b.toNat ∧ b.toNat ≤ high a.toNat) :
    Held [a, b] (.within 2 0x80 0xBF ((a.toNat - 0xF0) * 64 + (b.toNat - 0x80)))
  | four_last {a b c : UInt8} (ha : 0xF0 ≤ a.toNat ∧ a.toNat < 0xF5)
    (hb : low a.toNat ≤ b.toNat ∧ b.toNat ≤ high a.toNat)
    (hc : 0x80 ≤ c.toNat ∧ c.toNat ≤ 0xBF) :
    Held [a, b, c]
      (.within 1 0x80 0xBF (((a.toNat - 0xF0) * 64 + (b.toNat - 0x80)) * 64 + (c.toNat - 0x80)))

theorem first_one {b : UInt8} (h : b.toNat < 0x80) :
    first b.toNat = (.start, [some (Char.ofNat b.toNat)]) := by
  rw [first, if_pos h]

/-- A first byte that starts no form is malformed by itself. -/
theorem first_none {b : UInt8} (h : 0x80 ≤ b.toNat) (h' : b.toNat < 0xC2 ∨ 0xF5 ≤ b.toNat) :
    first b.toNat = (.start, [none]) := by
  unfold first
  split
  · omega
  · split
    · rfl
    · simp [show ¬ b.toNat < 0xE0 by omega, show ¬ b.toNat < 0xF0 by omega,
        show ¬ b.toNat < 0xF5 by omega]

theorem first_two {b : UInt8} (h : 0xC2 ≤ b.toNat ∧ b.toNat < 0xE0) :
    first b.toNat = (.within 1 0x80 0xBF (b.toNat - 0xC0), []) := by
  rw [first, if_neg (by omega), if_neg (by omega), if_pos h.2]

theorem first_three {b : UInt8} (h : 0xE0 ≤ b.toNat ∧ b.toNat < 0xF0) :
    first b.toNat = (.within 2 (low b.toNat) (high b.toNat) (b.toNat - 0xE0), []) := by
  rw [first, if_neg (by omega), if_neg (by omega), if_neg (by omega), if_pos h.2, low, high,
    if_neg (show b.toNat ≠ 0xF0 by omega), if_neg (show b.toNat ≠ 0xF4 by omega)]

theorem first_four {b : UInt8} (h : 0xF0 ≤ b.toNat ∧ b.toNat < 0xF5) :
    first b.toNat = (.within 3 (low b.toNat) (high b.toNat) (b.toNat - 0xF0), []) := by
  rw [first, if_neg (by omega), if_neg (by omega), if_neg (by omega), if_neg (by omega),
    if_pos h.2, low, high, if_neg (show b.toNat ≠ 0xE0 by omega),
    if_neg (show b.toNat ≠ 0xED by omega)]

/-- Any other first byte is held. -/
theorem first_held {b : UInt8} (h : 0xC2 ≤ b.toNat ∧ b.toNat < 0xF5) :
    ∃ s, Held [b] s ∧ first b.toNat = (s, []) := by
  by_cases two : b.toNat < 0xE0
  · exact ⟨_, .two ⟨h.1, two⟩, first_two ⟨h.1, two⟩⟩
  · by_cases three : b.toNat < 0xF0
    · exact ⟨_, .three ⟨by omega, three⟩, first_three ⟨by omega, three⟩⟩
    · exact ⟨_, .four ⟨by omega, h.2⟩, first_four ⟨by omega, h.2⟩⟩

section

variable {part : Bytes} {owed l h v : Nat} {b : UInt8}

theorem step_last (hb : l ≤ b.toNat ∧ b.toNat ≤ h) :
    step (.within 1 l h v) b = (.start, [some (Char.ofNat (v * 64 + (b.toNat - 0x80)))]) := by
  rw [step, if_pos hb]
  rfl

theorem step_next (hb : l ≤ b.toNat ∧ b.toNat ≤ h) :
    step (.within (owed + 2) l h v) b =
      (.within (owed + 1) 0x80 0xBF (v * 64 + (b.toNat - 0x80)), []) := by
  rw [step, if_pos hb]
  rfl

theorem step_refused (hb : ¬ (l ≤ b.toNat ∧ b.toNat ≤ h)) :
    step (.within owed l h v) b = ((first b.toNat).1, none :: (first b.toNat).2) := by
  rw [step, if_neg hb]

theorem low_le (a : Nat) : 0x80 ≤ low a ∧ low a ≤ high a ∧ high a ≤ 0xBF := by
  unfold low high
  grind

/-- Second bytes are limited where the form would be too long, or stand for no character. -/
theorem second_bounds {a b : Nat} (hb : low a ≤ b ∧ b ≤ high a) :
    (0x80 ≤ b ∧ b ≤ 0xBF) ∧ (a = 0xE0 → 0xA0 ≤ b) ∧ (a = 0xED → b ≤ 0x9F) ∧
      (a = 0xF0 → 0x90 ≤ b) ∧ (a = 0xF4 → b ≤ 0x8F) := by
  unfold low high at hb
  grind

theorem ofNat_eq {n : Nat} (h : n = b.toNat) : UInt8.ofNat n = b := by
  rw [h, UInt8.ofNat_toNat]

/-- The last byte completes the form of a character. -/
theorem Held.last (held : Held part (.within 1 l h v)) (hb : l ≤ b.toNat ∧ b.toNat ≤ h) :
    ∃ c : Char, c.toNat = v * 64 + (b.toNat - 0x80) ∧ utf8EncodeChar c = part ++ [b] := by
  cases held with
  | @two a ha =>
    obtain ⟨c, hc⟩ := exists_toNat (n := (a.toNat - 0xC0) * 64 + (b.toNat - 0x80)) (by omega)
    refine ⟨c, hc, ?_⟩
    rw [encode_two (by omega) (by omega), ofNat_eq (b := a) (by omega),
      ofNat_eq (b := b) (by omega)]
    rfl
  | @three_next a x ha hx =>
    have bounds := second_bounds hx
    obtain ⟨c, hc⟩ := exists_toNat
      (n := ((a.toNat - 0xE0) * 64 + (x.toNat - 0x80)) * 64 + (b.toNat - 0x80)) (by omega)
    refine ⟨c, hc, ?_⟩
    rw [encode_three (by omega) (by omega), ofNat_eq (b := a) (by omega),
      ofNat_eq (b := x) (by omega), ofNat_eq (b := b) (by omega)]
    rfl
  | @four_last a x y ha hx hy =>
    have bounds := second_bounds hx
    obtain ⟨c, hc⟩ := exists_toNat
      (n := (((a.toNat - 0xF0) * 64 + (x.toNat - 0x80)) * 64 + (y.toNat - 0x80)) * 64 +
        (b.toNat - 0x80)) (by omega)
    refine ⟨c, hc, ?_⟩
    rw [encode_four (by omega), ofNat_eq (b := a) (by omega), ofNat_eq (b := x) (by omega),
      ofNat_eq (b := y) (by omega), ofNat_eq (b := b) (by omega)]
    rfl

theorem Held.next (held : Held part (.within (owed + 2) l h v))
    (hb : l ≤ b.toNat ∧ b.toNat ≤ h) :
    Held (part ++ [b]) (.within (owed + 1) 0x80 0xBF (v * 64 + (b.toNat - 0x80))) := by
  cases held with
  | three ha => exact .three_next ha hb
  | four ha => exact .four_next ha hb
  | four_next ha hb' => exact .four_last ha hb' hb

/-- The form of a character beyond ASCII is held but for its last byte. -/
theorem exists_held (c : Char) (beyond : 0x80 ≤ c.toNat) :
    ∃ part l h v, ∃ b : UInt8, Held part (.within 1 l h v) ∧ (l ≤ b.toNat ∧ b.toNat ≤ h) ∧
      utf8EncodeChar c = part ++ [b] ∧ v * 64 + (b.toNat - 0x80) = c.toNat := by
  have valid : c.toNat < 0xD800 ∨ 0xDFFF < c.toNat ∧ c.toNat < 0x110000 := c.valid
  by_cases two : c.toNat < 0x800
  · obtain ⟨a, ha⟩ := exists_byte (n := c.toNat / 64 + 0xC0) (by omega)
    obtain ⟨b, hb⟩ := exists_byte (n := c.toNat % 64 + 0x80) (by omega)
    refine ⟨[a], _, _, _, b, .two (by omega), by omega, ?_, by omega⟩
    rw [encode_two beyond two, ofNat_eq ha.symm, ofNat_eq hb.symm]
    rfl
  by_cases three : c.toNat < 0x10000
  · obtain ⟨a, ha⟩ := exists_byte (n := c.toNat / 4096 + 0xE0) (by omega)
    obtain ⟨x, hx⟩ := exists_byte (n := c.toNat / 64 % 64 + 0x80) (by omega)
    obtain ⟨b, hb⟩ := exists_byte (n := c.toNat % 64 + 0x80) (by omega)
    have second : low a.toNat ≤ x.toNat ∧ x.toNat ≤ high a.toNat := by
      unfold low high
      grind
    refine ⟨[a, x], _, _, _, b, .three_next (by omega) second, by omega, ?_, by omega⟩
    rw [encode_three (by omega) three, ofNat_eq ha.symm, ofNat_eq hx.symm, ofNat_eq hb.symm]
    rfl
  · obtain ⟨a, ha⟩ := exists_byte (n := c.toNat / 262144 + 0xF0) (by omega)
    obtain ⟨x, hx⟩ := exists_byte (n := c.toNat / 4096 % 64 + 0x80) (by omega)
    obtain ⟨y, hy⟩ := exists_byte (n := c.toNat / 64 % 64 + 0x80) (by omega)
    obtain ⟨b, hb⟩ := exists_byte (n := c.toNat % 64 + 0x80) (by omega)
    have second : low a.toNat ≤ x.toNat ∧ x.toNat ≤ high a.toNat := by
      unfold low high
      grind
    refine ⟨[a, x, y], _, _, _, b, .four_last (by omega) second (by omega), by omega, ?_, by omega⟩
    rw [encode_four (by omega), ofNat_eq ha.symm, ofNat_eq hx.symm, ofNat_eq hy.symm,
      ofNat_eq hb.symm]
    rfl

end

/-! ### Running the decoder -/

section

variable {legacy : Legacy} {part : Bytes} {s s' : State} {b : UInt8} {read : List (Option Char)}

/-- The decoder has got some bytes and kept them to itself. -/
def Silent (legacy : Legacy) (part : Bytes) (s : State) : Prop :=
  (Unfinished.utf8 .start : Unfinished legacy).run part = (.utf8 s, [])

theorem Silent.run_concat (h : Silent legacy part s) (hb : step s b = (s', read)) :
    (Unfinished.utf8 .start : Unfinished legacy).run (part ++ [b]) = (.utf8 s', read) := by
  rw [Unfinished.run_append, h]
  simp only [Unfinished.run, Unfinished.step, hb, List.nil_append, List.append_nil]

theorem Held.silent (held : Held part s) (legacy : Legacy) : Silent legacy part s := by
  have start : Silent legacy [] .start := rfl
  cases held with
  | two ha => exact start.run_concat (first_two ha)
  | three ha => exact start.run_concat (first_three ha)
  | three_next ha hb =>
    have one : Silent legacy _ _ := start.run_concat (first_three ha)
    exact one.run_concat (step_next hb)
  | four ha => exact start.run_concat (first_four ha)
  | four_next ha hb =>
    have one : Silent legacy _ _ := start.run_concat (first_four ha)
    exact one.run_concat (step_next hb)
  | four_last ha hb hc =>
    have one : Silent legacy _ _ := start.run_concat (first_four ha)
    have two : Silent legacy _ _ := one.run_concat (step_next hb)
    exact two.run_concat (step_next hc)

/-- The form of a character is read as the character. -/
theorem run_encode (legacy : Legacy) (c : Char) :
    (Unfinished.utf8 .start : Unfinished legacy).run (utf8EncodeChar c) =
      (.utf8 .start, [some c]) := by
  by_cases ascii : c.toNat < 0x80
  · obtain ⟨a, ha⟩ := exists_byte (n := c.toNat) (by omega)
    have start : Silent legacy [] .start := rfl
    rw [encode_one ascii, ofNat_eq ha.symm]
    refine start.run_concat ((first_one (by omega)).trans ?_)
    rw [ha, Char.ofNat_toNat]
  · obtain ⟨part, l, h, v, b, held, hb, bytes, value⟩ := exists_held c (by omega)
    rw [bytes, (held.silent legacy).run_concat (step_last hb), value, Char.ofNat_toNat]

/-- What makes the decoder report a malformed sequence opens no character. -/
theorem not_opens (h : (Unfinished.utf8 .start : Unfinished legacy).run part =
    (.utf8 s, none :: read)) : ¬ Opens part := by
  rintro ⟨c, rest, hc⟩
  have whole := run_encode legacy c
  rw [← hc, Unfinished.run_append, h] at whole
  simp at whole

/-- What is held is no form yet. -/
theorem Silent.unreadable (h : Silent legacy part s) (c : Char) :
    ¬ utf8EncodeChar c <+: part := by
  rintro ⟨rest, rfl⟩
  rw [Silent, Unfinished.run_append, run_encode] at h
  simp at h

end

section

variable {part rest : Bytes} {s : State} {owed l h v : Nat} {b : UInt8}

theorem Held.exists_within (held : Held part s) :
    ∃ owed l h v, s = .within (owed + 1) l h v ∧ 0x80 ≤ l ∧ l ≤ h ∧ h ≤ 0xBF := by
  cases held with
  | two => exact ⟨0, _, _, _, rfl, by decide⟩
  | three => exact ⟨1, _, _, _, rfl, low_le _⟩
  | three_next => exact ⟨0, _, _, _, rfl, by decide⟩
  | four => exact ⟨2, _, _, _, rfl, low_le _⟩
  | four_next => exact ⟨1, _, _, _, rfl, by decide⟩
  | four_last => exact ⟨0, _, _, _, rfl, by decide⟩

/-- What is held can be completed with the least bytes that are allowed. -/
theorem Held.opens (held : Held part (.within (owed + 1) l h v)) : Opens part := by
  induction owed generalizing part l h v with
  | zero =>
    obtain ⟨_, _, _, _, ⟨⟩, bounds⟩ := held.exists_within
    obtain ⟨b, hb⟩ := exists_byte (n := l) (by omega)
    obtain ⟨c, -, form⟩ := held.last (b := b) (by omega)
    exact ⟨c, form ▸ List.prefix_append part [b]⟩
  | succ owed ih =>
    obtain ⟨_, _, _, _, ⟨⟩, bounds⟩ := held.exists_within
    obtain ⟨b, hb⟩ := exists_byte (n := l) (by omega)
    exact (ih (held.next (b := b) (by omega))).left

theorem Held.ne_nil (held : Held part s) : part ≠ [] := by
  cases held <;> exact List.cons_ne_nil _ _

/-- What is held at the end is malformed. -/
theorem Held.malformed_nil (held : Held part s) : Malformed part [] := by
  obtain ⟨_, _, _, _, rfl, -⟩ := held.exists_within
  refine ⟨held.ne_nil, ?_, .inl held.opens, nofun⟩
  rw [List.append_nil]
  exact (held.silent .ascii).unreadable

/-- What is held is malformed in front of a byte that is refused. -/
theorem Held.malformed_cons (held : Held part (.within owed l h v))
    (refused : ¬ (l ≤ b.toNat ∧ b.toNat ≤ h)) : Malformed part (b :: rest) := by
  obtain ⟨_, _, _, _, ⟨⟩, -⟩ := held.exists_within
  have silent := held.silent .ascii
  have longest : ¬ Opens (part ++ [b]) := not_opens (silent.run_concat (step_refused refused))
  refine ⟨held.ne_nil, ?_, .inl held.opens, ?_⟩
  · intro c front
    rw [List.append_cons] at front
    obtain short | long := List.prefix_or_prefix_of_prefix front (List.prefix_append _ rest)
    · obtain whole | short := List.prefix_concat_iff.mp short
      · exact longest ⟨c, whole ▸ List.prefix_rfl⟩
      · exact silent.unreadable c short
    · exact longest ⟨c, long⟩
  · intro x hx
    cases hx
    exact longest

theorem encode_ne_nil (c : Char) : utf8EncodeChar c ≠ [] := by
  intro empty
  have length := c.utf8Size_pos
  rw [← String.length_utf8EncodeChar, empty] at length
  exact Nat.lt_irrefl 0 length

/-- A byte that starts no form is malformed by itself. -/
theorem malformed_singleton (h : ¬ Opens [b]) : Malformed [b] rest := by
  refine ⟨List.cons_ne_nil b [], ?_, .inr rfl, fun x _ longer => h longer.left⟩
  intro c front
  obtain ⟨a, tail, form⟩ := List.exists_cons_of_ne_nil (encode_ne_nil c)
  rw [form, List.singleton_append, List.cons_prefix_cons] at front
  rw [← front.1] at h
  exact h ⟨c, tail, form.symm⟩

end

section

variable {legacy : Legacy} {s s' : State} {b : UInt8} {bytes part : Bytes}

/-- What comes out for bytes. -/
def output (legacy : Legacy) (s : State) (bytes : Bytes) : List (Option Char) :=
  (Unfinished.utf8 s : Unfinished legacy).output bytes

theorem output_cons {read : List (Option Char)} (h : step s b = (s', read)) :
    output legacy s (b :: bytes) = read ++ output legacy s' bytes := by
  rw [output, Unfinished.output_cons, Unfinished.step, h]
  rfl

theorem output_start_cons : output legacy .start (b :: bytes) =
    (first b.toNat).2 ++ output legacy (first b.toNat).1 bytes := output_cons rfl

/-- What comes out in a state is what the bytes are, with those that are held in front. -/
def ReadsHeld (legacy : Legacy) (bytes : Bytes) : Prop :=
  ∀ part s, Held part s → form.Reads (part ++ bytes) (output legacy s bytes)

theorem reads_start_cons (start : form.Reads bytes (output legacy .start bytes))
    (later : ReadsHeld legacy bytes) :
    form.Reads (b :: bytes) (output legacy .start (b :: bytes)) := by
  by_cases ascii : b.toNat < 0x80
  · have value : (Char.ofNat b.toNat).toNat = b.toNat := Text.toNat_ofNat (.inl (by omega))
    have one : utf8EncodeChar (Char.ofNat b.toNat) = [b] := by
      rw [encode_one (by omega), ofNat_eq value]
    rw [output_start_cons, first_one ascii, ← List.singleton_append, ← one]
    exact .char _ start
  · by_cases opens : 0xC2 ≤ b.toNat ∧ b.toNat < 0xF5
    · obtain ⟨s, held, first⟩ := first_held opens
      rw [output_start_cons, first]
      exact later [b] s held
    · have none := first_none (b := b) (by omega) (by omega)
      have empty : Silent legacy [] .start := rfl
      rw [output_start_cons, none]
      exact .malformed (malformed_singleton (not_opens (empty.run_concat none))) start

theorem Held.reads_cons (held : Held part s) (start : form.Reads bytes (output legacy .start bytes))
    (later : ReadsHeld legacy bytes) :
    form.Reads (part ++ b :: bytes) (output legacy s (b :: bytes)) := by
  obtain ⟨owed, l, h, v, rfl, -⟩ := held.exists_within
  by_cases taken : l ≤ b.toNat ∧ b.toNat ≤ h
  · rw [List.append_cons]
    cases owed with
    | zero =>
      obtain ⟨c, value, whole⟩ := held.last taken
      rw [output_cons (step_last taken), ← value, Char.ofNat_toNat, ← whole]
      exact .char c start
    | succ owed =>
      rw [output_cons (step_next taken)]
      exact later _ _ (held.next taken)
  · -- The byte that is refused is read as if nothing were held.
    rw [output_cons (step_refused taken), List.cons_append, ← output_start_cons]
    exact .malformed (held.malformed_cons taken) (reads_start_cons start later)

/-- A decoder reads bytes as what they are, from its start and with what it holds in front. -/
theorem reads_output (legacy : Legacy) (bytes : Bytes) :
    form.Reads bytes (output legacy .start bytes) ∧ ReadsHeld legacy bytes := by
  induction bytes with
  | nil =>
    refine ⟨.nil, fun part s held => ?_⟩
    obtain ⟨_, _, _, _, rfl, -⟩ := held.exists_within
    exact .malformed held.malformed_nil .nil
  | cons b bytes ih =>
    obtain ⟨start, later⟩ := ih
    exact ⟨reads_start_cons start later, fun part s held => held.reads_cons start later⟩

end

/-! ### One reading -/

section

variable {p q a b : Bytes}

/-- No malformed sequence is longer than another one of the same bytes. -/
theorem Malformed.length_le (hp : Malformed p a) (hq : Malformed q b) (same : p ++ a = q ++ b) :
    q.length ≤ p.length := by
  refine Nat.le_of_not_lt fun longer => ?_
  obtain ⟨more, rfl⟩ : p <+: q :=
    List.prefix_of_prefix_length_le ⟨a, same⟩ (List.prefix_append q b) (by omega)
  -- The longer one goes on with a byte behind which the shorter one would open no character.
  cases more with
  | nil => simp at longer
  | cons x more =>
    rw [List.append_assoc, List.append_cancel_left_eq] at same
    obtain opens | one := hq.opens
    · rw [List.append_cons] at opens
      exact hp.longest x (same ▸ rfl) opens.left
    · have empty : p = [] := List.length_eq_zero_iff.mp (by simp at one; omega)
      exact hp.ne_nil empty

theorem Malformed.eq (hp : Malformed p a) (hq : Malformed q b) (same : p ++ a = q ++ b) :
    p = q ∧ a = b :=
  List.append_inj same (Nat.le_antisymm (hq.length_le hp same.symm) (hp.length_le hq same))

/-- No form starts with the form of another character. -/
theorem eq_of_encode {c d : Char} (h : utf8EncodeChar c <+: utf8EncodeChar d) : c = d := by
  obtain ⟨rest, whole⟩ := h
  have once := run_encode .ascii d
  rw [← whole, Unfinished.run_append, run_encode] at once
  simp only [Prod.mk.injEq, List.singleton_append, List.cons.injEq, Option.some.injEq] at once
  exact once.2.1

theorem encode_append_inj {c d : Char} (same : utf8EncodeChar c ++ a = utf8EncodeChar d ++ b) :
    c = d ∧ a = b := by
  have eq : c = d := by
    obtain h | h := List.prefix_or_prefix_of_prefix ⟨a, same⟩ (List.prefix_append _ b)
    · exact eq_of_encode h
    · exact (eq_of_encode h).symm
  subst eq
  exact ⟨rfl, List.append_cancel_left same⟩

/-- Bytes are read in one way. -/
theorem reads_unique {bytes : Bytes} {read read' : List (Option Char)}
    (h : form.Reads bytes read) (h' : form.Reads bytes read') : read = read' := by
  induction h generalizing read' with
  | nil =>
    generalize empty : ([] : Bytes) = bytes at h'
    cases h' with
    | nil => rfl
    | char c => exact absurd (List.append_eq_nil_iff.mp empty.symm).1 (encode_ne_nil c)
    | malformed front => exact absurd (List.append_eq_nil_iff.mp empty.symm).1 front.ne_nil
  | @char rest _ c _ ih =>
    generalize same : form.bytes c ++ rest = bytes at h'
    cases h' with
    | nil => exact absurd (List.append_eq_nil_iff.mp same).1 (encode_ne_nil c)
    | char d after =>
      obtain ⟨rfl, rfl⟩ := encode_append_inj same
      rw [ih after]
    | malformed front => exact absurd ⟨rest, same⟩ (front.unreadable c)
  | @malformed part rest _ front _ ih =>
    generalize same : part ++ rest = bytes at h'
    cases h' with
    | nil => exact absurd (List.append_eq_nil_iff.mp same).1 front.ne_nil
    | char c => exact absurd ⟨_, same.symm⟩ (front.unreadable c)
    | malformed front' after =>
      obtain ⟨rfl, rfl⟩ := front.eq front' same
      rw [ih after]

end

/-- A decoder reads bytes as what they are. -/
theorem reads_iff {legacy : Legacy} {bytes : Bytes} {read : List (Option Char)} :
    form.Reads bytes read ↔ read = (Unfinished.utf8 .start : Unfinished legacy).output bytes := by
  have reads := (reads_output legacy bytes).1
  constructor
  · intro h
    exact reads_unique h reads
  · rintro rfl
    exact reads

end Stylesheet.Encoding.Utf8
