import Stylesheet.Proofs.Concat.Text
import Stylesheet.Proofs.Spelling.Scan

/-!
# The longest numeral

A numeral is a sign, digits, a fraction and an exponent, of which only some digits have to be there.
What `Numeral.length` measures at the front of a text is the longest numeral there, and some numeral
is there if and only if `Numeral.starts` says so. So where a numeral ends does not depend on what is
cut off behind it.
-/

namespace Stylesheet.Token.Numeral

/-- An exponent: its mark, an optional sign and digits. -/
structure Power where
  mark : Char
  marks : mark = 'e' ∨ mark = 'E'
  sign : Sign
  digits : Digits

/-- The exponent as written. -/
def Power.chars (p : Power) : List Char := p.mark :: (p.sign.chars ++ p.digits.chars)

/-- A numeral: a sign, digits, a fraction and an exponent. Each of them may be missing, but there is
a digit in front of the exponent. -/
structure Written where
  sign : Sign
  whole : List Char
  digits : ∀ c ∈ whole, c.isDigit = true
  fraction : Option Digits
  power : Option Power
  some : whole ≠ [] ∨ fraction.isSome = true

/-- A fraction as written, or nothing. -/
def fractionChars : Option Digits → List Char
  | none => []
  | some d => '.' :: d.chars

/-- An exponent as written, or nothing. -/
def powerChars : Option Power → List Char
  | none => []
  | some p => p.chars

/-- The numeral as written. -/
def Written.chars (n : Written) : List Char :=
  n.sign.chars ++ (n.whole ++ (fractionChars n.fraction ++ powerChars n.power))

/-- Some characters are a numeral at the front of a text, and no longer numeral is. -/
structure Longest (cs text : List Char) : Prop where
  numeral : ∃ n : Written, n.chars = cs
  front : cs <+: text
  longest : ∀ n : Written, n.chars <+: text → n.chars.length ≤ cs.length

variable {cs text rest : List Char}

/-! ### What a numeral is measured as -/

theorem digits_append_all (h : ∀ c ∈ cs, c.isDigit = true) (rest : List Char) :
    digits (cs ++ rest) = cs.length + digits rest := by
  rw [digits, List.takeWhile_append_of_pos h, List.length_append]
  rfl

theorem Digits.pos (d : Digits) : d.chars.length ≠ 0 := by simpa using d.nonempty

theorem Digits.length_le (d : Digits) (rest : List Char) :
    d.chars.length ≤ Numeral.digits (d.chars ++ rest) := by
  rw [digits_append_all (List.all_eq_true.mp d.digits)]
  exact Nat.le_add_right _ _

theorem fraction_point (d : Digits) (rest : List Char) :
    fraction ('.' :: (d.chars ++ rest)) = Numeral.digits (d.chars ++ rest) + 1 := by
  rw [fraction, if_neg]
  have := d.pos
  have := d.length_le rest
  omega

/-- Nothing in front of an exponent goes on with digits or with a fraction. -/
theorem Power.ends (p : Power) (rest : List Char) :
    Numeral.digits (p.chars ++ rest) = 0 ∧ Numeral.fraction (p.chars ++ rest) = 0 := by
  obtain ⟨mark, rfl | rfl, sign, digits⟩ := p <;> exact ⟨rfl, rfl⟩

theorem Power.length_le (p : Power) (rest : List Char) :
    p.chars.length ≤ exponent (p.chars ++ rest) := by
  have signed : Numeral.sign (p.sign.chars ++ (p.digits.chars ++ rest)) = p.sign.chars.length :=
    sign_append p.sign p.digits
  have long := p.digits.length_le rest
  have pos := p.digits.pos
  rw [chars, List.cons_append, List.append_assoc, exponent, if_pos p.marks, signed]
  simp only [List.drop_left, List.length_cons, List.length_append]
  rw [if_neg (by omega)]
  omega

/-- A digit or a point stands behind the sign. -/
theorem Written.exists_head (n : Written) :
    ∃ c cs, n.chars = n.sign.chars ++ c :: cs ∧ (c.isDigit = true ∨ c = '.') := by
  obtain ⟨sign, whole, digits, fraction, power, some⟩ := n
  cases whole with
  | cons c cs => exact ⟨c, _, rfl, .inl (digits c List.mem_cons_self)⟩
  | nil =>
    cases fraction with
    | none => exact absurd rfl (some.resolve_right Bool.false_ne_true)
    | some d => exact ⟨'.', _, rfl, .inr rfl⟩

theorem sign_eq_zero {c : Char} (h : c.isDigit = true ∨ c = '.') : sign (c :: cs) = 0 := by
  unfold sign
  split
  · rename_i heq
    cases heq
    exact absurd h (by decide)
  · rename_i heq
    cases heq
    exact absurd h (by decide)
  · rfl

theorem Written.sign_append (n : Written) (rest : List Char) :
    Numeral.sign (n.chars ++ rest) = n.sign.chars.length := by
  obtain ⟨c, cs, head, first⟩ := n.exists_head
  rw [head, List.append_assoc, List.cons_append]
  cases n.sign with
  | none => exact sign_eq_zero first
  | plus => rfl
  | minus => rfl

/-- Where nothing goes on with the digits behind a sign, the fraction and the exponent are what is
left to measure. -/
theorem length_of_digits {sign whole behind : List Char}
    (signed : Numeral.sign (sign ++ (whole ++ behind)) = sign.length)
    (all : ∀ c ∈ whole, c.isDigit = true) (none : Numeral.digits behind = 0) :
    length (sign ++ (whole ++ behind)) =
      sign.length + whole.length + fraction behind + exponent (behind.drop (fraction behind)) := by
  have drop (n : Nat) :
      (sign ++ (whole ++ behind)).drop (sign.length + whole.length + n) = behind.drop n := by
    rw [Nat.add_assoc, List.drop_length_add_append, List.drop_length_add_append]
  have whole' := drop 0
  rw [Nat.add_zero, List.drop_zero] at whole'
  rw [length, signed]
  simp only [List.drop_left, digits_append_all all, none, Nat.add_zero, whole', drop]

/-- The fraction of a numeral goes as far as it is written if nothing behind it goes on with it. -/
theorem fraction_append_of_ends (f : Option Digits) (h : Numeral.digits rest = 0)
    (h' : Numeral.fraction rest = 0) :
    Numeral.digits (fractionChars f ++ rest) = 0 ∧
      Numeral.fraction (fractionChars f ++ rest) = (fractionChars f).length := by
  cases f with
  | none => exact ⟨h, h'⟩
  | some d =>
    refine ⟨rfl, ?_⟩
    rw [fractionChars, List.cons_append, fraction_point, digits_append d h]
    rfl

/-- A numeral is measured as long as it is, or longer if the text goes on with it. -/
theorem Written.length_le_append (n : Written) (rest : List Char) :
    n.chars.length ≤ length (n.chars ++ rest) := by
  have signed := n.sign_append rest
  obtain ⟨sign, whole, digits, fraction, power, nonempty⟩ := n
  simp only [chars, List.append_assoc, List.length_append] at signed ⊢
  cases power with
  | some p =>
    obtain ⟨none, point⟩ := p.ends rest
    obtain ⟨none, same⟩ := fraction_append_of_ends fraction none point
    have long := p.length_le rest
    rw [powerChars] at signed ⊢
    rw [length_of_digits signed digits none, same, List.drop_left]
    omega
  | none =>
    cases fraction with
    | some d =>
      have long := d.length_le rest
      have point := fraction_point d rest
      rw [← List.cons_append] at point
      simp only [powerChars, List.nil_append, fractionChars] at signed ⊢
      rw [length_of_digits signed digits rfl, point, List.length_cons, List.length_nil]
      omega
    | none =>
      simp only [powerChars, List.nil_append, fractionChars] at signed ⊢
      rw [length, signed]
      simp only [List.drop_left, digits_append_all digits, List.length_nil]
      omega

/-! ### What is measured is a numeral -/

theorem exists_sign (cs : List Char) : ∃ s : Sign, s.chars = cs.take (sign cs) := by
  unfold sign
  split
  · exact ⟨.plus, rfl⟩
  · exact ⟨.minus, rfl⟩
  · exact ⟨.none, rfl⟩

theorem take_digits (cs : List Char) : cs.take (digits cs) = cs.takeWhile Char.isDigit :=
  (List.prefix_iff_eq_take.mp (List.takeWhile_prefix _)).symm

theorem mem_take_digits {c : Char} (h : c ∈ cs.take (digits cs)) : c.isDigit = true := by
  rw [take_digits] at h
  exact List.all_eq_true.mp List.all_takeWhile c h

/-- Digits in front, if there are any. -/
theorem exists_digits (h : digits cs ≠ 0) : ∃ d : Digits, d.chars = cs.take (digits cs) := by
  refine ⟨⟨cs.take (digits cs), ?_, ?_⟩, rfl⟩
  · rw [take_digits]
    exact fun none => h (congrArg List.length none)
  · exact List.all_eq_true.mpr fun c hc => mem_take_digits hc

theorem exists_fraction (cs : List Char) :
    ∃ f : Option Digits, fractionChars f = cs.take (fraction cs) := by
  unfold fraction
  split
  · rename_i cs
    split
    · exact ⟨none, rfl⟩
    · rename_i some
      obtain ⟨d, hd⟩ := exists_digits some
      exact ⟨.some d, by rw [fractionChars, hd, List.take_succ_cons]⟩
  · exact ⟨none, rfl⟩

theorem exists_power (cs : List Char) :
    ∃ p : Option Power, powerChars p = cs.take (exponent cs) := by
  cases cs with
  | nil => exact ⟨none, rfl⟩
  | cons c cs =>
    rw [exponent]
    split
    · rename_i marks
      dsimp only
      split
      · exact ⟨none, rfl⟩
      · rename_i some
        obtain ⟨s, hs⟩ := exists_sign cs
        obtain ⟨d, hd⟩ := exists_digits some
        refine ⟨.some ⟨c, marks, s, d⟩, ?_⟩
        rw [powerChars, Power.chars, hs, hd, Nat.add_assoc, Nat.add_comm 1, List.take_succ_cons,
          List.take_add]
    · exact ⟨none, rfl⟩

/-- A numeral starts where its sign is followed by a digit, or by a point and a digit. -/
theorem starts_iff :
    starts cs = true ↔ digits (cs.drop (sign cs)) ≠ 0 ∨ fraction (cs.drop (sign cs)) ≠ 0 := by
  rw [starts]
  cases cs.drop (sign cs) with
  | nil => simp [digits, fraction]
  | cons c rest =>
    by_cases digit : c.isDigit = true
    · simp [digit, digits]
    · have none : digits (c :: rest) = 0 := by
        rw [digits, List.takeWhile_cons_of_neg digit]
        rfl
      by_cases point : c = '.'
      · subst point
        simp [none, fraction]
      · simp [digit, point, none, fraction]

/-- What is measured where a numeral starts is a numeral. -/
theorem exists_written (h : starts cs = true) : ∃ n : Written, n.chars = cs.take (length cs) := by
  obtain ⟨s, hs⟩ := exists_sign cs
  obtain ⟨f, hf⟩ := exists_fraction (cs.drop (sign cs + digits (cs.drop (sign cs))))
  obtain ⟨p, hp⟩ := exists_power (cs.drop (sign cs + digits (cs.drop (sign cs)) +
    fraction (cs.drop (sign cs + digits (cs.drop (sign cs))))))
  have nonempty :
      (cs.drop (sign cs)).take (digits (cs.drop (sign cs))) ≠ [] ∨ f.isSome = true := by
    by_cases none : digits (cs.drop (sign cs)) = 0
    · have point := (starts_iff.mp h).resolve_left (not_not_intro none)
      rw [none, Nat.add_zero] at hf
      cases f with
      | some d => exact .inr rfl
      | none =>
        have length := congrArg List.length hf
        rw [List.length_take_of_le (fraction_le _)] at length
        exact absurd length.symm point
    · rw [take_digits]
      exact .inl fun nothing => none (congrArg List.length nothing)
  refine ⟨⟨s, _, fun c => mem_take_digits, f, p, nonempty⟩, ?_⟩
  rw [Written.chars, hs, hf, hp, length]
  simp only [List.take_add, List.append_assoc]

/-- A numeral starts wherever one is written. -/
theorem Written.starts_append (n : Written) (rest : List Char) :
    Numeral.starts (n.chars ++ rest) = true := by
  rw [starts_iff, n.sign_append]
  obtain ⟨sign, whole, digits, fraction, power, nonempty⟩ := n
  simp only [chars, List.append_assoc, List.drop_left, digits_append_all digits]
  cases whole with
  | cons c cs =>
    rw [List.length_cons]
    exact .inl (by omega)
  | nil =>
    cases fraction with
    | none => exact absurd rfl (nonempty.resolve_right Bool.false_ne_true)
    | some d =>
      rw [List.nil_append, fractionChars, List.cons_append, fraction_point]
      exact .inr (Nat.succ_ne_zero _)

/-! ### The longest numeral -/

/-- What is measured where a numeral starts is the longest numeral there. -/
theorem longest_take (h : starts cs = true) : Longest (cs.take (length cs)) cs where
  numeral := exists_written h
  front := List.take_prefix _ _
  longest := by
    rintro n ⟨rest, rfl⟩
    rw [List.length_take_of_le (length_le _)]
    exact n.length_le_append rest

namespace Longest

/-- The longest numeral is as long as what is measured. -/
theorem length_eq (h : Longest cs text) : length text = cs.length := by
  obtain ⟨n, hn⟩ := h.numeral
  obtain ⟨rest, rfl⟩ := h.front
  rw [← hn] at h ⊢
  obtain ⟨m, hm⟩ := exists_written (n.starts_append rest)
  have short := h.longest m (hm ▸ List.take_prefix _ _)
  rw [hm, List.length_take_of_le (length_le _)] at short
  exact Nat.le_antisymm short (n.length_le_append rest)

/-- It stays the longest if text is cut off behind it. -/
theorem of_append (h : Longest cs (text ++ rest)) (front : cs <+: text) : Longest cs text where
  numeral := h.numeral
  front := front
  longest n hn := h.longest n (hn.trans (List.prefix_append text rest))

theorem ne_nil (h : Longest cs text) : cs ≠ [] := by
  obtain ⟨n, rfl⟩ := h.numeral
  obtain ⟨c, cs, head, -⟩ := n.exists_head
  rw [head]
  exact List.append_ne_nil_of_right_ne_nil _ (List.cons_ne_nil c cs)

end Longest

end Stylesheet.Token.Numeral
