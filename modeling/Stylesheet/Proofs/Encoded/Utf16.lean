import Stylesheet.Proofs.Encoded.Form

/-!
# The meaning of UTF-16

The bytes of UTF-16 go two by two, and each two are a unit. A character has one unit, or two: a lead
and a trail. Alone, either of the two is malformed. What the end leaves, be it a byte, a lead or a
lead and a byte, is malformed as a whole.
-/

namespace Stylesheet.Encoding.Utf16

def Lead (u : Nat) : Prop := 0xD800 ≤ u ∧ u < 0xDC00

def Trail (u : Nat) : Prop := 0xDC00 ≤ u ∧ u < 0xE000

/-- The units of a character. -/
def units (c : Char) : List Nat :=
  if c.toNat < 0x10000 then [c.toNat]
  else [0xD800 + (c.toNat - 0x10000) / 0x400, 0xDC00 + (c.toNat - 0x10000) % 0x400]

/-- The two bytes of a unit. -/
def unitBytes (big : Bool) (u : Nat) : Bytes :=
  if big then [UInt8.ofNat (u / 256), UInt8.ofNat u] else [UInt8.ofNat u, UInt8.ofNat (u / 256)]

/-- Bytes that are one malformed sequence in front of others. -/
inductive Malformed (big : Bool) : Bytes → Bytes → Prop
  | trail {u rest} (alone : Trail u) : Malformed big (unitBytes big u) rest
  | lead {l u rest} (alone : Lead l) (next : u < 0x10000 ∧ ¬ Trail u) :
    Malformed big (unitBytes big l) (unitBytes big u ++ rest)
  | last (b) : Malformed big [b] []
  | last_lead {l rest} (alone : Lead l) (few : rest.length ≤ 1) :
    Malformed big (unitBytes big l ++ rest) []

/-- UTF-16, with the bytes of each unit in either order. -/
def form (big : Bool) : Form := ⟨fun c => (units c).flatMap (unitBytes big), Malformed big⟩

variable {big : Bool} {u l t : Nat}

/-- The byte that comes first and the byte that comes second, by their values. -/
theorem unitBytes_eq {a b : UInt8}
    (h : u = if big then a.toNat * 256 + b.toNat else b.toNat * 256 + a.toNat) :
    unitBytes big u = [a, b] := by
  have byte (hi lo : UInt8) : UInt8.ofNat (hi.toNat * 256 + lo.toNat) = lo ∧
      UInt8.ofNat ((hi.toNat * 256 + lo.toNat) / 256) = hi := by
    have bound := lo.toNat_lt
    constructor
    · apply UInt8.toNat_inj.mp
      rw [UInt8.toNat_ofNat']
      omega
    · rw [show (hi.toNat * 256 + lo.toNat) / 256 = hi.toNat by omega, UInt8.ofNat_toNat]
  subst h
  cases big with
  | false => simp only [unitBytes, Bool.false_eq_true, if_false, byte b a]
  | true => simp only [unitBytes, if_true, byte a b]

theorem exists_bytes (big : Bool) (small : u < 0x10000) :
    ∃ a b : UInt8, u = if big then a.toNat * 256 + b.toNat else b.toNat * 256 + a.toNat := by
  obtain ⟨hi, high⟩ := exists_byte (n := u / 256) (by omega)
  obtain ⟨lo, low⟩ := exists_byte (n := u % 256) (by omega)
  cases big with
  | false => exact ⟨lo, hi, by rw [if_neg Bool.false_ne_true]; omega⟩
  | true => exact ⟨hi, lo, by rw [if_pos rfl]; omega⟩

/-- Any two bytes are those of a unit. -/
theorem exists_unit (big : Bool) (a b : UInt8) : ∃ u < 0x10000, unitBytes big u = [a, b] := by
  have first := a.toNat_lt
  have second := b.toNat_lt
  refine ⟨if big then a.toNat * 256 + b.toNat else b.toNat * 256 + a.toNat, ?_, unitBytes_eq rfl⟩
  split <;> omega

/-! ### The units of characters -/

theorem bytes_one {c : Char} (h : c.toNat = u) (short : u < 0x10000) :
    (form big).bytes c = unitBytes big u := by
  simp only [form, units, h, if_pos short, List.flatMap_singleton]

theorem bytes_pair {c : Char} (hl : Lead l) (ht : Trail t)
    (h : c.toNat = 0x10000 + (l - 0xD800) * 0x400 + (t - 0xDC00)) :
    (form big).bytes c = unitBytes big l ++ unitBytes big t := by
  obtain ⟨low, high⟩ := hl
  obtain ⟨low', high'⟩ := ht
  have first : 0xD800 + (c.toNat - 0x10000) / 0x400 = l := by omega
  have second : 0xDC00 + (c.toNat - 0x10000) % 0x400 = t := by omega
  simp only [form, units, first, second, if_neg (show ¬ c.toNat < 0x10000 by omega),
    List.flatMap_cons, List.flatMap_nil, List.append_nil]

/-- A character has one unit that is no surrogate, or a pair. -/
theorem exists_units (c : Char) :
    (∃ u < 0x10000, c.toNat = u ∧ ¬ Lead u ∧ ¬ Trail u) ∨
      ∃ l t, Lead l ∧ Trail t ∧ c.toNat = 0x10000 + (l - 0xD800) * 0x400 + (t - 0xDC00) := by
  have valid : c.toNat < 0xD800 ∨ 0xDFFF < c.toNat ∧ c.toNat < 0x110000 := c.valid
  unfold Lead Trail
  by_cases short : c.toNat < 0x10000
  · exact .inl ⟨c.toNat, short, rfl, by omega, by omega⟩
  · exact .inr ⟨0xD800 + (c.toNat - 0x10000) / 0x400, 0xDC00 + (c.toNat - 0x10000) % 0x400,
      by omega, by omega, by omega⟩

/-- All bytes can be read. -/
theorem exists_reads (big : Bool) : ∀ bytes : Bytes, ∃ read, (form big).Reads bytes read
  | [] => ⟨[], .nil⟩
  | [b] => ⟨[none], .last (.last b)⟩
  | a :: b :: rest => by
    obtain ⟨u, small, bytes⟩ := exists_unit big a b
    obtain ⟨read, after⟩ := exists_reads big rest
    rw [show a :: b :: rest = unitBytes big u ++ rest from congrArg (· ++ rest) bytes.symm]
    by_cases trail : Trail u
    · exact ⟨_, .malformed (.trail trail) after⟩
    by_cases lead : Lead u
    · -- The next unit is not known to be whole, and need not be a trail.
      have ends (few : rest.length ≤ 1) : (form big).Reads (unitBytes big u ++ rest) [none] :=
        .last (Malformed.last_lead lead few)
      match rest with
      | [] => exact ⟨_, ends (Nat.zero_le 1)⟩
      | [x] => exact ⟨_, ends (Nat.le_refl 1)⟩
      | x :: y :: more =>
        obtain ⟨v, small', bytes'⟩ := exists_unit big x y
        have next : x :: y :: more = unitBytes big v ++ more :=
          congrArg (· ++ more) bytes'.symm
        by_cases trail' : Trail v
        · obtain ⟨c, value⟩ := exists_toNat
            (n := 0x10000 + (u - 0xD800) * 0x400 + (v - 0xDC00)) (by unfold Lead Trail at *; omega)
          obtain ⟨read, after⟩ := exists_reads big more
          rw [next, ← List.append_assoc, ← bytes_pair lead trail' value]
          exact ⟨_, .char c after⟩
        · rw [next] at after ⊢
          exact ⟨_, .malformed (.lead lead ⟨small', trail'⟩) after⟩
    · obtain ⟨c, value⟩ := exists_toNat (n := u) (by unfold Lead Trail at *; omega)
      rw [← bytes_one value small]
      exact ⟨_, .char c after⟩

/-! ### Running the decoder -/

variable {legacy : Legacy} {lead : Option Nat}

/-- What a decoder between two units does with a unit. -/
theorem output_unitBytes (small : u < 0x10000) (bytes : Bytes) :
    (Unfinished.utf16 big ⟨none, lead⟩ : Unfinished legacy).output (unitBytes big u ++ bytes) =
      (unit lead u).2 ++
        (Unfinished.utf16 big ⟨none, (unit lead u).1⟩ : Unfinished legacy).output bytes := by
  obtain ⟨a, b, value⟩ := exists_bytes big small
  rw [unitBytes_eq value, List.cons_append, List.cons_append, Unfinished.output_cons,
    Unfinished.output_cons]
  simp only [Unfinished.step, step, ← value, List.nil_append]

theorem unit_plain (h : ¬ Lead u ∧ ¬ Trail u) : unit none u = (none, [some (Char.ofNat u)]) := by
  unfold Lead Trail at h
  rw [unit, if_neg h.1, if_neg h.2]
  rfl

theorem unit_lead (h : Lead u) : unit none u = (some u, []) := by
  unfold Lead at h
  rw [unit, if_pos h]
  rfl

theorem unit_trail (h : Trail u) : unit none u = (none, [none]) := by
  unfold Trail at h
  rw [unit, if_neg (by omega), if_pos h]

theorem unit_pair (h : Trail t) :
    unit (some l) t =
      (none, [some (Char.ofNat (0x10000 + (l - 0xD800) * 0x400 + (t - 0xDC00)))]) := by
  unfold Trail at h
  rw [unit, if_neg (by omega), if_pos h]

/-- A unit that does not complete a pair is read anew. -/
theorem unit_anew (h : ¬ Trail u) :
    unit (some l) u = ((unit none u).1, none :: (unit none u).2) := by
  unfold Trail at h
  unfold unit
  split
  · rfl
  · rfl

/-- A decoder reads bytes as what they are. -/
theorem reads_output (legacy : Legacy) {bytes : Bytes} {read : List (Option Char)}
    (h : (form big).Reads bytes read) :
    (Unfinished.utf16 big {} : Unfinished legacy).output bytes = read := by
  induction h with
  | nil => rfl
  | char c _ ih =>
    obtain ⟨u, small, value, plain⟩ | ⟨l, t, hl, ht, value⟩ := exists_units c
    · rw [bytes_one value small, output_unitBytes small, unit_plain plain, ← value,
        Char.ofNat_toNat]
      exact congrArg (some c :: ·) ih
    · have hl' := hl.2
      have ht' := ht.2
      rw [bytes_pair hl ht value, List.append_assoc, output_unitBytes (by omega), unit_lead hl,
        output_unitBytes (by omega), unit_pair ht, ← value, Char.ofNat_toNat]
      exact congrArg (some c :: ·) ih
  | malformed front rest ih =>
    cases front with
    | trail alone =>
      rw [output_unitBytes (Nat.lt_trans alone.2 (by decide)), unit_trail alone]
      exact congrArg (none :: ·) ih
    | lead alone next =>
      rw [output_unitBytes next.1] at ih
      rw [output_unitBytes (Nat.lt_trans alone.2 (by decide)), unit_lead alone,
        output_unitBytes next.1, unit_anew next.2]
      exact congrArg (none :: ·) ih
    | last b =>
      rw [← ih]
      rfl
    | @last_lead l part alone few =>
      rw [← ih, List.append_nil, output_unitBytes (Nat.lt_trans alone.2 (by decide)),
        unit_lead alone]
      match part, few with
      | [], _ => rfl
      | [_], _ => rfl

theorem reads_iff {bytes : Bytes} {read : List (Option Char)} :
    (form big).Reads bytes read ↔
      read = (Unfinished.utf16 big {} : Unfinished legacy).output bytes := by
  constructor
  · intro h
    exact (reads_output legacy h).symm
  · rintro rfl
    obtain ⟨read, h⟩ := exists_reads big bytes
    exact reads_output legacy h ▸ h

end Stylesheet.Encoding.Utf16
