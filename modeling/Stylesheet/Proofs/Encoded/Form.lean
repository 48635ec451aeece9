import Stylesheet.Encoding.Decoder
import Stylesheet.Proofs.Folding

/-!
# Reading by forms

An encoding of Unicode gives each character a form, a sequence of bytes. A text is read by taking
off the form of one character after the other. Where no character can be read, some bytes in front
are malformed, and the encoding says how many of them count as one malformed sequence.

This says what bytes mean as a whole, with all that follows in view; decoders find it out byte by
byte.
-/

namespace Stylesheet.Encoding

theorem exists_byte {n : Nat} (h : n < 0x100) : ∃ b : UInt8, b.toNat = n :=
  ⟨UInt8.ofNat n, UInt8.toNat_ofNat_of_lt' h⟩

theorem exists_toNat {n : Nat} (h : n < 0xD800 ∨ 0xDFFF < n ∧ n < 0x110000) :
    ∃ c : Char, c.toNat = n :=
  ⟨Char.ofNat n, Text.toNat_ofNat h⟩

/-- How an encoding of Unicode is read: the forms of the characters, and which bytes in front of
which others count as one malformed sequence. -/
structure Form where
  bytes : Char → Bytes
  Malformed : Bytes → Bytes → Prop

/-- Bytes are read as characters, with nothing in place of a malformed sequence. -/
inductive Form.Reads (form : Form) : Bytes → List (Option Char) → Prop
  | nil : form.Reads [] []
  | char {bytes read} (c : Char) (rest : form.Reads bytes read) :
    form.Reads (form.bytes c ++ bytes) (some c :: read)
  | malformed {part bytes read} (front : form.Malformed part bytes)
    (rest : form.Reads bytes read) : form.Reads (part ++ bytes) (none :: read)

/-- What is malformed up to the end. -/
theorem Form.Reads.last {form : Form} {part : Bytes} (h : form.Malformed part []) :
    form.Reads part [none] := by
  rw [← List.append_nil part]
  exact .malformed h .nil

theorem Form.reads_flatMap (form : Form) (cs : List Char) :
    form.Reads (cs.flatMap form.bytes) (cs.map some) := by
  induction cs with
  | nil => exact .nil
  | cons c cs ih => exact .char c ih

/-- A text is the characters that it is read as. -/
theorem Form.Reads.eq_flatMap {form : Form} {bytes : Bytes} {read : List (Option Char)}
    (h : form.Reads bytes read) :
    ∀ cs : List Char, read = cs.map some → bytes = cs.flatMap form.bytes := by
  induction h with
  | nil =>
    intro cs all
    rw [List.map_eq_nil_iff.mp all.symm]
    rfl
  | char c rest ih =>
    intro cs all
    obtain ⟨d, ds, rfl, head, tail⟩ := List.map_eq_cons_iff.mp all.symm
    cases head
    rw [List.flatMap_cons, ih ds tail.symm]
  | malformed front rest ih =>
    intro cs all
    obtain ⟨d, ds, rfl, head, -⟩ := List.map_eq_cons_iff.mp all.symm
    cases head

namespace Unfinished

variable {legacy : Legacy}

/-- All that comes out for bytes that nothing follows. -/
def output (u : Unfinished legacy) (bytes : Bytes) : List (Option Char) :=
  (u.run bytes).2 ++ (u.run bytes).1.finish

theorem output_cons (u : Unfinished legacy) (b : UInt8) (bytes : Bytes) :
    u.output (b :: bytes) = (u.step b).2 ++ (u.step b).1.output bytes := by
  rw [output, output, ← List.append_assoc]
  rfl

end Unfinished

end Stylesheet.Encoding
