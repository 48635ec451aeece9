import Stylesheet.Proofs.Decoding
import Stylesheet.Proofs.Encoded.Utf16
import Stylesheet.Proofs.Encoded.Utf8

/-!
# Decoding is reading

What bytes mean in an encoding is said without a decoder: for Unicode by its forms, after a byte
order mark has been taken off, and for an encoding with a table by the table. A decoder that gets
the bytes in portions, however they are cut, writes down just that meaning, and never takes back
what it has written.
-/

namespace Stylesheet.Encoding

/-- Read all bytes and then the end. -/
def Legacy.readAll (legacy : Legacy) (s : legacy.State) : Bytes → List (Option Char)
  | [] => legacy.finish s
  | b :: bytes => (legacy.step s b).2 ++ legacy.readAll (legacy.step s b).1 bytes

/-- What bytes without a byte order mark are read as. -/
def Reads (e : Encoding) (legacy : Legacy) (bytes : Bytes) (read : List (Option Char)) : Prop :=
  match e with
  | utf8 => Utf8.form.Reads bytes read
  | utf16be => (Utf16.form true).Reads bytes read
  | utf16le => (Utf16.form false).Reads bytes read
  | e => read = if e.hasTable then bytes.map e.char? else legacy.readAll (legacy.start e) bytes

/-- The byte order mark of an encoding, if it has one. -/
def mark : Encoding → Bytes
  | utf8 => [0xEF, 0xBB, 0xBF]
  | utf16be => [0xFE, 0xFF]
  | utf16le => [0xFF, 0xFE]
  | _ => []

theorem mark_eq_nil {e : Encoding} (h : e ≠ utf8) (be : e ≠ utf16be) (le : e ≠ utf16le) :
    e.mark = [] := by
  rw [mark]
  · exact h
  · exact be
  · exact le

/-- Take off a byte order mark in front. -/
def withoutMark (e : Encoding) (bytes : Bytes) : Bytes :=
  if e.mark <+: bytes then bytes.drop e.mark.length else bytes

/-- The encodings that have a byte order mark are those whose decoders drop one. -/
theorem hasMark_eq (e : Encoding) : e.hasMark = !e.mark.isEmpty := by
  cases e <;> rfl

variable {legacy : Legacy}

/-! ### The meaning of whole inputs -/

theorem output_singleByte (e : Encoding) (bytes : Bytes) :
    (Unfinished.singleByte e : Unfinished legacy).output bytes = bytes.map e.char? := by
  induction bytes with
  | nil => rfl
  | cons b bytes ih =>
    rw [Unfinished.output_cons, List.map_cons, ← ih]
    rfl

theorem output_legacy (s : legacy.State) (bytes : Bytes) :
    (Unfinished.legacy s).output bytes = legacy.readAll s bytes := by
  induction bytes generalizing s with
  | nil => rfl
  | cons b bytes ih =>
    rw [Unfinished.output_cons, Legacy.readAll, ← ih]
    rfl

/-- Bytes have one meaning, and a decoder finds it. -/
theorem reads_iff (e : Encoding) (bytes : Bytes) (read : List (Option Char)) :
    e.Reads legacy bytes read ↔ read = (Unfinished.start e : Unfinished legacy).output bytes := by
  fun_cases Reads e legacy bytes read with
  | case1 => exact Utf8.reads_iff
  | case2 => exact Utf16.reads_iff
  | case3 => exact Utf16.reads_iff
  | case4 e plain wide wide' =>
    rw [Unfinished.start]
    · split
      · rw [output_singleByte]
      · rw [output_legacy]
    · exact plain
    · exact wide
    · exact wide'

/-- A mark is read as a character, and where there is none, no such character comes first. -/
theorem dropMark_output {form : Form} {output : Bytes → List (Option Char)} {m : Bytes}
    (reads : ∀ bytes read, form.Reads bytes read ↔ read = output bytes)
    (mark : form.bytes byteOrderMark = m) (bytes : Bytes) :
    dropMark (output bytes) = output (if m <+: bytes then bytes.drop m.length else bytes) := by
  subst mark
  split
  · rename_i front
    obtain ⟨rest, rfl⟩ := front
    have whole := (reads _ _).mp (.char byteOrderMark ((reads rest _).mpr rfl))
    rw [← whole, List.drop_left, dropMark, if_pos rfl]
  · rename_i none
    generalize same : output bytes = read
    have h := (reads _ _).mpr same.symm
    cases h with
    | nil => rfl
    | malformed => rfl
    | char c =>
      rw [dropMark, if_neg]
      rintro rfl
      exact none (List.prefix_append _ _)

/-- What a decoder passes on of all that it reads. -/
theorem passed_output (e : Encoding) (bytes : Bytes) :
    (Decoder.start e legacy).passed ((Unfinished.start e : Unfinished legacy).output bytes) =
      (Unfinished.start e : Unfinished legacy).output (e.withoutMark bytes) := by
  fun_cases mark e with
  | case1 =>
    exact dropMark_output (fun _ _ => Utf8.reads_iff) (by decide) bytes
  | case2 =>
    exact dropMark_output (fun _ _ => Utf16.reads_iff) (by decide) bytes
  | case3 =>
    exact dropMark_output (fun _ _ => Utf16.reads_iff) (by decide) bytes
  | case4 _ plain wide wide' =>
    have none := mark_eq_nil plain wide wide'
    have unmarked : e.hasMark = false := by rw [hasMark_eq, none, List.isEmpty_nil, Bool.not_true]
    rw [withoutMark, none, if_pos (List.nil_prefix), Decoder.passed, Decoder.start, unmarked,
      if_neg Bool.false_ne_true]
    rfl

theorem decode_eq_textOf (e : Encoding) (bytes : Bytes) :
    e.decode bytes legacy = textOf ((Decoder.start e legacy).passed
      ((Unfinished.start e : Unfinished legacy).output bytes)) := by
  rw [Unfinished.output,
    Decoder.passed_append _ ((Unfinished.start e : Unfinished legacy).run bytes).1, textOf_append]
  rfl

/-! ### Portions -/

namespace Decoder

/-- Decode portions one after the other, each of which adds to a text. -/
def receive (d : Decoder legacy) (text : String) : List Bytes → Decoder legacy × String
  | [] => (d, text)
  | chunk :: chunks => (d.push chunk).1.receive (text ++ (d.push chunk).2) chunks

/-- The text after all portions and the end. -/
def receiveAll (d : Decoder legacy) (text : String) (chunks : List Bytes) : String :=
  (d.receive text chunks).2 ++ (d.receive text chunks).1.finish

theorem receive_append (d : Decoder legacy) (text : String) (a b : List Bytes) :
    d.receive text (a ++ b) = (d.receive text a).1.receive (d.receive text a).2 b := by
  induction a generalizing d text with
  | nil => rfl
  | cons chunk a ih => exact ih _ _

theorem receive_eq_push (d : Decoder legacy) (text : String) (chunks : List Bytes) :
    d.receive text chunks = ((d.push chunks.flatten).1, text ++ (d.push chunks.flatten).2) := by
  induction chunks generalizing d text with
  | nil =>
    have nothing : d.push [] = (d, "") := by
      obtain ⟨unfinished, atStart⟩ := d
      cases atStart with
      | false => rfl
      | true => rfl
    rw [receive, List.flatten_nil, nothing, String.append_empty]
  | cons chunk chunks ih =>
    rw [receive, ih, List.flatten_cons, push_append, String.append_assoc]

/-- Further portions only add to the text. -/
theorem exists_receive_append (d : Decoder legacy) (text : String) (a b : List Bytes) :
    ∃ added, (d.receive text (a ++ b)).2 = (d.receive text a).2 ++ added := by
  rw [receive_append, receive_eq_push]
  exact ⟨_, rfl⟩

theorem receiveAll_eq (d : Decoder legacy) (text : String) (chunks : List Bytes) :
    d.receiveAll text chunks =
      text ++ textOf (d.passed (d.unfinished.output chunks.flatten)) := by
  rw [receiveAll, receive_eq_push, String.append_assoc, Unfinished.output,
    d.passed_append (d.unfinished.run chunks.flatten).1, textOf_append]
  rfl

end Decoder

/-- However bytes are cut into portions, a decoder writes down what all of them mean, which is what
it makes of them in one piece: their one reading, without a byte order mark in front. What a portion
adds stays as it is. -/
theorem receiveAll_portions (e : Encoding) (legacy : Legacy) (text : String)
    (chunks : List Bytes) :
    ∃ read, (∀ r, e.Reads legacy (e.withoutMark chunks.flatten) r ↔ r = read) ∧
      e.decode chunks.flatten legacy = textOf read ∧
      (Decoder.start e legacy).receiveAll text chunks = text ++ textOf read ∧
      ∀ n, ∃ added later,
        ((Decoder.start e legacy).receive text (chunks.take (n + 1))).2 =
          ((Decoder.start e legacy).receive text (chunks.take n)).2 ++ added ∧
        (Decoder.start e legacy).receiveAll text chunks =
          ((Decoder.start e legacy).receive text (chunks.take (n + 1))).2 ++ later := by
  refine ⟨_, reads_iff e _, ?_, ?_, fun n => ?_⟩
  · rw [← passed_output, decode_eq_textOf]
  · rw [← passed_output]
    exact Decoder.receiveAll_eq _ text chunks
  · obtain ⟨added, one⟩ := (Decoder.start e legacy).exists_receive_append text (chunks.take n)
      chunks[n]?.toList
    obtain ⟨more, rest⟩ := (Decoder.start e legacy).exists_receive_append text
      (chunks.take (n + 1)) (chunks.drop (n + 1))
    rw [← List.take_add_one] at one
    rw [List.take_append_drop] at rest
    refine ⟨added, more ++ ((Decoder.start e legacy).receive text chunks).1.finish, one, ?_⟩
    rw [Decoder.receiveAll, rest, String.append_assoc]

example : (Decoder.start utf8).receiveAll "" [[97, 0xC3], [], [0xA9, 98, 0xE2]] = "aéb\uFFFD" := by
  decide +kernel

end Stylesheet.Encoding
