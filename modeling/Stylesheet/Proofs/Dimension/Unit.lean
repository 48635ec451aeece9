import Stylesheet.Grammar.Value
import Stylesheet.Proofs.Concat.Scan
import Stylesheet.Proofs.Dimension.Numeral
import Stylesheet.Proofs.Recompiled.Token

/-!
# Numbers and their units

A dimension is a numeral and the name that starts behind it. The token is cut in two by what its own
characters say, and this is where the scanner went on from the numeral to the name, for the numeral
is the longest one there with or without the text behind the token.

The unit starts an identifier, with one exception. A hyphen and a backslash start a name even if a
line ends behind the backslash; the name is the hyphen alone then, which starts none by itself.
-/

namespace Stylesheet.Token

open Text (width isNewline)

namespace Lexeme

variable {c : Char} {cs : List Char}

/-- A dimension is scanned where a numeral starts. -/
theorem scan_dimension (h : (scan c cs).kind = .dimension) :
    Numeral.starts (c :: cs) = true ∧ scan c cs = numeric (c :: cs) := by
  obtain numeric | scan | ⟨-, scan⟩ | other := scan_cases c cs
  · exact numeric
  · rw [scan] at h
    exact absurd (h ▸ kind_string_mem c cs) (by decide)
  · rw [scan] at h
    exact absurd (h ▸ kind_identLike_mem (c :: cs)) (by decide)
  · rw [h] at other
    exact absurd other (by decide)

/-- It ends with the name behind the numeral. -/
theorem numeric_dimension (h : (numeric cs).kind = .dimension) :
    startsIdent (cs.drop (Numeral.length cs)) = true ∧
      (numeric cs).more = Numeral.length cs + (name (cs.drop (Numeral.length cs))).1 - 1 := by
  by_cases percent : (cs.drop (Numeral.length cs)).head? = some '%'
  · obtain ⟨rest, found⟩ := List.head?_eq_some_iff.mp percent
    rw [numeric_percent found] at h
    cases h
  · rw [numeric_plain rfl percent] at h ⊢
    split at h
    · rename_i starts
      rw [if_pos starts]
      exact ⟨starts, rfl⟩
    · cases h

end Lexeme

variable {number unit back : List Char}

/-- What a dimension is scanned as: the longest numeral and the name behind it. -/
structure Measured (number unit back : List Char) : Prop where
  number : Numeral.Longest number (number ++ unit ++ back)
  starts : startsIdent (unit ++ back) = true
  name : (name (unit ++ back)).1 = unit.length

namespace Measured

/-- The characters of a dimension are a numeral and a name. -/
theorem exists_parts {c : Char} {cs : List Char} (h : (Lexeme.scan c cs).kind = .dimension) :
    ∃ number unit back, c :: cs = number ++ unit ++ back ∧
      c :: cs.take (Lexeme.scan c cs).more = number ++ unit ∧ Measured number unit back := by
  obtain ⟨starts, scan⟩ := Lexeme.scan_dimension h
  rw [scan] at h ⊢
  obtain ⟨ident, more⟩ := Lexeme.numeric_dimension h
  have longest := Numeral.longest_take starts
  have pos := List.length_pos_iff.mpr longest.ne_nil
  rw [← longest.length_eq] at pos
  rw [more, ← List.take_succ_cons, Nat.sub_add_cancel (Nat.le_add_right_of_le pos), List.take_add]
  generalize Numeral.length (c :: cs) = n at *
  have whole : c :: cs = (c :: cs).take n ++ ((c :: cs).drop n).take
      (Token.name ((c :: cs).drop n)).1 ++
        ((c :: cs).drop n).drop (Token.name ((c :: cs).drop n)).1 := by
    rw [List.append_assoc, List.take_append_drop, List.take_append_drop]
  refine ⟨_, _, _, whole, rfl, ?_, ?_, ?_⟩
  · rw [← whole]
    exact longest
  · rw [List.take_append_drop]
    exact ident
  · rw [List.take_append_drop, List.length_take_of_le (name_le _)]

variable (h : Measured number unit back)

include h

theorem unit_ne_nil : unit ≠ [] := by
  rintro rfl
  obtain ⟨c, cs, found⟩ : ∃ c cs, back = c :: cs := by
    refine List.exists_cons_of_ne_nil ?_
    rintro rfl
    cases h.starts
  have starts := h.starts
  have name := h.name
  rw [List.nil_append, found] at starts name
  exact absurd name (Nat.ne_of_gt (name_pos (.inl starts)))

/-- The unit starts an identifier by itself, unless it is a hyphen in front of a backslash at the end
of a line. -/
theorem startsIdent_unit : startsIdent unit = true ∨
    unit = ['-'] ∧ ∃ c rest, back = '\\' :: c :: rest ∧ isNewline c = true := by
  by_cases hyphen : unit = ['-']
  · have starts := h.starts
    have name := h.name
    rw [hyphen] at starts name
    obtain ⟨cs, rfl, line⟩ := exists_newline_of_name starts name
    cases cs with
    | nil => cases line
    | cons c rest => exact .inr ⟨hyphen, c, rest, rfl, line⟩
  · refine .inl ?_
    cases back with
    | nil => simpa using h.starts
    | cons c cs =>
      have alone : startsIdent (unit ++ []) = true :=
        Word.startsIdent_before h.starts h.name nofun h.unit_ne_nil hyphen
      rwa [List.append_nil] at alone

/-- The characters of a dimension say by themselves where its numeral ends. -/
theorem length_eq : Numeral.length (number ++ unit) = number.length :=
  (h.number.of_append (List.prefix_append _ _)).length_eq

theorem split_eq {text : String} (parts : text.toList = number ++ unit) :
    Numeral.split text = (String.ofList number, String.ofList unit) := by
  rw [Numeral.split, parts, h.length_eq, List.take_left, List.drop_left]

/-- The numeral has as many bytes as characters. -/
theorem width_number : width number = number.length := by
  have narrow := Numeral.narrow_length (number ++ unit)
  rwa [Numeral.Narrow, h.length_eq, List.take_left] at narrow

end Measured

/-- The node of a dimension holds both parts. -/
theorem tokenNode_dimension {t : Token} {value unit : String} (kind : t.kind = .dimension)
    (parts : Numeral.split t.text = (value, unit)) :
    Grammar.tokenNode t = Located.leaf .dimension (.dimension value unit) t.span := by
  simp only [Grammar.tokenNode, kind, parts]

/-- Every dimension of a text is split where its scan went on from the longest numeral to a name.
Neither part is empty, and the second starts an identifier, unless it is a hyphen in front of a
backslash at the end of a line. -/
theorem dimension_split (source : String) : ∀ t ∈ (tokenize source).tokens, t.kind = .dimension →
    ∃ front number unit back : List Char,
      source.toList = front ++ (number ++ unit ++ back) ∧ width front = t.start ∧
      t.text.toList = number ++ unit ∧
      Numeral.Longest number (number ++ unit ++ back) ∧
      startsIdent (unit ++ back) = true ∧ (name (unit ++ back)).1 = unit.length ∧
      Numeral.length t.text.toList = number.length ∧ width number = number.length ∧
      Numeral.split t.text = (String.ofList number, String.ofList unit) ∧
      Grammar.tokenNode t =
        Located.leaf .dimension (.dimension (String.ofList number) (String.ofList unit)) t.span ∧
      number ≠ [] ∧ unit ≠ [] ∧
      (startsIdent unit = true ∨
        unit = ['-'] ∧ ∃ c rest, back = '\\' :: c :: rest ∧ isNewline c = true) := by
  intro t ht kind
  obtain ⟨k, closes, -⟩ | ⟨front, c, cs, split, bare⟩ := scanned_or_closing source t ht
  · rw [kind] at closes
    cases k <;> cases closes
  · obtain ⟨k, text, start, value, inside, omitted⟩ := t
    simp only [Token.bare, scanned, mk.injEq] at bare
    obtain ⟨rfl, rfl, rfl, -, -⟩ := bare
    obtain ⟨number, unit, back, whole, cut, measured⟩ := Measured.exists_parts kind
    have text := (String.toList_ofList (l := c :: cs.take (Lexeme.scan c cs).more)).trans cut
    have parts := measured.split_eq text
    refine ⟨front, number, unit, back, ?_, rfl, text, measured.number, measured.starts,
      measured.name, ?_, measured.width_number, parts, tokenNode_dimension kind parts,
      measured.number.ne_nil, measured.unit_ne_nil, measured.startsIdent_unit⟩
    · rw [split, whole]
    · rw [text, measured.length_eq]

/-- An `e` with no digits behind it, or with a sign and none, starts the unit. -/
theorem dimension_split_exponent :
    ∃ t ∈ (tokenize "+.5e2e-x").tokens, ∃ front number unit back : List Char,
      "+.5e2e-x".toList = front ++ (number ++ unit ++ back) ∧ width front = t.start ∧
      Numeral.Longest number (number ++ unit ++ back) ∧
      String.ofList number = "+.5e2" ∧ String.ofList unit = "e-x" := by
  obtain ⟨t, ht, kind, parts⟩ : ∃ t ∈ (tokenize "+.5e2e-x").tokens,
      t.kind = .dimension ∧ Numeral.split t.text = ("+.5e2", "e-x") := by
    decide +kernel
  obtain ⟨front, number, unit, back, cut, start, -, longest, -, -, -, -, split, -⟩ :=
    dimension_split "+.5e2e-x" t ht kind
  exact ⟨t, ht, front, number, unit, back, cut, start, longest, Prod.mk.inj (split.symm.trans parts)⟩

/-- A hyphen is a unit in front of a backslash at the end of a line, though no identifier starts
there. -/
theorem not_startsIdent_unit :
    ∃ t ∈ (tokenize "1-\\\n").tokens, t.kind = .dimension ∧
      Numeral.split t.text = ("1", "-") ∧ startsIdent "-".toList = false := by
  decide +kernel

end Stylesheet.Token
