import Stylesheet.Proofs.Compiled.Name
import Stylesheet.Proofs.Nesting.WellFormed
import Stylesheet.Proofs.Verbatim.Node

/-!
# Tokens apart from their text

Where a name ends depends on what follows it. Still, a name, a hash or a delimiter that was scanned
within a text is what it is in front of a comma, too, if it was not the last token of the text and
if no lone backslash follows it: a hyphen in front of that is a name. The values of strings hold no
U+0000.
-/

namespace Stylesheet

namespace Text

/-- A text is cut in one way at each offset. -/
theorem eq_of_append_eq {front front' back back' : List Char} (h : front ++ back = front' ++ back')
    (same : width front = width front') : front = front' ∧ back = back' := by
  have cut := splitBytes?_append front back
  rw [h, same, splitBytes?_append, Option.some.injEq, Prod.mk.injEq] at cut
  exact ⟨cut.1.symm, cut.2.symm⟩

end Text

namespace Token

open Text (width isNewline Stands)

/-! ### Values of strings -/

section

variable {quote c d : Char} {cs v : List Char} {o : Option (List Char)}

theorem replacement_ne : Text.replacement ≠ '\x00' := by decide

theorem plain_ne (c : Char) : plain c ≠ '\x00' := by
  rw [plain]
  split
  · exact replacement_ne
  · rename_i other
    rintro rfl
    exact other rfl

theorem ofCode_ne (n : Nat) : ofCode n ≠ '\x00' := by
  rw [ofCode]
  split
  · rename_i valid
    intro zero
    have code := congrArg Char.toNat zero
    rw [Char.ofNat, dif_pos valid.2] at code
    exact valid.1 code
  · exact replacement_ne

theorem escape_ne (cs : List Char) : (escape cs).2 ≠ '\x00' := by
  unfold escape
  split
  · exact replacement_ne
  · split
    · exact ofCode_ne _
    · exact plain_ne _

/-- A value that there may be holds no U+0000. -/
def Nonzero (o : Option (List Char)) : Prop := ∀ v ∈ o, '\x00' ∉ v

theorem Nonzero.cons (h : Nonzero o) (ne : d ≠ '\x00') : Nonzero (o.map (d :: ·)) := by
  intro v hv
  obtain ⟨u, hu, rfl⟩ := Option.map_eq_some_iff.mp hv
  rw [List.mem_cons, not_or]
  exact ⟨ne.symm, h u hu⟩

theorem nonzero_nil : Nonzero (some []) := by
  rintro _ ⟨⟩
  exact List.not_mem_nil

/-- The value of a string holds no U+0000. -/
theorem quoted_nonzero (quote : Char) (cs : List Char) : Nonzero (quoted quote cs).2 := by
  fun_induction quoted quote cs
  case case1 | case2 | case4 => exact nonzero_nil
  case case3 => rintro _ ⟨⟩
  case case5 found _ _ ih =>
    rw [found] at ih
    exact ih
  case case6 escaped _ _ found _ _ ih =>
    rw [found] at ih
    exact ih.cons fun zero => escape_ne _ ((congrArg Prod.snd escaped).trans zero)
  case case7 found ih =>
    rw [found] at ih
    exact ih.cons (plain_ne _)

theorem scan_string (h : (Lexeme.scan c cs).kind = .string) :
    Lexeme.scan c cs = Lexeme.string c cs := by
  obtain ⟨-, scan⟩ | scan | ⟨-, scan⟩ | other := Lexeme.scan_cases c cs
  · rw [scan] at h
    exact absurd (h ▸ Lexeme.kind_numeric_mem (c :: cs)) (by decide)
  · exact scan
  · rw [scan] at h
    exact absurd (h ▸ Lexeme.kind_identLike_mem (c :: cs)) (by decide)
  · rw [h] at other
    exact absurd other (by decide)

/-- The value of a string token holds no U+0000. -/
theorem scan_value (h : (Lexeme.scan c cs).kind = .string) :
    '\x00' ∉ ((Lexeme.scan c cs).value.getD "").toList := by
  rw [scan_string h]
  have nonzero := quoted_nonzero c cs
  unfold Lexeme.string
  split
  · rename_i used value found
    rw [found] at nonzero
    rw [Option.getD_some, String.toList_ofList]
    exact nonzero value rfl
  · exact List.not_mem_nil

end

/-! ### Where tokens stand -/

variable {source : String} {front back : List Token} {t u : Token}

/-- Every token of a text was scanned in it, or closes a block that the text leaves open. -/
theorem scanned_or_closing (source : String) : ∀ t ∈ (tokenize source).tokens,
    (∃ k : Kind, k.closing = some t.kind ∧ t.text = t.kind.name) ∨
      ∃ before c cs, source.toList = before ++ c :: cs ∧ t.bare = scanned before c cs :=
  forall_bare (P := fun t => (∃ k : Kind, k.closing = some t.kind ∧ t.text = t.kind.name) ∨
      ∃ before c cs, source.toList = before ++ c :: cs ∧ t = scanned before c cs)
    (fun before c cs split => .inr ⟨before, c, cs, split, rfl⟩)
    fun k _ _ closes => .inl ⟨k, closes, rfl⟩

theorem name_le (cs : List Char) : (name cs).1 ≤ cs.length := by
  fun_induction name cs with
  | case1 | case2 | case5 => exact Nat.zero_le _
  | case3 cs line used meant escaped rest value named ih =>
    have taken := escape_le cs
    rw [escaped] at taken
    rw [named, List.length_drop] at ih
    rw [List.length_cons]
    dsimp only at ih ⊢
    omega
  | case4 c cs _ _ rest value named ih =>
    rw [named] at ih
    rw [List.length_cons]
    dsimp only at ih ⊢
    omega

/-- What is scanned as an identifier or as a hash is scanned from the text that there is. -/
theorem scan_word {c : Char} {cs : List Char}
    (h : (Lexeme.scan c cs).kind = .ident ∨ (Lexeme.scan c cs).kind = .hash) :
    (Lexeme.scan c cs).more ≤ cs.length ∧ (Lexeme.scan c cs).value = none := by
  obtain ident | hash := h
  · obtain ⟨-, scan⟩ := Lexeme.scan_ident ident
    rw [scan] at ident
    rw [scan, Lexeme.identLike_eq_name ident]
    have taken := name_le (c :: cs)
    rw [List.length_cons] at taken
    exact ⟨Nat.sub_le_iff_le_add.mpr taken, rfl⟩
  · obtain ⟨rest, spelt⟩ := (Spelt.scan c cs).hash hash
    rw [String.toList_ofList] at spelt
    obtain ⟨rfl, -⟩ := List.cons.inj spelt
    cases cs with
    | nil => cases hash
    | cons d cs =>
      rw [Lexeme.scan_hash] at hash ⊢
      split at hash
      · rename_i starts
        rw [if_pos starts]
        exact ⟨name_le (d :: cs), rfl⟩
      · cases hash

/-- An identifier or a hash fits in front of what follows it in the text. -/
theorem exists_rest_of_mem (ht : t ∈ (tokenize source).tokens)
    (kind : t.kind = .ident ∨ t.kind = .hash) :
    ∃ before rest, source.toList = before ++ (t.text.toList ++ rest) ∧ width before = t.start ∧
      (Word.mk t.kind t.text.toList none).Fits rest := by
  obtain ⟨k, closes, -⟩ | ⟨before, c, cs, split, bare⟩ := scanned_or_closing source t ht
  · obtain ident | hash := kind
    · rw [ident] at closes
      cases k <;> cases closes
    · rw [hash] at closes
      cases k <;> cases closes
  · obtain ⟨k, text, start, value, inside, omitted⟩ := t
    simp only [Token.bare, scanned, mk.injEq] at bare
    obtain ⟨rfl, rfl, rfl, rfl, -⟩ := bare
    obtain ⟨within, valueless⟩ := scan_word kind
    have whole := List.take_append_drop (Lexeme.scan c cs).more cs
    refine ⟨before, cs.drop (Lexeme.scan c cs).more, ?_, rfl, c, _, String.toList_ofList, ?_⟩
    · rw [split, String.toList_ofList, List.cons_append, whole]
    · rw [whole, List.length_take_of_le within, ← valueless]

/-- A token that opens no block leaves nothing out, and the next one stands right behind it. -/
theorem stands_next (split : (tokenize source).tokens = front ++ t :: u :: back)
    (plain : t.kind.opensBlock = false) :
    t.omitted = "" ∧ u.start = t.start + width t.text.toList ∧
      Stands source t.start (t.text.toList ++ u.text.toList) := by
  obtain ⟨run, -⟩ := tokenize_run source
  rw [split, Run.append_iff] at run
  obtain ⟨m, -, run⟩ := run
  obtain ⟨-, stands, gap, run⟩ := Run.cons_iff.mp run
  obtain ⟨next, stands', -, -⟩ := Run.cons_iff.mp run
  have omitted : t.omitted = "" := by
    by_contra some
    rw [gap some] at plain
    cases plain
  have start : u.start = t.start + width t.text.toList := by
    rw [← next, reach, stop, omitted, Text.width_toList]
    rfl
  rw [start] at stands'
  exact ⟨omitted, start, stands.left.append stands'.left⟩

/-- A name that is a hyphen only ends in front of a backslash at the end of a line. -/
theorem exists_newline_of_name {rest : List Char} (starts : startsIdent ('-' :: rest) = true)
    (length : (name ('-' :: rest)).1 = 1) : ∃ cs, rest = '\\' :: cs ∧ atNewline cs = true := by
  obtain _ | ⟨d, ds⟩ := rest
  · cases starts
  · rw [name_char (by decide) rfl] at length
    have none : (name (d :: ds)).1 = 0 := Nat.add_left_cancel (n := 1) length
    by_cases slash : d = '\\'
    · subst slash
      refine ⟨ds, rfl, ?_⟩
      by_contra line
      rw [name_escaped line] at none
      dsimp only at none
      omega
    · have char : isNameChar d = true := by
        simp only [startsIdent, Bool.or_eq_true, decide_eq_true_eq] at starts
        obtain (start | rfl) | same := starts
        · rw [isNameChar, start]
          rfl
        · rfl
        · exact absurd same slash
      rw [name_char slash char] at none
      dsimp only at none
      omega

/-- A hyphen is an identifier only in front of a backslash at the end of a line. -/
theorem exists_newline_of_hyphen {rest : List Char} (h : (Word.ident ['-']).Fits rest) :
    ∃ cs, rest = '\\' :: cs ∧ atNewline cs = true := by
  obtain ⟨starts, length⟩ := Word.name_of_fits h
  exact exists_newline_of_name starts length

/-- A backslash at the end of a line is a delimiter. -/
theorem scan_lone_slash {cs : List Char} (line : atNewline cs = true) :
    Lexeme.scan '\\' cs = ⟨.delim, 0, none⟩ := by
  have starts : startsIdent ('\\' :: cs) = false := by
    rw [startsIdent, line]
    rfl
  rw [Lexeme.scan_other (by decide) (by exact Bool.false_ne_true) (by decide), starts,
    if_neg Bool.false_ne_true]

/-- What follows a hyphen that is a name is a backslash. -/
theorem isDelim_of_hyphen {before rest : List Char} (hu : u ∈ (tokenize source).tokens)
    (split : source.toList = before ++ rest) (start : width before = u.start)
    (front : u.text.toList <+: rest) (h : (Word.ident ['-']).Fits rest) :
    u.isDelim '\\' = true := by
  obtain ⟨cs, rfl, line⟩ := exists_newline_of_hyphen h
  obtain ⟨k, closes, text⟩ | ⟨before', c, cs', split', bare⟩ := scanned_or_closing source u hu
  · rw [text] at front
    obtain ⟨more, front⟩ := front
    cases k <;> simp only [Kind.closing, Option.some.injEq, reduceCtorEq] at closes <;>
      rw [← closes] at front <;> cases front
  · obtain ⟨kind, text, start', value, inside, omitted⟩ := u
    simp only [Token.bare, scanned, mk.injEq] at bare
    obtain ⟨rfl, rfl, rfl, -, -⟩ := bare
    obtain ⟨rfl, same⟩ := Text.eq_of_append_eq (split.symm.trans split') start
    obtain ⟨rfl, rfl⟩ := List.cons.inj same
    simp [isDelim, delim?, scan_lone_slash line]

/-! ### Portable tokens -/

/-- A token that says all there is to know of it: nothing is left out behind it, and its characters
are scanned as they were in front of a comma, too. -/
structure Portable (t : Token) : Prop where
  omitted : t.kind.opensBlock = false → t.omitted = ""
  delim : t.kind = .delim → ∃ c, t.text.toList = [c]
  ident : t.kind = .ident → (Word.ident t.text.toList).Fits [',']
  hash : t.kind = .hash → ∃ cs, t.text.toList = '#' :: cs ∧ (Word.hash cs).Fits [',']
  string : t.kind = .string → '\x00' ∉ (t.value.getD "").toList

theorem closing_comma : Closing [','] := by
  rintro _ ⟨⟩
  decide

/-- A hash that is scanned in front of more text stays one in front of all that closes names. -/
theorem fits_hash_before {cs rest more : List Char} (h : (Word.hash cs).Fits rest)
    (some : rest ≠ []) (closing : Closing more) : (Word.hash cs).Fits more := by
  obtain ⟨c, ds, text, scan⟩ := h
  obtain ⟨rfl, rfl⟩ := List.cons.inj text
  have whole : rest = [] → '\\' ∉ cs := fun none => absurd none some
  have kind := congrArg Lexeme.kind scan
  obtain _ | ⟨d, cs⟩ := cs
  · obtain ⟨d, rest, rfl⟩ := List.exists_cons_of_ne_nil some
    rw [List.nil_append, Lexeme.scan_hash] at scan kind
    split at kind
    · rename_i starts
      rw [if_pos starts] at scan
      exact absurd (congrArg Lexeme.more scan) (Nat.ne_of_gt (name_pos starts))
    · cases kind
  · refine ⟨'#', d :: cs, rfl, ?_⟩
    rw [List.cons_append, Lexeme.scan_hash] at scan kind ⊢
    split at kind
    · rename_i starts
      rw [if_pos starts] at scan
      have length : (name (d :: cs ++ rest)).1 = (d :: cs).length := congrArg Lexeme.more scan
      have length' := name_before length whole closing
      have starts' : startsIdent (d :: (cs ++ more)) = true ∨ d.isDigit = true ∨ d = '-' := by
        obtain ident | other := starts
        · by_cases hyphen : d = '-'
          · exact .inr (.inr hyphen)
          · exact .inl (Word.startsIdent_before (s := d :: cs) ident length whole
              (List.cons_ne_nil d cs) fun same => hyphen (List.cons.inj same).1)
        · exact .inr other
      rw [if_pos starts', ← List.cons_append, length']
      rfl
    · cases kind

/-- An identifier or a hash fits in front of the next token and of what follows that. -/
theorem exists_rest_of_next (split : (tokenize source).tokens = front ++ t :: u :: back)
    (kind : t.kind = .ident ∨ t.kind = .hash) :
    ∃ before rest, source.toList = (before ++ t.text.toList) ++ rest ∧
      width (before ++ t.text.toList) = u.start ∧
        (Word.mk t.kind t.text.toList none).Fits rest ∧ u.text.toList <+: rest ∧ rest ≠ [] := by
  have mem : t ∈ (tokenize source).tokens := by simp [split]
  have mem' : u ∈ (tokenize source).tokens := by simp [split]
  have plain : t.kind.opensBlock = false := by
    obtain kind | kind := kind <;> rw [kind] <;> rfl
  obtain ⟨-, next, before', after, cut', start'⟩ := stands_next split plain
  obtain ⟨before, rest, cut, start, fits⟩ := exists_rest_of_mem mem kind
  obtain ⟨-, same⟩ := Text.eq_of_append_eq (cut.symm.trans cut') (start.trans start'.symm)
  rw [List.append_assoc, List.append_cancel_left_eq] at same
  refine ⟨before, rest, ?_, ?_, fits, ⟨after, same.symm⟩, ?_⟩
  · rw [cut, List.append_assoc]
  · rw [Text.width_append, start, next]
  · rintro rfl
    rw [eq_comm, List.append_eq_nil_iff, String.toList_eq_nil_iff] at same
    exact TokenList.text_ne_empty source u mem' same.1

/-- An identifier fits in front of a comma, unless it is a hyphen in front of a lone backslash. -/
theorem ident_fits_comma (split : (tokenize source).tokens = front ++ t :: u :: back)
    (slash : u.isDelim '\\' = false) (ident : t.kind = .ident) :
    (Word.ident t.text.toList).Fits [','] := by
  obtain ⟨before, rest, cut, start, fits, next, some⟩ := exists_rest_of_next split (.inl ident)
  rw [ident] at fits
  refine Word.fits_ident_before fits (fun none => absurd none some) (fun hyphen => ?_)
    closing_comma (by decide) (fun _ => by decide)
  rw [hyphen] at fits
  have mem : u ∈ (tokenize source).tokens := by simp [split]
  rw [isDelim_of_hyphen mem cut start next fits] at slash
  cases slash

theorem hash_fits_comma (split : (tokenize source).tokens = front ++ t :: u :: back)
    (hash : t.kind = .hash) : ∃ cs, t.text.toList = '#' :: cs ∧ (Word.hash cs).Fits [','] := by
  obtain ⟨before, rest, -, -, fits, -, some⟩ := exists_rest_of_next split (.inr hash)
  have mem : t ∈ (tokenize source).tokens := by simp [split]
  obtain ⟨cs, text⟩ := (tokenize_spelt source t mem).hash hash
  rw [hash, text] at fits
  exact ⟨cs, text, fits_hash_before fits some closing_comma⟩

theorem value_nonzero (ht : t ∈ (tokenize source).tokens) (string : t.kind = .string) :
    '\x00' ∉ (t.value.getD "").toList := by
  obtain ⟨k, closes, -⟩ | ⟨before, c, cs, -, bare⟩ := scanned_or_closing source t ht
  · rw [string] at closes
    cases k <;> cases closes
  · obtain ⟨kind, text, start, value, inside, omitted⟩ := t
    simp only [Token.bare, scanned, mk.injEq] at bare
    obtain ⟨rfl, rfl, -, rfl, -⟩ := bare
    exact scan_value string

/-- A token of a text is portable if another one follows it that is no lone backslash. -/
theorem portable (split : (tokenize source).tokens = front ++ t :: u :: back)
    (slash : u.isDelim '\\' = false) : t.Portable := by
  have mem : t ∈ (tokenize source).tokens := by simp [split]
  exact {
    omitted := fun plain => (stands_next split plain).1
    delim := (tokenize_marked source t mem).delim
    ident := ident_fits_comma split slash
    hash := hash_fits_comma split
    string := value_nonzero mem }

/-- Tokens with no lone backslash among them or behind them are portable. -/
theorem forall_portable {ts : List Token}
    (split : (tokenize source).tokens = front ++ (ts ++ u :: back))
    (plain : ∀ t ∈ ts, t.isDelim '\\' = false) (last : u.isDelim '\\' = false) :
    ∀ t ∈ ts, t.Portable := by
  intro t ht
  obtain ⟨before, after, rfl⟩ := List.append_of_mem ht
  cases after with
  | nil =>
    have cut : (tokenize source).tokens = (front ++ before) ++ t :: u :: back := by
      rw [split]
      simp
    exact portable cut last
  | cons next after =>
    have cut : (tokenize source).tokens =
        (front ++ before) ++ t :: next :: (after ++ u :: back) := by
      rw [split]
      simp
    exact portable cut (plain next (by simp))

end Token

end Stylesheet
