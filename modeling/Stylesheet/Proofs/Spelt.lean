import Stylesheet.Proofs.Text
import Stylesheet.Proofs.Tokenize

/-!
# How tokens are spelt

Whatever holds of all lexemes and of closing brackets holds of all tokens of a text, for pairing
brackets changes neither the kind nor the characters of a token. So a percentage ends with its sign, a
function with its parenthesis, and a hash starts with its mark. The number of a dimension has as many
bytes as characters.
-/

namespace Stylesheet

namespace Token

variable {P : Token → Prop} {s : Nesting} {t : Token} {x : Lexeme × List Char}

/-- The token as it is scanned: not paired yet, and with nothing left out behind it. -/
def bare (t : Token) : Token := { t with inside := none, omitted := "" }

/-- The token that is scanned off the front of some characters behind others. -/
def scanned (front : List Char) (c : Char) (cs : List Char) : Token :=
  let x := Lexeme.scan c cs
  ⟨x.kind, String.ofList (c :: cs.take x.more), Text.width front, x.value, none, ""⟩

namespace Nesting

/-- All tokens so far were scanned as `P` says. -/
def All (P : Token → Prop) (s : Nesting) : Prop := ∀ t ∈ s.soFar, P t.bare

theorem all_of_unpaired {ts us : List Token} (same : us.map unpaired = ts.map unpaired)
    (h : ∀ t ∈ ts, P t.bare) : ∀ u ∈ us, P u.bare := by
  intro u hu
  have found : unpaired u ∈ ts.map unpaired := same ▸ List.mem_map_of_mem hu
  obtain ⟨t, ht, heq⟩ := List.mem_map.mp found
  have alike : t.unpaired.bare = u.unpaired.bare := congrArg bare heq
  change t.bare = u.bare at alike
  exact alike ▸ h t ht

theorem All.step (h : s.All P)
    (read : P ⟨x.1.kind, String.ofList x.2, s.offset, x.1.value, none, ""⟩) : (s.step x).All P := by
  let t : Token := ⟨x.1.kind, String.ofList x.2, s.offset, x.1.value, none, ""⟩
  have held : ∀ u ∈ t :: s.soFar, P u.bare := List.forall_mem_cons.mpr ⟨read, h⟩
  cases hd : s.deep with
  | none =>
    have placed : s.step x = place { s with offset := t.stop } t := by
      simp only [Nesting.step, hd]
      rfl
    rw [placed]
    exact all_of_unpaired (soFar_place (s := { s with offset := t.stop }) hd rfl) held
  | some d =>
    have skipped : s.step x = skip { s with offset := t.stop } d t := by
      simp only [Nesting.step, hd]
      rfl
    have split : s.soFar = d.token :: (s.blocks.flatMap OpenBlock.abandon ++ s.outer) := by
      simp [soFar, hd]
    rw [skipped]
    obtain ⟨awaited, hs⟩ | hs := skip_cases { s with offset := t.stop } d t
    · rw [hs]
      rw [All, split, List.forall_mem_cons] at h
      exact List.forall_mem_cons.mpr h
    · rw [hs]
      refine all_of_unpaired ?_ held
      rw [soFar_add rfl, List.map_append, unpaired_close, split]
      simp [soFar, OpenBlock.abandon]

/-- The lexemes of what is left of a text are scanned where they stand. -/
theorem All.foldl {source : String} {front cs : List Char} (h : s.All P) (reads : s.Reads front)
    (split : source.toList = front ++ cs)
    (read : ∀ front c cs, source.toList = front ++ c :: cs → P (scanned front c cs)) :
    ((lexemes cs).foldl Nesting.step s).All P := by
  fun_induction lexemes cs generalizing s front
  case case1 => exact h
  case case2 c cs x ih =>
    have first : P ⟨x.kind, String.ofList (c :: cs.take x.more), s.offset, x.value, none, ""⟩ := by
      rw [reads.offset]
      exact read front c cs split
    refine ih (h.step first) (reads.step (x, c :: cs.take x.more)) ?_
    rw [split, List.append_assoc, List.cons_append, List.take_append_drop]

/-- The end of a text adds closing brackets only. -/
theorem all_atEnd_block {size : Nat} {b : OpenBlock}
    (closes : ∀ (k c : Kind) (o : Nat), k.closing = some c → P ⟨c, c.name, o, none, none, ""⟩)
    (h : ∀ t ∈ b.abandon, P t.bare) : ∀ t ∈ b.atEnd size, P t.bare := by
  obtain ⟨opener, content⟩ := b
  rw [OpenBlock.atEnd]
  split
  · exact h
  · rename_i k hk
    have closed {o : Token} {ts : List Token} (ho : P o.bare) (hts : ∀ t ∈ ts, P t.bare) :
        ∀ t ∈ OpenBlock.close ⟨o, ts⟩ ⟨k, k.name, size - 1, none, none, ""⟩, P t.bare := by
      refine List.forall_mem_cons.mpr ⟨closes _ k _ hk, List.forall_mem_append.mpr ⟨hts, ?_⟩⟩
      exact List.forall_mem_singleton.mpr ho
    obtain ⟨inner, first⟩ := List.forall_mem_append.mp h
    rw [List.forall_mem_singleton] at first
    dsimp only at hk inner first ⊢
    split
    · split
      · rename_i o reclaimed
        obtain ⟨_, _, -, -, rfl⟩ := reclaim_eq_some reclaimed
        exact closed first (by rintro _ ⟨⟩)
      · exact h
    · rename_i u us
      obtain ⟨hu, hus⟩ := List.forall_mem_cons.mp inner
      split
      · rename_i o reclaimed
        obtain ⟨_, _, -, -, rfl⟩ := reclaim_eq_some reclaimed
        exact closed first (List.forall_mem_cons.mpr ⟨hu, hus⟩)
      · exact h

theorem All.atEnd
    (closes : ∀ (k c : Kind) (o : Nat), k.closing = some c → P ⟨c, c.name, o, none, none, ""⟩)
    (h : s.All P) : ∀ t ∈ s.atEnd, P t.bare := by
  have blocks (bs : List OpenBlock) (inner : List Token) (hi : ∀ t ∈ inner, P t.bare)
      (hb : ∀ t ∈ bs.flatMap OpenBlock.abandon, P t.bare) :
      ∀ t ∈ bs.foldl
        (fun inner b => OpenBlock.atEnd s.offset ⟨b.opener, inner ++ b.content⟩) inner,
          P t.bare := by
    induction bs generalizing inner with
    | nil => exact hi
    | cons b bs ih =>
      rw [List.flatMap_cons, List.forall_mem_append] at hb
      obtain ⟨first, later⟩ := hb
      obtain ⟨content, opener⟩ := List.forall_mem_append.mp first
      refine ih _ (all_atEnd_block closes ?_) later
      exact List.forall_mem_append.mpr ⟨List.forall_mem_append.mpr ⟨hi, content⟩, opener⟩
  obtain ⟨deep, rest⟩ := List.forall_mem_append.mp h
  obtain ⟨inside, outside⟩ := List.forall_mem_append.mp rest
  refine List.forall_mem_append.mpr ⟨blocks _ _ ?_ inside, outside⟩
  cases hd : s.deep with
  | none => rintro _ ⟨⟩
  | some d =>
    rw [hd] at deep
    exact all_atEnd_block closes deep

end Nesting

/-- What holds of the tokens that are scanned in a text, and of closing brackets, holds of all tokens
of the text as they were scanned. -/
theorem forall_bare {source : String}
    (read : ∀ front c cs, source.toList = front ++ c :: cs → P (scanned front c cs))
    (closes : ∀ (k c : Kind) (o : Nat), k.closing = some c → P ⟨c, c.name, o, none, none, ""⟩) :
    ∀ t ∈ (tokenize source).tokens, P t.bare := by
  have start : Nesting.All P {} := by rintro _ ⟨⟩
  intro t ht
  exact (start.foldl Nesting.reads_empty (List.nil_append _).symm read).atEnd closes t
    (List.mem_reverse.mp ht)

/-- What holds of lexemes and closing brackets holds of all tokens of a text. -/
theorem forall_tokenize {P : Kind → String → Prop}
    (read : ∀ c cs, P (Lexeme.scan c cs).kind
      (String.ofList (c :: cs.take (Lexeme.scan c cs).more)))
    (closes : ∀ k c : Kind, k.closing = some c → P c c.name) (source : String) :
    ∀ t ∈ (tokenize source).tokens, P t.kind t.text :=
  forall_bare (P := fun t => P t.kind t.text) (fun _ c cs _ => read c cs)
    fun k c _ h => closes k c h

/-! ### The characters of some kinds -/

/-- How the tokens of some kinds are spelt. -/
structure Spelt (kind : Kind) (text : String) : Prop where
  percentage : kind = .percentage → ∃ front, text.toList = front ++ ['%']
  function : kind = .function → ∃ front, text.toList = front ++ ['(']
  hash : kind = .hash → ∃ rest, text.toList = '#' :: rest

namespace Spelt

variable {c : Char} {cs rest : List Char} {n : Nat}

theorem take_succ (h : cs.drop n = c :: rest) : cs.take (n + 1) = cs.take n ++ [c] := by
  have found : cs[n]? = some c := by
    have at0 : (cs.drop n)[0]? = cs[n + 0]? := List.getElem?_drop
    rw [h] at at0
    exact at0.symm
  rw [List.take_add_one, found]
  rfl

/-- A token of another kind. -/
theorem other {kind : Kind} {text : String} (h : kind ≠ .percentage ∧ kind ≠ .function ∧ kind ≠ .hash) :
    Spelt kind text :=
  ⟨fun hk => absurd hk h.1, fun hk => absurd hk h.2.1, fun hk => absurd hk h.2.2⟩

theorem numeric (cs : List Char) :
    Spelt (Lexeme.numeric cs).kind (String.ofList (cs.take ((Lexeme.numeric cs).more + 1))) := by
  unfold Lexeme.numeric
  dsimp only
  split
  · rename_i rest h
    refine ⟨fun _ => ⟨cs.take (Numeral.length cs), ?_⟩, by rintro ⟨⟩, by rintro ⟨⟩⟩
    rw [String.toList_ofList]
    exact take_succ h
  · split <;> exact other ⟨by rintro ⟨⟩, by rintro ⟨⟩, by rintro ⟨⟩⟩

theorem identLike (cs : List Char) :
    Spelt (Lexeme.identLike cs).kind (String.ofList (cs.take ((Lexeme.identLike cs).more + 1))) := by
  unfold Lexeme.identLike
  dsimp only
  split
  · rename_i rest h
    have function : Spelt .function (String.ofList (cs.take ((name cs).1 + 1))) := by
      refine ⟨by rintro ⟨⟩, fun _ => ⟨cs.take (name cs).1, ?_⟩, by rintro ⟨⟩⟩
      rw [String.toList_ofList]
      exact take_succ h
    split
    · unfold Lexeme.url
      dsimp only
      split
      · exact function
      · exact function
      · split <;> exact other ⟨by rintro ⟨⟩, by rintro ⟨⟩, by rintro ⟨⟩⟩
    · exact function
  · exact other ⟨by rintro ⟨⟩, by rintro ⟨⟩, by rintro ⟨⟩⟩

theorem string (quote : Char) (cs : List Char) (text : String) :
    Spelt (Lexeme.string quote cs).kind text := by
  unfold Lexeme.string
  split <;> exact other ⟨by rintro ⟨⟩, by rintro ⟨⟩, by rintro ⟨⟩⟩

theorem scan (c : Char) (cs : List Char) :
    Spelt (Lexeme.scan c cs).kind (String.ofList (c :: cs.take (Lexeme.scan c cs).more)) := by
  unfold Lexeme.scan
  split
  · exact other ⟨by rintro ⟨⟩, by rintro ⟨⟩, by rintro ⟨⟩⟩
  · split
    · exact numeric (c :: cs)
    · split
      case h_1 => exact string _ _ _
      case h_2 => exact string _ _ _
      case h_3 =>
        split
        · exact ⟨by rintro ⟨⟩, by rintro ⟨⟩, fun _ => ⟨_, String.toList_ofList⟩⟩
        · exact other ⟨by rintro ⟨⟩, by rintro ⟨⟩, by rintro ⟨⟩⟩
      case h_17 =>
        split
        · exact identLike (_ :: _)
        · exact other ⟨by rintro ⟨⟩, by rintro ⟨⟩, by rintro ⟨⟩⟩
      case h_16 => split <;> exact other ⟨by rintro ⟨⟩, by rintro ⟨⟩, by rintro ⟨⟩⟩
      all_goals exact other ⟨by rintro ⟨⟩, by rintro ⟨⟩, by rintro ⟨⟩⟩

end Spelt

/-! ### Numerals are ASCII -/

namespace Numeral

open Text

/-- The first `n` characters are there and take one byte each. -/
def Narrow (n : Nat) (cs : List Char) : Prop := width (cs.take n) = n

variable {a b : Nat} {cs : List Char}

theorem Narrow.add (h : Narrow a cs) (h' : Narrow b (cs.drop a)) : Narrow (a + b) cs := by
  rw [Narrow, List.take_add, width_append, h, h']

theorem Narrow.cons {c : Char} (hc : c.utf8Size = 1) (h : Narrow a cs) :
    Narrow (a + 1) (c :: cs) := by
  rw [Narrow, List.take_succ_cons, width_cons, hc, h, Nat.add_comm]

theorem narrow_zero (cs : List Char) : Narrow 0 cs := rfl

theorem utf8Size_of_isDigit {c : Char} (h : c.isDigit = true) : c.utf8Size = 1 := by
  simp only [Char.isDigit, Bool.and_eq_true, decide_eq_true_eq] at h
  have low : c.val ≤ 127 := UInt32.le_trans h.2 (by decide)
  exact if_pos low

theorem narrow_digits (cs : List Char) : Narrow (digits cs) cs := by
  induction cs with
  | nil => rfl
  | cons c cs ih =>
    rw [digits, List.takeWhile_cons]
    split
    · rename_i digit
      exact ih.cons (utf8Size_of_isDigit digit)
    · exact narrow_zero _

theorem narrow_sign (cs : List Char) : Narrow (sign cs) cs := by
  unfold sign
  split <;> rfl

theorem narrow_fraction (cs : List Char) : Narrow (fraction cs) cs := by
  unfold fraction
  split
  · split
    · exact narrow_zero _
    · exact (narrow_digits _).cons rfl
  · exact narrow_zero _

theorem narrow_exponent (cs : List Char) : Narrow (exponent cs) cs := by
  unfold exponent
  split
  · rename_i c cs
    dsimp only
    split
    · rename_i marks
      have narrow : c.utf8Size = 1 := by obtain rfl | rfl := marks <;> rfl
      split
      · exact narrow_zero _
      · have power := (narrow_sign cs).add (narrow_digits (cs.drop (sign cs)))
        rw [Nat.add_assoc, Nat.add_comm]
        exact power.cons narrow
    · exact narrow_zero _
  · exact narrow_zero _

/-- A numeral has as many bytes as characters. -/
theorem narrow_length (cs : List Char) : Narrow (length cs) cs :=
  (((narrow_sign cs).add (narrow_digits _)).add (narrow_fraction _)).add (narrow_exponent _)

end Numeral

/-- The tokens of a text are spelt as their kinds say. -/
theorem tokenize_spelt (source : String) : ∀ t ∈ (tokenize source).tokens, Spelt t.kind t.text := by
  refine forall_tokenize Spelt.scan (fun k c h => Spelt.other ?_) source
  cases k <;> simp only [Kind.closing, Option.some.injEq, reduceCtorEq] at h <;> subst h <;>
    exact ⟨by rintro ⟨⟩, by rintro ⟨⟩, by rintro ⟨⟩⟩

end Token

end Stylesheet
