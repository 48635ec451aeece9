import Stylesheet.Token.Nesting
import Stylesheet.Proofs.Run

/-!
# Tokens cover their text

The tokens of a text form one run from its first byte to its last. While brackets are being paired,
the tokens outside all blocks, the contents of open blocks and the block that is too deep to be
tokenized together cover the characters read so far, and every step keeps it so. Pairing changes
only what is recorded inside openers, which is no part of the text.

At the end of a text, a closing token that is made up takes the last of the characters left out, so
nothing is covered twice.
-/

namespace Stylesheet.Token

open Text (width)

/-- A token without its pairing. -/
def unpaired (t : Token) : Token := { t with inside := none }

/-- Tokens, last token first, that make up some characters from the first one on. -/
inductive Covers : List Token → List Char → Prop
  | nil : Covers [] []
  | cons {t : Token} {ts : List Token} {cs : List Char} (start : t.start = width cs)
      (gap : t.omitted ≠ "" → t.kind.opensBlock = true) (before : Covers ts cs) :
      Covers (t :: ts) (cs ++ (t.text.toList ++ t.omitted.toList))

namespace Covers

variable {source : String} {t : Token} {ts us : List Token} {cs rest : List Char}

/-- Pairing does not matter. -/
theorem congr (h : Covers ts cs) (he : us.map unpaired = ts.map unpaired) : Covers us cs := by
  induction h generalizing us with
  | nil =>
    rw [List.map_nil, List.map_eq_nil_iff] at he
    exact he ▸ .nil
  | @cons t ts cs start gap _ ih =>
    obtain ⟨u, us, rfl, hu, hus⟩ := List.map_eq_cons_iff.mp he
    simp only [unpaired, Token.mk.injEq] at hu
    obtain ⟨hk, ht, hs, -, -, ho⟩ := hu
    rw [← ht, ← ho]
    exact .cons (hs.trans start) (by rwa [ho, hk]) (ih hus)

/-- A token that leaves nothing out adds just its text. -/
theorem push (h : Covers ts cs) (start : t.start = width cs) (full : t.omitted = "") :
    Covers (t :: ts) (cs ++ t.text.toList) := by
  have := Covers.cons start (fun hne => absurd full hne) h
  rwa [full, String.toList_empty, List.append_nil] at this

/-- An opener may leave out more of what follows it. -/
theorem leaveOut {left : List Char}
    (h : Covers ({ t with omitted := String.ofList left } :: ts) cs)
    (opens : t.kind.opensBlock = true) (more : List Char) :
    Covers ({ t with omitted := String.ofList (left ++ more) } :: ts) (cs ++ more) := by
  cases h with
  | @cons _ _ cs start gap before =>
    have := Covers.cons (t := { t with omitted := String.ofList (left ++ more) }) start
      (fun _ => opens) before
    simpa using this

/-- Tokens that cover the front of a text run through it. -/
theorem run (h : Covers ts cs) (hs : source.toList = cs ++ rest) :
    Run source 0 ts.reverse (width cs) := by
  induction h generalizing rest with
  | nil => exact .nil (Text.stands_zero source).isValid
  | @cons t ts cs start gap _ ih =>
    rw [List.append_assoc] at hs
    rw [List.reverse_cons, Run.append_iff]
    refine ⟨width cs, ih hs, ?_⟩
    have stands : Text.Stands source t.start (t.text.toList ++ t.omitted.toList) :=
      ⟨cs, rest, hs, start.symm⟩
    have hreach : t.reach = width (cs ++ (t.text.toList ++ t.omitted.toList)) := by
      simp [reach, stop, start, Nat.add_assoc]
    rw [← hreach, ← start]
    refine .cons stands gap (.nil ?_)
    simpa [reach, stop, Nat.add_assoc] using stands.isValid_right

end Covers

/-! ### Lexemes -/

/-- Lexemes cut a text without loss. -/
theorem lexemes_flatMap (cs : List Char) : (lexemes cs).flatMap (·.2) = cs := by
  fun_induction lexemes cs with
  | case1 => rfl
  | case2 c cs x ih => simp [ih]

/-! ### Pairing -/

/-- The opener of a block that is left out, with its text so far. -/
def DeepBlock.token (d : DeepBlock) : Token := { d.opener with omitted := String.ofList d.text }

namespace Nesting

variable {s : Nesting} {t : Token} {d : DeepBlock} {cs : List Char}

/-- All tokens so far, last token first. -/
def soFar (s : Nesting) : List Token :=
  (s.deep.map DeepBlock.token).toList ++ (s.blocks.flatMap OpenBlock.abandon ++ s.outer)

/-- The tokens so far cover what has been read, and only blocks are left out. -/
structure Reads (s : Nesting) (cs : List Char) : Prop where
  covers : Covers s.soFar cs
  offset : s.offset = width cs
  opens : ∀ d, s.deep = some d → d.opener.kind.opensBlock = true

@[simp] theorem deep_add (s : Nesting) (ts : List Token) : (s.add ts).deep = s.deep := by
  rw [add]
  split <;> rfl

@[simp] theorem offset_add (s : Nesting) (ts : List Token) : (s.add ts).offset = s.offset := by
  rw [add]
  split <;> rfl

theorem soFar_add {ts : List Token} (h : s.deep = none) : (s.add ts).soFar = ts ++ s.soFar := by
  obtain ⟨_, outer, blocks, deep, _⟩ := s
  cases h
  cases blocks with
  | nil => simp [add, soFar]
  | cons b bs => simp [add, soFar, OpenBlock.abandon]

theorem unpaired_close (b : OpenBlock) (t : Token) :
    (b.close t).map unpaired = (t :: b.abandon).map unpaired := by
  simp [OpenBlock.close, OpenBlock.abandon, unpaired]

/-- Placing a token adds it at the end; blocks that it closes only get paired. -/
theorem soFar_place (h : s.deep = none) (full : t.omitted = "") :
    (s.place t).soFar.map unpaired = (t :: s.soFar).map unpaired := by
  rw [place]
  split
  · split
    · simp [soFar, h, OpenBlock.abandon]
    · simp [soFar, h, DeepBlock.token, unpaired, full]
  · split
    · rename_i b bs hb
      split
      · rw [soFar_add (by exact h), List.map_append, unpaired_close, ← List.map_append]
        simp [soFar, h, hb]
      · rw [soFar_add h]
        rfl
    · rw [soFar_add h]
      rfl

theorem deep_place (h : s.deep = none) :
    (s.place t).deep = none ∨ t.kind.opensBlock = true ∧ (s.place t).deep = some ⟨t, [], []⟩ := by
  rw [place]
  split
  · rename_i hk
    split
    · exact .inl h
    · exact .inr ⟨hk, rfl⟩
  · split
    · split
      · exact .inl ((deep_add _ _).trans h)
      · exact .inl ((deep_add _ _).trans h)
    · exact .inl ((deep_add _ _).trans h)

theorem offset_place : (s.place t).offset = s.offset := by
  rw [place]
  split
  · split <;> rfl
  · split
    · split
      · exact offset_add _ _
      · exact offset_add _ _
    · exact offset_add _ _

/-- Inside a block that is left out, a token lengthens what is left out or closes the block. -/
theorem skip_cases (s : Nesting) (d : DeepBlock) (t : Token) :
    (∃ awaited, s.skip d t = { s with deep := some ⟨d.opener, d.text ++ t.text.toList, awaited⟩ }) ∨
      s.skip d t = { s with deep := none }.add (OpenBlock.close ⟨d.token, []⟩ t) := by
  rw [skip]
  dsimp only
  split
  · exact .inl ⟨_, rfl⟩
  · exact .inl ⟨_, rfl⟩
  · split
    · exact .inr rfl
    · exact .inl ⟨_, rfl⟩

variable (x : Lexeme × List Char)

/-- One step covers the characters of one more lexeme. -/
theorem Reads.step (h : s.Reads cs) : (s.step x).Reads (cs ++ x.2) := by
  let t : Token := ⟨x.1.kind, String.ofList x.2, s.offset, x.1.value, none, ""⟩
  have htext : t.text.toList = x.2 := String.toList_ofList
  have hstop : t.stop = width (cs ++ x.2) := by
    rw [stop, show t.start = s.offset from rfl, h.offset, Text.width_append]
    rfl
  cases hd : s.deep with
  | some d =>
    have hstep : s.step x = Nesting.skip { s with offset := t.stop } d t := by
      simp only [Nesting.step, hd]
      rfl
    rw [hstep]
    have hs : s.soFar = d.token :: (s.blocks.flatMap OpenBlock.abandon ++ s.outer) := by
      simp [soFar, hd]
    rcases skip_cases { s with offset := t.stop } d t with ⟨awaited, hskip⟩ | hskip
    · rw [hskip]
      refine ⟨?_, hstop, ?_⟩
      · have := (hs ▸ h.covers).leaveOut (h.opens d hd) x.2
        rw [htext]
        simpa [soFar, DeepBlock.token] using this
      · intro d' hd'
        cases hd'
        exact h.opens d hd
    · rw [hskip]
      refine ⟨?_, by rw [offset_add]; exact hstop, by simp⟩
      have := h.covers.push (t := t) h.offset rfl
      rw [htext] at this
      refine this.congr ?_
      rw [soFar_add rfl, List.map_append, unpaired_close, hs]
      simp [soFar, OpenBlock.abandon]
  | none =>
    have hstep : s.step x = Nesting.place { s with offset := t.stop } t := by
      simp only [Nesting.step, hd]
      rfl
    rw [hstep]
    refine ⟨?_, offset_place.trans hstop, ?_⟩
    · have := h.covers.push (t := t) h.offset rfl
      rw [htext] at this
      exact this.congr (soFar_place (s := { s with offset := t.stop }) hd rfl)
    · intro d' hd'
      rcases deep_place (s := { s with offset := t.stop }) (t := t) hd with h' | ⟨hk, h'⟩
      · rw [h'] at hd'
        cases hd'
      · rw [h'] at hd'
        cases hd'
        exact hk

theorem Reads.foldl (xs : List (Lexeme × List Char)) (h : s.Reads cs) :
    (xs.foldl Nesting.step s).Reads (cs ++ xs.flatMap (·.2)) := by
  induction xs generalizing s cs with
  | nil => simpa using h
  | cons x xs ih =>
    rw [List.foldl_cons, List.flatMap_cons, ← List.append_assoc]
    exact ih (h.step x)

theorem reads_empty : Reads {} [] := ⟨.nil, rfl, by simp⟩

end Nesting

/-! ### The end of a text -/

theorem Kind.closing_name {k c : Kind} (h : k.closing = some c) : c.name.utf8ByteSize = 1 := by
  cases k <;> simp only [closing, Option.some.injEq, reduceCtorEq] at h <;> subst h <;> rfl

/-- A character that is given back is the last one left out. -/
theorem reclaim_eq_some {t t' : Token} {k : Kind} (h : t.reclaim k = some t') :
    ∃ front c, t.omitted.toList = front ++ [c] ∧ k.name = c.toString ∧
      t' = { t with omitted := String.ofList front } := by
  unfold reclaim at h
  split at h
  · rename_i c hc
    split at h
    · rename_i hk
      cases h
      obtain ⟨front, hf⟩ := List.getLast?_eq_some_iff.mp hc
      exact ⟨front, c, hf, hk, by rw [hf, List.dropLast_concat]⟩
    · cases h
  · cases h

section

variable {t t' : Token} {k c : Kind} {ts : List Token} {cs : List Char} {b : OpenBlock}

/-- A made-up closing token takes the place of the character that is given back. -/
theorem Covers.reclaim (h : Covers (t :: ts) cs) (hr : t.reclaim c = some t')
    (hk : k.closing = some c) :
    Covers (⟨c, c.name, width cs - 1, none, none, ""⟩ :: t' :: ts) cs := by
  obtain ⟨front, a, ho, hname, rfl⟩ := reclaim_eq_some hr
  cases h with
  | @cons _ _ cs start gap before =>
    have ha : c.name.toList = [a] := by rw [hname]; exact String.toList_singleton a
    have hw : a.utf8Size = 1 := by
      have := Kind.closing_name hk
      rwa [← Text.width_toList, ha, Text.width_cons, Text.width_nil] at this
    have opens : t.omitted ≠ "" := by
      intro he
      rw [he] at ho
      simp at ho
    have hpre := Covers.cons (t := { t with omitted := String.ofList front }) start
      (fun _ => gap opens) before
    rw [String.toList_ofList] at hpre
    have hclose := hpre.push
      (t := ⟨c, c.name, width (cs ++ (t.text.toList ++ front)), none, none, ""⟩) rfl rfl
    have hend : width (cs ++ (t.text.toList ++ (front ++ [a]))) - 1 =
        width (cs ++ (t.text.toList ++ front)) := by
      simp only [Text.width_append, Text.width_cons, Text.width_nil, hw]
      omega
    rw [ho, hend]
    simpa only [ha, List.append_assoc] using hclose

/-- A block that the end of the text ends covers what it covered while it was open. -/
theorem Covers.atEnd (h : Covers (b.abandon ++ ts) cs) :
    Covers (b.atEnd (width cs) ++ ts) cs := by
  obtain ⟨opener, content⟩ := b
  rw [OpenBlock.atEnd]
  split
  · exact h
  · rename_i k hk
    dsimp only at hk ⊢
    split
    · split
      · rename_i o ho
        have := Covers.reclaim h ho hk
        refine this.congr ?_
        simp [OpenBlock.close, unpaired]
      · exact h
    · rename_i t content
      split
      · rename_i t' ht
        have := Covers.reclaim h ht hk
        refine this.congr ?_
        simp [OpenBlock.close, unpaired]
      · exact h

end

/-- Ending a text keeps the tokens so far, last token first, but for what is given back. -/
theorem Nesting.Reads.atEnd {s : Nesting} {cs : List Char} (h : s.Reads cs) :
    Covers s.atEnd cs := by
  have blocks (inner : List Token) (bs : List OpenBlock) (outer : List Token)
      (hc : Covers (inner ++ (bs.flatMap OpenBlock.abandon ++ outer)) cs) :
      Covers (bs.foldl (fun inner b => OpenBlock.atEnd s.offset ⟨b.opener, inner ++ b.content⟩)
        inner ++ outer) cs := by
    induction bs generalizing inner with
    | nil => exact hc
    | cons b bs ih =>
      refine ih _ ?_
      rw [h.offset]
      refine Covers.atEnd ?_
      simpa [OpenBlock.abandon] using hc
  refine blocks _ _ _ ?_
  have hc := h.covers
  unfold soFar at hc
  split
  · rename_i d hd
    rw [hd] at hc
    rw [h.offset]
    exact Covers.atEnd (b := ⟨d.token, []⟩) hc
  · rename_i hd
    rw [hd] at hc
    exact hc

end Token

open Token in
/-- The tokens of a text run from its first byte to its last. -/
theorem tokenize_run (source : String) :
    Run source 0 (tokenize source).tokens (tokenize source).size ∧
      (tokenize source).size = source.utf8ByteSize := by
  have h := Nesting.reads_empty.foldl (lexemes source.toList)
  rw [List.nil_append, lexemes_flatMap] at h
  have hsize : (tokenize source).size = Text.width source.toList := h.offset
  refine ⟨?_, hsize.trans (Text.width_toList source)⟩
  rw [hsize]
  exact h.atEnd.run (List.append_nil _).symm

end Stylesheet
