import Stylesheet.Proofs.Closed
import Stylesheet.Proofs.Concat.Scan
import Stylesheet.Proofs.Shift.Scope

/-!
# Tokens of a text in two parts

Pairing brackets never looks at a place. So from a state in which nothing is open, the tokens of a
text are added to those before it, shifted. A first part whose blocks are all closed leaves such a
state behind, and if its last token is a semicolon or a closing bracket, no lexeme spans both parts:
the tokens of the whole text are those of its first part followed by those of its second.
-/

namespace Stylesheet

namespace Token

variable {k : Nat}

@[simp] theorem reclaim_shift (t : Token) (c : Kind) :
    (t.shift k).reclaim c = (t.reclaim c).map (shift k) := by
  rw [reclaim, reclaim, omitted_shift]
  split
  · split <;> rfl
  · rfl

namespace OpenBlock

/-- The block, `k` bytes further on. -/
def shift (k : Nat) (b : OpenBlock) : OpenBlock := ⟨b.opener.shift k, b.content.map (Token.shift k)⟩

variable (b : OpenBlock)

@[simp] theorem close_shift (t : Token) :
    (b.shift k).close (t.shift k) = (b.close t).map (Token.shift k) := by
  simp [close, shift, Token.shift]

@[simp] theorem abandon_shift : (b.shift k).abandon = b.abandon.map (Token.shift k) := by
  simp [abandon, shift]

/-- A block that a text ends, unless the text is empty, ends alike wherever the text stands. -/
theorem atEnd_shift {size : Nat} (pos : 0 < size) :
    (b.shift k).atEnd (size + k) = (b.atEnd size).map (Token.shift k) := by
  have last (c : Kind) : (⟨c, c.name, size + k - 1, none, none, ""⟩ : Token) =
      Token.shift k ⟨c, c.name, size - 1, none, none, ""⟩ := by
    rw [Token.shift]
    congr 1
    dsimp only
    omega
  obtain ⟨opener, content⟩ := b
  rw [atEnd, atEnd]
  dsimp only [shift]
  rw [kind_shift]
  split
  · exact abandon_shift ⟨opener, content⟩
  · rename_i c _
    rw [last]
    cases content with
    | nil =>
      rw [List.map_nil]
      dsimp only
      rw [reclaim_shift]
      cases opener.reclaim c with
      | none => exact abandon_shift ⟨opener, []⟩
      | some o => exact close_shift ⟨o, []⟩ _
    | cons t ts =>
      rw [List.map_cons]
      dsimp only
      rw [reclaim_shift]
      cases t.reclaim c with
      | none => exact abandon_shift ⟨opener, t :: ts⟩
      | some t' => exact close_shift ⟨opener, t' :: ts⟩ _

end OpenBlock

/-- The block, `k` bytes further on. -/
def DeepBlock.shift (k : Nat) (d : DeepBlock) : DeepBlock := ⟨d.opener.shift k, d.text, d.awaited⟩

namespace Nesting

/-- The same state, reached `k` bytes further on, after the tokens `before`, last first. -/
def after (k : Nat) (before : List Token) (s : Nesting) : Nesting :=
  ⟨s.offset + k, s.outer.map (Token.shift k) ++ before, s.blocks.map (OpenBlock.shift k),
    s.deep.map (DeepBlock.shift k), s.truncated.map (· + k)⟩

variable {before : List Token} (s : Nesting)

theorem add_after (ts : List Token) :
    (s.after k before).add (ts.map (Token.shift k)) = (s.add ts).after k before := by
  obtain ⟨offset, outer, blocks, deep, truncated⟩ := s
  cases blocks with
  | nil => simp [add, after]
  | cons b bs => simp [add, after, OpenBlock.shift]

section

variable {s} {t : Token} {b : OpenBlock} {bs : List OpenBlock}

theorem place_opener (opens : t.kind.opensBlock = true) (room : s.blocks.length < maxDepth) :
    s.place t = { s with blocks := ⟨t, []⟩ :: s.blocks } := by
  rw [place, if_pos opens, if_pos room]

theorem place_deep (opens : t.kind.opensBlock = true) (room : ¬s.blocks.length < maxDepth) :
    s.place t = { s with deep := some ⟨t, [], []⟩, truncated := t.stop :: s.truncated } := by
  rw [place, if_pos opens, if_neg room]

theorem place_closer (plain : t.kind.opensBlock = false) (blocks : s.blocks = b :: bs)
    (own : b.opener.kind.closing = some t.kind) :
    s.place t = { s with blocks := bs }.add (b.close t) := by
  rw [place, plain, if_neg Bool.false_ne_true, blocks]
  exact if_pos own

theorem place_other (plain : t.kind.opensBlock = false)
    (other : ∀ b bs, s.blocks = b :: bs → b.opener.kind.closing ≠ some t.kind) :
    s.place t = s.add [t] := by
  rw [place, plain, if_neg Bool.false_ne_true]
  cases blocks : s.blocks with
  | nil => rfl
  | cons b bs => exact if_neg (other b bs blocks)

/-- What placing a token does: it opens a block, starts one that is left out, closes one, or is
added. -/
theorem place_cases (s : Nesting) (t : Token) :
    (t.kind.opensBlock = true ∧ s.blocks.length < maxDepth) ∨
    (t.kind.opensBlock = true ∧ ¬s.blocks.length < maxDepth) ∨
    (t.kind.opensBlock = false ∧
      ∃ b bs, s.blocks = b :: bs ∧ b.opener.kind.closing = some t.kind) ∨
    (t.kind.opensBlock = false ∧
      ∀ b bs, s.blocks = b :: bs → b.opener.kind.closing ≠ some t.kind) := by
  cases t.kind.opensBlock with
  | true =>
    by_cases room : s.blocks.length < maxDepth
    · exact .inl ⟨rfl, room⟩
    · exact .inr (.inl ⟨rfl, room⟩)
  | false =>
    by_cases own : ∃ b bs, s.blocks = b :: bs ∧ b.opener.kind.closing = some t.kind
    · exact .inr (.inr (.inl ⟨rfl, own⟩))
    · exact .inr (.inr (.inr ⟨rfl, fun b bs blocks own' => own ⟨b, bs, blocks, own'⟩⟩))

end

theorem place_after (t : Token) :
    (s.after k before).place (t.shift k) = (s.place t).after k before := by
  have length : (s.after k before).blocks.length = s.blocks.length := List.length_map _
  obtain ⟨opens, room⟩ | ⟨opens, room⟩ | ⟨plain, b, bs, blocks, own⟩ | ⟨plain, other⟩ :=
    place_cases s t
  · rw [place_opener opens room, place_opener (t := t.shift k) opens (by rwa [length])]
    rfl
  · rw [place_deep opens room, place_deep (t := t.shift k) opens (by rwa [length]), stop_shift]
    rfl
  · have blocks' : (s.after k before).blocks = b.shift k :: bs.map (OpenBlock.shift k) :=
      congrArg (List.map (OpenBlock.shift k)) blocks
    rw [place_closer plain blocks own, place_closer (t := t.shift k) plain blocks' own, ← add_after,
      ← OpenBlock.close_shift]
    rfl
  · rw [place_other plain other, place_other (t := t.shift k) plain, ← add_after]
    · rfl
    · intro b' bs' blocks'
      obtain ⟨b, bs, blocks, rfl, -⟩ := List.map_eq_cons_iff.mp blocks'
      exact other b bs blocks

section

variable {s} {d : DeepBlock} {t : Token} {c : Kind} {awaited : List Kind}

theorem skip_opener (closing : t.kind.closing = some c) :
    s.skip d t = { s with deep := some ⟨d.opener, d.text ++ t.text.toList, c :: d.awaited⟩ } := by
  rw [skip]
  dsimp only
  rw [closing]

theorem skip_awaiting (closing : t.kind.closing = none) (waits : d.awaited = c :: awaited) :
    s.skip d t = { s with deep := some ⟨d.opener, d.text ++ t.text.toList,
      if t.kind = c then awaited else c :: awaited⟩ } := by
  rw [skip]
  dsimp only
  rw [closing, waits]

theorem skip_closer (closing : t.kind.closing = none) (waits : d.awaited = [])
    (own : d.opener.kind.closing = some t.kind) :
    s.skip d t = { s with deep := none }.add (OpenBlock.close ⟨d.token, []⟩ t) := by
  rw [skip]
  dsimp only
  rw [closing, waits]
  exact if_pos own

theorem skip_other (closing : t.kind.closing = none) (waits : d.awaited = [])
    (other : d.opener.kind.closing ≠ some t.kind) :
    s.skip d t = { s with deep := some ⟨d.opener, d.text ++ t.text.toList, []⟩ } := by
  rw [skip]
  dsimp only
  rw [closing, waits]
  exact if_neg other

end

theorem skip_after (d : DeepBlock) (t : Token) :
    (s.after k before).skip (d.shift k) (t.shift k) = (s.skip d t).after k before := by
  cases closing : t.kind.closing with
  | some c =>
    rw [skip_opener (t := t) closing, skip_opener (t := t.shift k) closing]
    rfl
  | none =>
    cases waits : d.awaited with
    | cons c awaited =>
      rw [skip_awaiting (t := t) closing waits,
        skip_awaiting (d := d.shift k) (t := t.shift k) closing waits]
      rfl
    | nil =>
      by_cases own : d.opener.kind.closing = some t.kind
      · rw [skip_closer (t := t) closing waits own,
          skip_closer (d := d.shift k) (t := t.shift k) closing waits own, ← add_after,
          ← OpenBlock.close_shift]
        rfl
      · rw [skip_other (t := t) closing waits own,
          skip_other (d := d.shift k) (t := t.shift k) closing waits own]
        rfl

section

variable {s} {x : Lexeme × List Char}

/-- The token of a lexeme that comes next. -/
def next (s : Nesting) (x : Lexeme × List Char) : Token :=
  ⟨x.1.kind, String.ofList x.2, s.offset, x.1.value, none, ""⟩

theorem step_deep {d : DeepBlock} (h : s.deep = some d) :
    s.step x = { s with offset := (s.next x).stop }.skip d (s.next x) := by
  rw [step, h]
  rfl

theorem step_place (h : s.deep = none) :
    s.step x = { s with offset := (s.next x).stop }.place (s.next x) := by
  rw [step, h]
  rfl

end

/-- A step does not look at places or at the tokens outside all blocks. -/
theorem step_after (x : Lexeme × List Char) :
    (s.after k before).step x = (s.step x).after k before := by
  let t : Token := ⟨x.1.kind, String.ofList x.2, s.offset, x.1.value, none, ""⟩
  have reached : { s.after k before with offset := (t.shift k).stop } =
      after k before { s with offset := t.stop } := by
    rw [stop_shift]
    rfl
  cases deep : s.deep with
  | none =>
    have deep' : (s.after k before).deep = none := by rw [after, deep]; rfl
    have next : (s.after k before).step x =
        place { s.after k before with offset := (t.shift k).stop } (t.shift k) := step_place deep'
    rw [next, reached, step, deep]
    exact place_after _ t
  | some d =>
    have deep' : (s.after k before).deep = some (d.shift k) := by rw [after, deep]; rfl
    have next : (s.after k before).step x =
        skip { s.after k before with offset := (t.shift k).stop } (d.shift k) (t.shift k) :=
      step_deep deep'
    rw [next, reached, step, deep]
    exact skip_after _ d t

theorem foldl_after (xs : List (Lexeme × List Char)) :
    xs.foldl step (s.after k before) = (xs.foldl step s).after k before := by
  induction xs generalizing s with
  | nil => rfl
  | cons x xs ih => rw [List.foldl_cons, List.foldl_cons, step_after, ih]

theorem atEnd_after (pos : 0 < s.offset) :
    (s.after k before).atEnd = s.atEnd.map (Token.shift k) ++ before := by
  have ends (b : OpenBlock) := OpenBlock.atEnd_shift (k := k) b pos
  have blocks (bs : List OpenBlock) (inner : List Token) :
      (bs.map (OpenBlock.shift k)).foldl
          (fun inner b => OpenBlock.atEnd (s.offset + k) ⟨b.opener, inner ++ b.content⟩)
          (inner.map (Token.shift k)) =
        (bs.foldl (fun inner b => OpenBlock.atEnd s.offset ⟨b.opener, inner ++ b.content⟩)
          inner).map (Token.shift k) := by
    induction bs generalizing inner with
    | nil => rfl
    | cons b bs ih =>
      rw [List.map_cons, List.foldl_cons, List.foldl_cons, ← ih, ← ends]
      simp only [OpenBlock.shift, List.map_append]
  rw [atEnd, atEnd, List.map_append, List.append_assoc, ← blocks]
  congr 2
  rw [after]
  dsimp only
  cases s.deep with
  | none => rfl
  | some d => exact ends ⟨{ d.opener with omitted := String.ofList d.text }, []⟩

/-! ### What is open and what is closed -/

section

variable {s : Nesting} {t : Token} {ts : List Token} {x : Lexeme × List Char}

@[simp] theorem truncated_add (ts : List Token) : (s.add ts).truncated = s.truncated := by
  rw [add]
  split <;> rfl

theorem truncated_place (s : Nesting) (t : Token) :
    (s.place t).truncated = s.truncated ∨ (s.place t).truncated = t.stop :: s.truncated := by
  obtain ⟨opens, room⟩ | ⟨opens, room⟩ | ⟨plain, b, bs, blocks, own⟩ | ⟨plain, other⟩ :=
    place_cases s t
  · exact .inl (by rw [place_opener opens room])
  · exact .inr (by rw [place_deep opens room])
  · exact .inl (by rw [place_closer plain blocks own, truncated_add])
  · exact .inl (by rw [place_other plain other, truncated_add])

theorem truncated_skip (d : DeepBlock) : (s.skip d t).truncated = s.truncated := by
  obtain ⟨awaited, h⟩ | h := skip_cases s d t
  · rw [h]
  · rw [h, truncated_add]

/-- A step leaves out at most the block that its token opens. -/
theorem truncated_step_cases (s : Nesting) (x : Lexeme × List Char) :
    (s.step x).truncated = s.truncated ∨
      (s.step x).truncated = (s.next x).stop :: s.truncated := by
  cases deep : s.deep with
  | none =>
    rw [step_place deep]
    exact truncated_place { s with offset := (s.next x).stop } (s.next x)
  | some d => exact .inl (by rw [step_deep deep, truncated_skip])

theorem truncated_step (s : Nesting) (x : Lexeme × List Char) :
    s.truncated <:+ (s.step x).truncated := by
  obtain same | more := truncated_step_cases s x
  · exact same ▸ List.suffix_rfl
  · exact more ▸ List.suffix_cons _ _

theorem truncated_foldl (s : Nesting) (xs : List (Lexeme × List Char)) :
    s.truncated <:+ (xs.foldl step s).truncated := by
  induction xs generalizing s with
  | nil => exact List.suffix_rfl
  | cons x xs ih => exact (truncated_step s x).trans (ih (s.step x))

/-- Blocks that are open wait for their ends, and all others are closed. -/
structure Paired (s : Nesting) : Prop where
  outer : Closed s.outer.reverse
  blocks : ∀ b ∈ s.blocks,
    b.opener.kind.opensBlock = true ∧ b.opener.inside = none ∧ Closed b.content.reverse

namespace Paired

/-- Closed tokens may be added wherever the text is being read. -/
theorem add (h : s.Paired) (closed : Closed ts.reverse) : (s.add ts).Paired := by
  obtain ⟨offset, outer, blocks, deep, truncated⟩ := s
  cases blocks with
  | nil =>
    refine ⟨?_, h.blocks⟩
    show Closed (ts ++ outer).reverse
    rw [List.reverse_append]
    exact h.outer.append closed
  | cons b bs =>
    obtain ⟨⟨opens, waits, content⟩, later⟩ := List.forall_mem_cons.mp h.blocks
    refine ⟨h.outer, List.forall_mem_cons.mpr ⟨⟨opens, waits, ?_⟩, later⟩⟩
    show Closed (ts ++ b.content).reverse
    rw [List.reverse_append]
    exact content.append closed

theorem close {b : OpenBlock} (content : Closed b.content.reverse)
    (own : b.opener.kind.closing = some t.kind) : Closed (b.close t).reverse := by
  have block : Closed ({ b.opener with inside := some b.content.length } ::
      (b.content.reverse ++ t :: [])) :=
    .block own (by rw [List.length_reverse]) content .nil
  simpa [OpenBlock.close] using block

theorem place (h : s.Paired) (fresh : t.inside = none) : (s.place t).Paired := by
  obtain ⟨opens, room⟩ | ⟨opens, room⟩ | ⟨plain, b, bs, hb, own⟩ | ⟨plain, other⟩ :=
    place_cases s t
  · rw [place_opener opens room]
    exact ⟨h.outer, List.forall_mem_cons.mpr ⟨⟨opens, fresh, .nil⟩, h.blocks⟩⟩
  · rw [place_deep opens room]
    exact ⟨h.outer, h.blocks⟩
  · rw [place_closer plain hb own]
    have blocks := h.blocks
    rw [hb] at blocks
    obtain ⟨⟨-, -, content⟩, later⟩ := List.forall_mem_cons.mp blocks
    have rest : Paired { s with blocks := bs } := ⟨h.outer, later⟩
    exact rest.add (close content own)
  · rw [place_other plain other]
    exact h.add (.leaf plain .nil)

end Paired

/-- Besides, nothing is left out. -/
structure Sound (s : Nesting) : Prop extends s.Paired where
  deep : s.deep = none
  full : ∀ t ∈ s.soFar, t.omitted = "" ∧ t.text ≠ ""

namespace Sound

theorem empty : Sound {} where
  outer := .nil
  blocks := by rintro _ ⟨⟩
  deep := rfl
  full := by rintro _ ⟨⟩

theorem place (h : s.Sound) (full : t.omitted = "" ∧ t.text ≠ "") (fresh : t.inside = none)
    (none : (s.place t).truncated = []) : (s.place t).Sound where
  toPaired := h.toPaired.place fresh
  deep := by
    obtain ⟨opens, room⟩ | ⟨opens, room⟩ | ⟨plain, b, bs, hb, own⟩ | ⟨plain, other⟩ :=
      place_cases s t
    · rw [place_opener opens room]
      exact h.deep
    · rw [place_deep opens room] at none
      cases none
    · rw [place_closer plain hb own, deep_add]
      exact h.deep
    · rw [place_other plain other, deep_add]
      exact h.deep
  full := by
    intro u hu
    have found : unpaired u ∈ (t :: s.soFar).map unpaired := by
      rw [← soFar_place h.deep full.1]
      exact List.mem_map_of_mem hu
    obtain ⟨v, hv, same⟩ := List.mem_map.mp found
    have omitted : v.unpaired.omitted = u.unpaired.omitted := congrArg Token.omitted same
    have text : v.unpaired.text = u.unpaired.text := congrArg Token.text same
    change u.unpaired.omitted = "" ∧ u.unpaired.text ≠ ""
    rw [← omitted, ← text]
    obtain rfl | hv := List.mem_cons.mp hv
    · exact full
    · exact h.full v hv

theorem step (h : s.Sound) (chars : x.2 ≠ []) (none : (s.step x).truncated = []) :
    (s.step x).Sound := by
  rw [step_place h.deep] at none ⊢
  have text : String.ofList x.2 ≠ "" := by
    intro empty
    exact chars (by simpa using congrArg String.toList empty)
  have moved : Sound { s with offset := (s.next x).stop } := ⟨⟨h.outer, h.blocks⟩, h.deep, h.full⟩
  exact moved.place ⟨rfl, text⟩ rfl none

theorem foldl {xs : List (Lexeme × List Char)} (h : s.Sound) (chars : ∀ x ∈ xs, x.2 ≠ [])
    (none : (xs.foldl Nesting.step s).truncated = []) : (xs.foldl Nesting.step s).Sound := by
  induction xs generalizing s with
  | nil => exact h
  | cons x xs ih =>
    obtain ⟨first, later⟩ := List.forall_mem_cons.mp chars
    have reached := truncated_foldl (s.step x) xs
    rw [List.foldl_cons] at none
    rw [none, List.suffix_nil] at reached
    exact ih (h.step first reached) later none

/-- The kind of the last token is that of the last lexeme. -/
theorem kinds (h : s.Sound) : (s.step x).soFar.map kind = x.1.kind :: s.soFar.map kind := by
  have same := soFar_place (s := { s with offset := (s.next x).stop }) (t := s.next x) h.deep rfl
  rw [← step_place h.deep] at same
  have kinds := congrArg (List.map kind) same
  rw [List.map_map, List.map_map] at kinds
  exact kinds

theorem atEnd_block {size : Nat} {b : OpenBlock} (full : ∀ t ∈ b.abandon, t.omitted = "") :
    b.atEnd size = b.abandon := by
  have never {t : Token} {c : Kind} (h : t.omitted = "") : t.reclaim c = none := by
    rw [reclaim, h]
    rfl
  obtain ⟨opener, content⟩ := b
  rw [OpenBlock.atEnd]
  split
  · rfl
  · cases content with
    | nil =>
      dsimp only
      rw [never (full opener (List.mem_singleton_self opener))]
    | cons t ts =>
      dsimp only
      rw [never (full t List.mem_cons_self)]

/-- At its end a text that leaves nothing out has the tokens read so far. -/
theorem atEnd (h : s.Sound) : s.atEnd = s.soFar := by
  have blocks (bs : List OpenBlock) (inner : List Token)
      (full : ∀ t ∈ inner ++ bs.flatMap OpenBlock.abandon, t.omitted = "") :
      bs.foldl (fun inner b => OpenBlock.atEnd s.offset ⟨b.opener, inner ++ b.content⟩) inner =
        inner ++ bs.flatMap OpenBlock.abandon := by
    induction bs generalizing inner with
    | nil => exact (List.append_nil inner).symm
    | cons b bs ih =>
      have split : inner ++ (b :: bs).flatMap OpenBlock.abandon =
          OpenBlock.abandon ⟨b.opener, inner ++ b.content⟩ ++ bs.flatMap OpenBlock.abandon := by
        simp [OpenBlock.abandon]
      rw [split] at full ⊢
      rw [List.foldl_cons, atEnd_block fun t ht => full t (List.mem_append_left _ ht)]
      exact ih _ full
  have tokens : s.soFar = [] ++ s.blocks.flatMap OpenBlock.abandon ++ s.outer := by
    rw [soFar, h.deep]
    rfl
  rw [Nesting.atEnd, h.deep, tokens]
  dsimp only
  rw [blocks]
  intro t ht
  refine (h.full t ?_).1
  rw [tokens]
  exact List.mem_append_left _ ht

end Sound

end

end Nesting

/-! ### Both parts -/

/-- Every lexeme covers some characters. -/
theorem lexemes_chars (cs : List Char) : ∀ x ∈ lexemes cs, x.2 ≠ [] := by
  fun_induction lexemes cs with
  | case1 =>
    rintro _ ⟨⟩
  | case2 c cs x ih => exact List.forall_mem_cons.mpr ⟨List.cons_ne_nil c _, ih⟩

end Token

open Token

namespace TokenList

/-- Nothing of a text is left out, and all its blocks are closed. -/
structure Closed (list : TokenList) : Prop where
  full : list.truncated = []
  closed : ∀ t ∈ list.tokens, t.kind.opensBlock = true → t.inside.isSome = true

/-- Besides, its last token is a semicolon or a closing bracket. -/
structure Complete (list : TokenList) : Prop extends list.Closed where
  ends : ∃ t, list.tokens.getLast? = some t ∧ t.kind.isEnder = true

variable {x : String}

/-- The state in which a text ends. -/
def stateOf (x : String) : Nesting := (lexemes x.toList).foldl Nesting.step {}

theorem tokenize_eq (x : String) :
    tokenize x = ⟨(stateOf x).atEnd.reverse, (stateOf x).truncated.reverse, (stateOf x).offset⟩ :=
  rfl

theorem stateOf_sound (full : (tokenize x).truncated = []) : (stateOf x).Sound :=
  Nesting.Sound.empty.foldl (lexemes_chars x.toList) (List.reverse_eq_nil_iff.mp full)

/-- A text that leaves nothing out has the tokens read in the end. -/
theorem tokens_eq (full : (tokenize x).truncated = []) :
    (tokenize x).tokens = (stateOf x).soFar.reverse :=
  congrArg List.reverse (stateOf_sound full).atEnd

/-- Every token has characters. -/
theorem text_ne (full : (tokenize x).truncated = []) :
    ∀ t ∈ (tokenize x).tokens, t.text ≠ "" := by
  intro t ht
  rw [tokens_eq full, List.mem_reverse] at ht
  exact ((stateOf_sound full).full t ht).2

namespace Closed

/-- A text whose blocks are closed leaves none open. -/
theorem blocks_eq (h : (tokenize x).Closed) : (stateOf x).blocks = [] := by
  have sound := stateOf_sound h.full
  cases blocks : (stateOf x).blocks with
  | nil => rfl
  | cons b bs =>
    obtain ⟨opens, waits, -⟩ := sound.blocks b (blocks ▸ List.mem_cons_self)
    have found : b.opener ∈ (tokenize x).tokens := by
      rw [tokens_eq h.full, Nesting.soFar, blocks]
      simp [OpenBlock.abandon]
    have closed := h.closed b.opener found opens
    rw [waits] at closed
    cases closed

/-- All its tokens stand outside the blocks that are open. -/
theorem outer_eq (h : (tokenize x).Closed) : (stateOf x).outer = (tokenize x).tokens.reverse := by
  rw [tokens_eq h.full, List.reverse_reverse, Nesting.soFar, (stateOf_sound h.full).deep,
    h.blocks_eq]
  rfl

theorem tokens (h : (tokenize x).Closed) : Token.Closed (tokenize x).tokens := by
  have closed := (stateOf_sound h.full).outer
  rwa [h.outer_eq, List.reverse_reverse] at closed

/-- The text that follows is read as if nothing stood before it. -/
theorem stateOf_eq (h : (tokenize x).Closed) :
    stateOf x = Nesting.after (tokenize x).size (tokenize x).tokens.reverse {} := by
  have outer := h.outer_eq
  have blocks := h.blocks_eq
  have deep := (stateOf_sound h.full).deep
  have truncated : (stateOf x).truncated = [] := List.reverse_eq_nil_iff.mp h.full
  have size : (tokenize x).size = (stateOf x).offset := rfl
  rw [size]
  generalize stateOf x = s at *
  obtain ⟨offset, _, _, _, _⟩ := s
  cases outer
  cases blocks
  cases deep
  cases truncated
  rw [Nesting.after, Nat.zero_add]
  rfl

end Closed

namespace Complete

/-- The last token was made of the last lexeme. -/
theorem lexemes_getLast (h : (tokenize x).Complete) :
    ∃ z, (lexemes x.toList).getLast? = some z ∧ z.1.kind.isEnder = true := by
  obtain ⟨last, found, ender⟩ := h.ends
  have chars := lexemes_chars x.toList
  have read : stateOf x = (lexemes x.toList).foldl Nesting.step {} := rfl
  have none : (stateOf x).truncated = [] := List.reverse_eq_nil_iff.mp h.full
  rw [tokens_eq h.full, List.getLast?_reverse] at found
  cases hz : (lexemes x.toList).getLast? with
  | none =>
    rw [read, List.getLast?_eq_none_iff.mp hz] at found
    cases found
  | some z =>
    obtain ⟨before, split⟩ := List.getLast?_eq_some_iff.mp hz
    rw [split] at chars
    rw [read, split, List.foldl_append, List.foldl_cons, List.foldl_nil] at none found
    have reached := Nesting.truncated_step (before.foldl Nesting.step {}) z
    rw [none, List.suffix_nil] at reached
    have sound := Nesting.Sound.empty.foldl
      (fun x hx => chars x (List.mem_append_left [z] hx)) reached
    have kinds := congrArg List.head? (sound.kinds (x := z))
    rw [List.head?_map, found] at kinds
    refine ⟨z, rfl, ?_⟩
    rw [← Option.some.inj kinds]
    exact ender

/-- Behind a text whose blocks are closed and whose last token is a semicolon or a closing bracket,
every text has the tokens that it has alone, shifted. -/
theorem tokenize_append (h : (tokenize x).Complete) (y : String) :
    tokenize (x ++ y) =
      ⟨(tokenize x).tokens ++ (tokenize y).tokens.map (Token.shift x.utf8ByteSize),
        (tokenize y).truncated.map (· + x.utf8ByteSize),
        x.utf8ByteSize + (tokenize y).size⟩ := by
  obtain ⟨z, last, ender⟩ := h.lexemes_getLast
  have size := (tokenize_run x).2
  have state : stateOf (x ++ y) =
      (stateOf y).after x.utf8ByteSize (tokenize x).tokens.reverse := by
    rw [stateOf, String.toList_append, (lexemes_append last ender).2, List.foldl_append, ← stateOf,
      h.stateOf_eq, Nesting.foldl_after, size]
    rfl
  have ends : ((stateOf y).after x.utf8ByteSize (tokenize x).tokens.reverse).atEnd =
      (stateOf y).atEnd.map (Token.shift x.utf8ByteSize) ++ (tokenize x).tokens.reverse := by
    obtain nothing | pos := Nat.eq_zero_or_pos (stateOf y).offset
    · have empty : y.utf8ByteSize = 0 := (tokenize_run y).2.symm.trans nothing
      have start : stateOf y = {} := by
        rw [stateOf, String.utf8ByteSize_eq_zero_iff.mp empty, String.toList_empty, lexemes]
        rfl
      rw [start]
      rfl
    · exact Nesting.atEnd_after _ pos
  rw [tokenize_eq (x ++ y), state, ends, List.reverse_append, List.reverse_reverse,
    ← List.map_reverse]
  rw [Nesting.after, ← List.map_reverse, Nat.add_comm]
  rfl

end Complete

/-! ### Places and indices in both parts -/

/-- One list of tokens behind another one: all its offsets are moved. -/
def append (a b : TokenList) : TokenList :=
  ⟨a.tokens ++ b.tokens.map (Token.shift a.size), a.truncated ++ b.truncated.map (· + a.size),
    a.size + b.size⟩

section

variable {a b : TokenList} {i : Nat}

/-- The blocks of the first list are closed where they were. -/
theorem close?_append_left (h : i < a.tokens.length) : (a.append b).close? i = a.close? i := by
  rw [close?, append, List.getElem?_append_left h, close?]

/-- Those of the second list are closed as many tokens further on as the first one has. -/
theorem close?_append_right :
    (a.append b).close? (a.tokens.length + i) = (b.close? i).map (a.tokens.length + ·) := by
  rw [close?, append, List.getElem?_append_right (Nat.le_add_right _ _), Nat.add_sub_cancel_left,
    List.getElem?_map, close?]
  cases b.tokens[i]? with
  | none => rfl
  | some t =>
    simp only [Option.map_some, Option.bind_some, inside_shift, Option.map_map]
    congr 1
    funext n
    exact (Nat.add_assoc a.tokens.length (i + 1) n)

end

/-- Behind a text whose blocks are closed and whose last token is a semicolon or a closing bracket,
every text is cut and paired as it is alone. -/
theorem tokenize_behind {x : String} (h : (tokenize x).Complete) (y : String) :
    tokenize (x ++ y) = (tokenize x).append (tokenize y) ∧
      (∀ i < (tokenize x).tokens.length,
        (tokenize (x ++ y)).close? i = (tokenize x).close? i) ∧
      ∀ i, (tokenize (x ++ y)).close? ((tokenize x).tokens.length + i) =
        ((tokenize y).close? i).map ((tokenize x).tokens.length + ·) := by
  have both : tokenize (x ++ y) = (tokenize x).append (tokenize y) := by
    rw [h.tokenize_append, append, h.full, (tokenize_run x).2, List.nil_append]
  rw [both]
  exact ⟨rfl, fun i within => close?_append_left within, fun i => close?_append_right⟩

/-- A stray closing bracket closes none of the blocks in front. -/
theorem tokenize_behind_stray :
    (tokenize "a(\x7b\x7d);").Complete ∧
      tokenize ("a(\x7b\x7d);" ++ "\x7d)[b") =
        (tokenize "a(\x7b\x7d);").append (tokenize "\x7d)[b") ∧
      ∀ i < 5, (tokenize ("a(\x7b\x7d);" ++ "\x7d)[b")).close? i =
        (tokenize "a(\x7b\x7d);").close? i := by
  have complete : (tokenize "a(\x7b\x7d);").Complete :=
    { full := by decide +kernel
      closed := by decide +kernel
      ends := ⟨⟨.semicolon, ";", 5, none, none, ""⟩, by decide +kernel, rfl⟩ }
  have length : (tokenize "a(\x7b\x7d);").tokens.length = 5 := by decide +kernel
  obtain ⟨both, closed, -⟩ := tokenize_behind complete "\x7d)[b"
  rw [length] at closed
  exact ⟨complete, both, closed⟩

end TokenList

end Stylesheet
