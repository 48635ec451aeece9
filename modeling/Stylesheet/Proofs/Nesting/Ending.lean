import Stylesheet.Proofs.Matched

/-!
# The end of a text

Where a text ends, every block that is open ends with it. Mostly nothing else happens: the tokens are
those so far. But where text was left out and its last character is the closing bracket of an open
block, the innermost of these blocks gets a closing token made of that character. No second block does,
because the token made up leaves nothing out.
-/

namespace Stylesheet

namespace Token

variable {size : Nat} {t : Token} {ts us outer : List Token} {k : Kind}

/-- The closing token that is made up for a block which ends with a text of `size` bytes. -/
def madeUp (k : Kind) (size : Nat) : Token := ⟨k, k.name, size - 1, none, none, ""⟩

/-- What the end of a text of `size` bytes makes of the tokens so far, all of them last token first. -/
inductive Ends (size : Nat) : List Token → List Token → Prop
  | same {ts : List Token} : Ends size ts ts
  | closed {t short opener : Token} {k : Kind} {rest inner below : List Token}
    (reclaimed : t.reclaim k = some short) (split : short :: rest = inner ++ opener :: below)
    (own : opener.kind.closing = some k) (waits : opener.inside = none) :
    Ends size (t :: rest)
      (madeUp k size :: (inner ++ { opener with inside := some inner.length } :: below))

theorem Ends.append (h : Ends size ts us) : Ends size (ts ++ outer) (us ++ outer) := by
  cases h with
  | same => exact .same
  | @closed t short opener k rest inner below reclaimed split own waits =>
    have split' : short :: (rest ++ outer) = inner ++ opener :: (below ++ outer) := by
      rw [← List.cons_append, split, List.append_assoc, List.cons_append]
    have ended : Ends size (t :: (rest ++ outer)) _ := .closed reclaimed split' own waits
    simpa only [List.cons_append, List.append_assoc] using ended

/-- In the order of the text, a block that is closed at its end gets a closing token behind all others,
and the token in front of that leaves less out. -/
theorem Ends.in_order (h : Ends size ts us) : us = ts ∨
    ∃ (before front inner : List Token) (t short opener : Token) (k : Kind),
      ts.reverse = before ++ [t] ∧ t.reclaim k = some short ∧
      before ++ [short] = front ++ opener :: inner ∧
      opener.kind.closing = some k ∧ opener.inside = none ∧
      us.reverse = front ++ { opener with inside := some inner.length } ::
        (inner ++ [madeUp k size]) := by
  cases h with
  | same => exact .inl rfl
  | @closed t short opener k rest inner below reclaimed split own waits =>
    refine .inr ⟨rest.reverse, below.reverse, inner.reverse, t, short, opener, k, List.reverse_cons,
      reclaimed, ?_, own, waits, ?_⟩
    · rw [← List.reverse_cons, split, List.reverse_append, List.reverse_cons, List.append_assoc,
        List.singleton_append]
    · simp

theorem reclaim_full (full : t.omitted = "") : t.reclaim k = none := by
  rw [reclaim, full]
  rfl

theorem omitted_ne_of_reclaim {short : Token} (h : t.reclaim k = some short) : t.omitted ≠ "" := by
  intro full
  rw [reclaim_full full] at h
  cases h

namespace OpenBlock

/-- Nothing is made up after a token that leaves nothing out. -/
theorem atEnd_full {b : OpenBlock} (last : b.content.head? = some t) (full : t.omitted = "") :
    b.atEnd size = b.abandon := by
  obtain ⟨opener, content⟩ := b
  obtain ⟨ts, rfl⟩ := List.head?_eq_some_iff.mp last
  rw [atEnd]
  dsimp only
  cases opener.kind.closing with
  | none => rfl
  | some k =>
    dsimp only
    rw [reclaim_full full]

/-- One block ends with the text. -/
theorem atEnd_ends {b : OpenBlock} (waits : b.opener.inside = none) :
    Ends size b.abandon (b.atEnd size) := by
  obtain ⟨opener, content⟩ := b
  rw [atEnd]
  cases own : opener.kind.closing with
  | none => exact .same
  | some k =>
    cases content with
    | nil =>
      dsimp only
      cases reclaimed : opener.reclaim k with
      | none => exact .same
      | some short =>
        obtain ⟨_, _, -, -, rfl⟩ := reclaim_eq_some reclaimed
        exact .closed reclaimed (List.nil_append _).symm own waits
    | cons t ts =>
      dsimp only
      cases reclaimed : t.reclaim k with
      | none => exact .same
      | some short => exact .closed reclaimed (List.cons_append ..).symm own waits

end OpenBlock

namespace Nesting

variable {s : Nesting} {bs : List OpenBlock} {inner : List Token}

/-- The blocks around a token that leaves nothing out stay open. -/
theorem foldl_atEnd_full (last : inner.head? = some t) (full : t.omitted = "") :
    bs.foldl (fun inner b => OpenBlock.atEnd size ⟨b.opener, inner ++ b.content⟩) inner =
      inner ++ bs.flatMap OpenBlock.abandon := by
  induction bs generalizing inner with
  | nil => exact (List.append_nil inner).symm
  | cons b bs ih =>
    obtain ⟨rest, rfl⟩ := List.head?_eq_some_iff.mp last
    have alone : OpenBlock.atEnd size ⟨b.opener, t :: rest ++ b.content⟩ =
        t :: (rest ++ b.abandon) := by
      rw [OpenBlock.atEnd_full rfl full, OpenBlock.abandon, OpenBlock.abandon]
      simp only [List.cons_append, List.append_assoc]
    rw [List.foldl_cons, alone, ih rfl]
    simp only [List.flatMap_cons, List.cons_append, List.append_assoc]

/-- All blocks end with the text, one around the other. -/
theorem foldl_atEnd (waits : ∀ b ∈ bs, b.opener.inside = none) :
    Ends size (inner ++ bs.flatMap OpenBlock.abandon)
      (bs.foldl (fun inner b => OpenBlock.atEnd size ⟨b.opener, inner ++ b.content⟩) inner) := by
  induction bs generalizing inner with
  | nil =>
    rw [List.flatMap_nil, List.append_nil]
    exact .same
  | cons b bs ih =>
    obtain ⟨first, later⟩ := List.forall_mem_cons.mp waits
    have whole : inner ++ (b :: bs).flatMap OpenBlock.abandon =
        OpenBlock.abandon ⟨b.opener, inner ++ b.content⟩ ++ bs.flatMap OpenBlock.abandon := by
      simp only [List.flatMap_cons, OpenBlock.abandon, List.append_assoc]
    rw [whole, List.foldl_cons]
    have one : Ends size (OpenBlock.abandon ⟨b.opener, inner ++ b.content⟩) _ :=
      OpenBlock.atEnd_ends first
    generalize OpenBlock.atEnd size ⟨b.opener, inner ++ b.content⟩ = ended at one ⊢
    generalize OpenBlock.abandon ⟨b.opener, inner ++ b.content⟩ = before at one ⊢
    cases one with
    | same => exact ih later
    | closed reclaimed split own closes =>
      rw [foldl_atEnd_full rfl rfl]
      exact (Ends.closed reclaimed split own closes).append

/-- The tokens so far in the order of the text, without the opener of a block that is left out. -/
def settled (s : Nesting) : List Token := (s.blocks.flatMap OpenBlock.abandon ++ s.outer).reverse

theorem soFar_reverse (s : Nesting) :
    s.soFar.reverse = s.settled ++ (s.deep.map DeepBlock.token).toList := by
  rw [soFar, settled]
  cases s.deep <;> simp

theorem settled_add (s : Nesting) (ts : List Token) :
    (s.add ts).settled = s.settled ++ ts.reverse := by
  obtain ⟨offset, outer, blocks, deep, truncated⟩ := s
  cases blocks with
  | nil => simp [settled, add]
  | cons b bs => simp [settled, add, OpenBlock.abandon]

/-- Closing the innermost block records how many tokens it holds and adds the closing token. -/
theorem settled_close {b : OpenBlock} (blocks : s.blocks = b :: bs) :
    s.settled = settled { s with blocks := bs } ++ b.opener :: b.content.reverse ∧
      ({ s with blocks := bs }.add (b.close t)).settled = settled { s with blocks := bs } ++
        { b.opener with inside := some b.content.reverse.length } :: (b.content.reverse ++ [t]) := by
  constructor
  · rw [settled, settled, blocks]
    simp [OpenBlock.abandon]
  · rw [settled_add, OpenBlock.close]
    simp

/-- All blocks that are open, innermost first. -/
def openBlocks (s : Nesting) : List OpenBlock :=
  (s.deep.map fun d => ⟨d.token, []⟩).toList ++ s.blocks

/-- The end of a text leaves the tokens so far as they are, or closes one block. -/
theorem Pairing.ends (h : s.Pairing) : Ends s.offset s.soFar s.atEnd := by
  have soFar_eq : s.soFar = s.openBlocks.flatMap OpenBlock.abandon ++ s.outer := by
    rw [soFar, openBlocks]
    cases s.deep <;> rfl
  have atEnd_eq : s.atEnd = s.openBlocks.foldl
      (fun inner b => OpenBlock.atEnd s.offset ⟨b.opener, inner ++ b.content⟩) [] ++ s.outer := by
    rw [Nesting.atEnd, openBlocks]
    cases s.deep <;> rfl
  have waits : ∀ b ∈ s.openBlocks, b.opener.inside = none := by
    intro b hb
    obtain hd | hb := List.mem_append.mp hb
    · obtain ⟨d, deep, rfl⟩ := Option.map_eq_some_iff.mp (Option.mem_toList.mp hd)
      exact h.deep d deep
    · exact (h.blocks b hb).2.1
  have ended : Ends s.offset ([] ++ s.openBlocks.flatMap OpenBlock.abandon) _ := foldl_atEnd waits
  rw [soFar_eq, atEnd_eq]
  exact ended.append

end Nesting

end Token

end Stylesheet
