import Mathlib.Data.List.Forall2
import Mathlib.Data.List.Nodup
import Stylesheet.Proofs.Nesting.WellFormed
import Stylesheet.Proofs.Removal.Open

/-!
# Brackets of a text

Matching the brackets of a text takes no more than a stack: an opener is put on it, and a closing token
of the kind that the topmost opener waits for takes that one off. Pairing, which builds tokens and leaves
out what is nested too deeply, does the same. So an opener is closed where the stack says, and no other
one is, unless the text ends in a block that is left out: there a closing token may be made up.
-/

namespace Stylesheet

namespace Token

/-- The brackets of a text part of the way through it. -/
structure Brackets where
  /-- Bytes read. -/
  offset : Nat := 0
  /-- The blocks that are open, innermost first: where each begins, and which kind of token ends it. -/
  waiting : List (Nat × Kind) := []
  /-- The blocks that were closed, last one first: where each begins, and where its closing token
  stands. -/
  closed : List (Nat × Nat) := []
  deriving DecidableEq, Repr, Inhabited

namespace Brackets

/-- Take the next lexeme of the text. -/
def step (b : Brackets) (x : Lexeme × List Char) : Brackets :=
  let next := b.offset + (String.ofList x.2).utf8ByteSize
  match x.1.kind.closing, b.waiting with
  | some k, waiting => { b with offset := next, waiting := (b.offset, k) :: waiting }
  | none, (opener, k) :: waiting =>
    if x.1.kind = k then ⟨next, waiting, (opener, b.offset) :: b.closed⟩
    else { b with offset := next }
  | none, [] => { b with offset := next }

/-- The brackets of a whole text. -/
def ofText (text : String) : Brackets := (lexemes text.toList).foldl step {}

variable {b : Brackets} {x : Lexeme × List Char} {k : Kind}

theorem step_opener (closing : x.1.kind.closing = some k) :
    b.step x = { b with
      offset := b.offset + (String.ofList x.2).utf8ByteSize
      waiting := (b.offset, k) :: b.waiting } := by
  rw [step, closing]

theorem step_closer {w : Nat × Kind} {waiting : List (Nat × Kind)} (closing : x.1.kind.closing = none)
    (top : b.waiting = w :: waiting) (own : x.1.kind = w.2) :
    b.step x = ⟨b.offset + (String.ofList x.2).utf8ByteSize, waiting, (w.1, b.offset) :: b.closed⟩ := by
  rw [step, closing, top]
  exact if_pos own

theorem step_other (closing : x.1.kind.closing = none)
    (other : ∀ w waiting, b.waiting = w :: waiting → x.1.kind ≠ w.2) :
    b.step x = { b with offset := b.offset + (String.ofList x.2).utf8ByteSize } := by
  rw [step, closing]
  cases top : b.waiting with
  | nil => rfl
  | cons w waiting => exact if_neg (other w waiting top)

theorem step_kept {w : Nat × Kind} {waiting : List (Nat × Kind)} (closing : x.1.kind.closing = none)
    (top : b.waiting = w :: waiting) (other : x.1.kind ≠ w.2) :
    b.step x = { b with offset := b.offset + (String.ofList x.2).utf8ByteSize } := by
  refine step_other closing fun v waiting' top' => ?_
  obtain ⟨rfl, -⟩ := List.cons.inj (top.symm.trans top')
  exact other

theorem offset_step (b : Brackets) (x : Lexeme × List Char) :
    (b.step x).offset = b.offset + (String.ofList x.2).utf8ByteSize := by
  rw [step]
  split
  · rfl
  · split <;> rfl
  · rfl

/-- Every block begins at a place of its own. -/
structure Distinct (b : Brackets) : Prop where
  nodup : (b.waiting.map Prod.fst ++ b.closed.map Prod.fst).Nodup
  before : ∀ a ∈ b.waiting.map Prod.fst ++ b.closed.map Prod.fst, a < b.offset

namespace Distinct

theorem empty : Distinct {} := ⟨List.nodup_nil, by rintro _ ⟨⟩⟩

theorem step (h : b.Distinct) (chars : x.2 ≠ []) : (b.step x).Distinct := by
  have size : 0 < (String.ofList x.2).utf8ByteSize := by
    refine Nat.pos_of_ne_zero fun none => chars ?_
    have := String.utf8ByteSize_eq_zero_iff.mp none
    simpa using congrArg String.toList this
  have later (a : Nat) (ha : a ∈ b.waiting.map Prod.fst ++ b.closed.map Prod.fst) :
      a < b.offset + (String.ofList x.2).utf8ByteSize := Nat.lt_add_right _ (h.before a ha)
  cases closing : x.1.kind.closing with
  | some k =>
    rw [step_opener closing]
    constructor
    · exact List.nodup_cons.mpr ⟨fun found => Nat.lt_irrefl _ (h.before _ found), h.nodup⟩
    · exact List.forall_mem_cons.mpr ⟨Nat.lt_add_of_pos_right size, later⟩
  | none =>
    by_cases own : ∃ w waiting, b.waiting = w :: waiting ∧ x.1.kind = w.2
    · obtain ⟨w, waiting, top, own⟩ := own
      rw [step_closer closing top own]
      have moved : (waiting.map Prod.fst ++ w.1 :: b.closed.map Prod.fst).Perm
          (b.waiting.map Prod.fst ++ b.closed.map Prod.fst) := by
        rw [top]
        exact List.perm_middle
      constructor
      · exact moved.nodup_iff.mpr h.nodup
      · exact fun a ha => later a (moved.mem_iff.mp ha)
    · rw [step_other closing fun w waiting top own' => own ⟨w, waiting, top, own'⟩]
      exact ⟨h.nodup, later⟩

theorem foldl {xs : List (Lexeme × List Char)} (h : b.Distinct) (chars : ∀ x ∈ xs, x.2 ≠ []) :
    (xs.foldl Brackets.step b).Distinct := by
  induction xs generalizing b with
  | nil => exact h
  | cons x xs ih =>
    obtain ⟨first, rest⟩ := List.forall_mem_cons.mp chars
    exact ih (h.step first) rest

/-- A block that is still open was not closed. -/
theorem not_closed {a c : Nat} {w : Nat × Kind} (h : b.Distinct) (open' : w ∈ b.waiting)
    (start : a = w.1) : (a, c) ∉ b.closed := by
  intro closed
  have disjoint := (List.nodup_append.mp h.nodup).2.2
  exact disjoint w.1 (List.mem_map_of_mem open') w.1 (start ▸ List.mem_map_of_mem closed) rfl

/-- A block is closed in one place. -/
theorem unique {a c d : Nat} (h : b.Distinct) (first : (a, c) ∈ b.closed)
    (second : (a, d) ∈ b.closed) : c = d := by
  have nodup := (List.nodup_append.mp h.nodup).2.1
  exact congrArg Prod.snd (List.inj_on_of_nodup_map nodup first second (Eq.refl a))

end Distinct

end Brackets

/-! ### Closed blocks -/

/-- Every opener that is recorded as closed is paired with the token where the record says. -/
def Linked (pairs : List (Nat × Nat)) (ts : List Token) : Prop :=
  ∀ (i : Nat) (t : Token) (n : Nat), ts[i]? = some t → t.inside = some n →
    ∃ c, (ts.map Token.start)[i + 1 + n]? = some c ∧ (t.start, c) ∈ pairs

namespace Linked

variable {pairs more : List (Nat × Nat)} {ts inner : List Token} {t o : Token}

theorem nil : Linked pairs [] := by
  rintro _ _ _ ⟨⟩

theorem mono (h : Linked pairs ts) (subset : pairs ⊆ more) : Linked more ts := by
  intro i t n found inside
  obtain ⟨c, closer, paired⟩ := h i t n found inside
  exact ⟨c, closer, subset paired⟩

theorem append_start {a : Nat} {i : Nat} {as : List Nat} {c : Nat} (h : as[i]? = some c) :
    (as ++ [a])[i]? = some c := by
  rwa [List.getElem?_append_left (List.getElem?_eq_some_iff.mp h).1]

/-- One more token, not closed. -/
theorem concat (h : Linked pairs ts) (waits : t.inside = none) : Linked pairs (ts ++ [t]) := by
  intro i u n found inside
  obtain ⟨-, found⟩ | ⟨-, rfl⟩ := getElem?_concat_cases found
  · obtain ⟨c, closer, paired⟩ := h i u n found inside
    refine ⟨c, ?_, paired⟩
    rw [List.map_append, List.map_singleton]
    exact append_start closer
  · rw [waits] at inside
    cases inside

/-- One block is closed. -/
theorem close (h : Linked pairs (ts ++ o :: inner)) (paired : (o.start, t.start) ∈ pairs)
    (waits : t.inside = none) :
    Linked pairs (ts ++ { o with inside := some inner.length } :: (inner ++ [t])) := by
  have starts : (ts ++ { o with inside := some inner.length } :: (inner ++ [t])).map Token.start =
      (ts ++ o :: inner).map Token.start ++ [t.start] := by simp
  have whole : ts ++ { o with inside := some inner.length } :: (inner ++ [t]) =
      (ts ++ o :: inner).set ts.length { o with inside := some inner.length } ++ [t] := by simp
  intro i u n found inside
  rw [starts]
  rw [whole] at found
  obtain ⟨-, found⟩ | ⟨-, rfl⟩ := getElem?_concat_cases found
  · by_cases own : ts.length = i
    · subst own
      rw [List.getElem?_set_self (by simp)] at found
      cases found
      cases inside
      refine ⟨t.start, ?_, paired⟩
      have last : ts.length + 1 + inner.length = ((ts ++ o :: inner).map Token.start).length := by
        simp [Nat.add_assoc, Nat.add_comm 1]
      rw [last, List.getElem?_concat_length]
    · rw [List.getElem?_set_ne own] at found
      obtain ⟨c, closer, paired⟩ := h i u n found inside
      exact ⟨c, append_start closer, paired⟩
  · rw [waits] at inside
    cases inside

/-- Only places and what is recorded matter. -/
theorem congr {us : List Token} (h : Linked pairs ts)
    (same : us.map (fun t => (t.start, t.inside)) = ts.map fun t => (t.start, t.inside)) :
    Linked pairs us := by
  have starts : us.map Token.start = ts.map Token.start := by
    simpa [Function.comp_def] using congrArg (List.map Prod.fst) same
  intro i u n found inside
  have found' : (ts.map fun t => (t.start, t.inside))[i]? = some (u.start, u.inside) := by
    rw [← same, List.getElem?_map, found]
    rfl
  obtain ⟨t, ht, eq⟩ := Option.map_eq_some_iff.mp ((List.getElem?_map ..).symm.trans found')
  obtain ⟨start, inside'⟩ := Prod.mk.inj eq
  obtain ⟨c, closer, paired⟩ := h i t n ht (inside'.trans inside)
  exact ⟨c, starts ▸ closer, start ▸ paired⟩

end Linked

/-! ### Pairing and the stack -/

theorem Kind.closing_of_plain {k : Kind} (plain : k.opensBlock = false) : k.closing = none :=
  Option.not_isSome_iff_eq_none.mp (Bool.eq_false_iff.mp plain)

/-- A block begins at a place and waits for a kind of token. -/
def Waits (opener : Token) (w : Nat × Kind) : Prop :=
  opener.start = w.1 ∧ opener.kind.closing = some w.2

theorem exists_waits {os : List Token} {ws : List (Nat × Kind)} {o : Token}
    (h : List.Forall₂ Waits os ws) (ho : o ∈ os) : ∃ w ∈ ws, Waits o w := by
  induction h with
  | nil => cases ho
  | cons first _ ih =>
    obtain rfl | ho := List.mem_cons.mp ho
    · exact ⟨_, List.mem_cons_self, first⟩
    · obtain ⟨w, hw, waits⟩ := ih ho
      exact ⟨w, List.mem_cons_of_mem _ hw, waits⟩

namespace Nesting

variable {s : Nesting} {b : Brackets} {t : Token} {x : Lexeme × List Char}

/-- The openers, innermost first, of the blocks that are open and not within one that is left out. -/
def openers (s : Nesting) : List Token :=
  (s.deep.map DeepBlock.opener).toList ++ s.blocks.map OpenBlock.opener

/-- What the blocks within one that is left out wait for, innermost first. -/
def hidden (s : Nesting) : List Kind := (s.deep.map DeepBlock.awaited).getD []

theorem offset_step (s : Nesting) (x : Lexeme × List Char) :
    (s.step x).offset = s.offset + (String.ofList x.2).utf8ByteSize := by
  cases deep : s.deep with
  | none =>
    rw [step_place deep]
    exact offset_place
  | some d =>
    rw [step_deep deep]
    obtain ⟨awaited, skips⟩ | skips :=
      skip_cases { s with offset := (s.next x).stop } d (s.next x)
    · rw [skips]
      rfl
    · rw [skips]
      exact offset_add _ _

theorem openers_add (s : Nesting) (ts : List Token) : (s.add ts).openers = s.openers := by
  obtain ⟨offset, outer, blocks, deep, truncated⟩ := s
  cases blocks <;> simp [add, openers]

theorem hidden_add (s : Nesting) (ts : List Token) : (s.add ts).hidden = s.hidden := by
  rw [hidden, hidden, deep_add]

/-- The stack holds the blocks that are open. -/
def Holds (s : Nesting) (waiting : List (Nat × Kind)) : Prop :=
  ∃ above below, waiting = above ++ below ∧ above.map Prod.snd = s.hidden ∧
    List.Forall₂ Waits s.openers below

theorem holds_add (ts : List Token) (waiting : List (Nat × Kind)) :
    (s.add ts).Holds waiting ↔ s.Holds waiting := by
  rw [Holds, Holds, openers_add, hidden_add]

/-- Where text has tokens, the blocks on the stack are those that are open. -/
theorem holds_shown_iff {waiting : List (Nat × Kind)} (deep : s.deep = none) :
    s.Holds waiting ↔ List.Forall₂ Waits (s.blocks.map OpenBlock.opener) waiting := by
  have openers : s.openers = s.blocks.map OpenBlock.opener := by
    rw [openers, deep]
    rfl
  have hidden : s.hidden = [] := by
    rw [hidden, deep]
    rfl
  constructor
  · rintro ⟨above, below, rfl, none, holds⟩
    obtain rfl : above = [] := List.map_eq_nil_iff.mp (none.trans hidden)
    rwa [openers] at holds
  · intro holds
    refine ⟨[], waiting, rfl, hidden.symm, ?_⟩
    rwa [openers]

/-- Where text is left out, the block that is left out stands between those within it and those around
it. -/
theorem holds_deep_iff {d : DeepBlock} {waiting : List (Nat × Kind)} (deep : s.deep = some d) :
    s.Holds waiting ↔ ∃ above w below, waiting = above ++ w :: below ∧
      above.map Prod.snd = d.awaited ∧ Waits d.opener w ∧
        List.Forall₂ Waits (s.blocks.map OpenBlock.opener) below := by
  have openers : s.openers = d.opener :: s.blocks.map OpenBlock.opener := by
    rw [openers, deep]
    rfl
  have hidden : s.hidden = d.awaited := by
    rw [hidden, deep]
    rfl
  constructor
  · rintro ⟨above, below, rfl, awaited, holds⟩
    rw [openers] at holds
    obtain ⟨w, below, own, around, rfl⟩ := List.forall₂_cons_left_iff.mp holds
    exact ⟨above, w, below, rfl, awaited.trans hidden, own, around⟩
  · rintro ⟨above, w, below, rfl, awaited, own, around⟩
    refine ⟨above, w :: below, rfl, awaited.trans hidden.symm, ?_⟩
    rw [openers]
    exact .cons own around

/-- Pairing has come as far as the stack. -/
structure Follows (s : Nesting) (b : Brackets) : Prop where
  waiting : s.Holds b.waiting
  linked : Linked b.closed s.settled
  last : ∀ t, s.settled.getLast? = some t → t.omitted = ""

namespace Follows

theorem empty : Follows {} {} where
  waiting := ⟨[], [], rfl, rfl, .nil⟩
  linked := .nil
  last := by rintro _ ⟨⟩

theorem place (h : s.Follows b) (deep : s.deep = none) (kind : t.kind = x.1.kind)
    (start : t.start = b.offset) (waits : t.inside = none) (full : t.omitted = "") :
    (s.place t).Follows (b.step x) := by
  have shown := (holds_shown_iff deep).mp h.waiting
  have last (ts : List Token) (u : Token) (hu : (ts ++ [t]).getLast? = some u) :
      u.omitted = "" := by
    rw [List.getLast?_concat] at hu
    cases hu
    exact full
  obtain ⟨opens, room⟩ | ⟨opens, room⟩ | ⟨plain, o, bs, hb, own⟩ | ⟨plain, other⟩ :=
    place_cases s t
  · obtain ⟨k, closing⟩ := Option.isSome_iff_exists.mp opens
    have settled_eq : settled { s with blocks := ⟨t, []⟩ :: s.blocks } = s.settled ++ [t] := by
      simp [settled, OpenBlock.abandon]
    rw [place_opener opens room, Brackets.step_opener (kind ▸ closing)]
    constructor
    · refine (holds_shown_iff ?_).mpr (.cons ⟨start, closing⟩ shown)
      exact deep
    · rw [settled_eq]
      exact h.linked.concat waits
    · rw [settled_eq]
      exact last _
  · obtain ⟨k, closing⟩ := Option.isSome_iff_exists.mp opens
    rw [place_deep opens room, Brackets.step_opener (kind ▸ closing)]
    constructor
    · exact (holds_deep_iff rfl).mpr ⟨[], _, _, rfl, rfl, ⟨start, closing⟩, shown⟩
    · exact h.linked
    · exact h.last
  · obtain ⟨before, after⟩ := settled_close (s := s) (t := t) hb
    have linked := h.linked
    rw [before] at linked
    rw [hb, List.map_cons] at shown
    obtain ⟨w, waiting, ⟨begins, ends⟩, rest, top⟩ := List.forall₂_cons_left_iff.mp shown
    have closer : x.1.kind = w.2 := by
      rw [← kind]
      exact Option.some.inj (own.symm.trans ends)
    rw [place_closer plain hb own,
      Brackets.step_closer (kind ▸ Kind.closing_of_plain plain) top closer]
    constructor
    · refine (holds_add _ _).mpr ((holds_shown_iff ?_).mpr rest)
      exact deep
    · rw [after]
      refine (linked.mono (List.subset_cons_self _ _)).close ?_ waits
      rw [begins, start]
      exact List.mem_cons_self
    · rw [after, ← List.cons_append, ← List.append_assoc]
      exact last _
  · have ignored (w : Nat × Kind) (waiting : List (Nat × Kind)) (top : b.waiting = w :: waiting) :
        x.1.kind ≠ w.2 := by
      intro closer
      rw [top] at shown
      obtain ⟨o, os, ⟨-, ends⟩, -, openers⟩ := List.forall₂_cons_right_iff.mp shown
      obtain ⟨block, bs, hb, rfl, -⟩ := List.map_eq_cons_iff.mp openers
      exact other block bs hb (by rw [ends, kind, closer])
    rw [place_other plain other, Brackets.step_other (kind ▸ Kind.closing_of_plain plain) ignored]
    constructor
    · exact (holds_add _ _).mpr h.waiting
    · rw [settled_add]
      exact h.linked.concat waits
    · rw [settled_add]
      exact last _

theorem skip {d : DeepBlock} (h : s.Follows b) (deep : s.deep = some d)
    (alone : d.opener.inside = none) (kind : t.kind = x.1.kind) (start : t.start = b.offset)
    (waits : t.inside = none) (full : t.omitted = "") : (s.skip d t).Follows (b.step x) := by
  obtain ⟨above, w, below, split, awaited, own, around⟩ := (holds_deep_iff deep).mp h.waiting
  cases closing : t.kind.closing with
  | some k =>
    rw [skip_opener closing, Brackets.step_opener (kind ▸ closing)]
    refine ⟨(holds_deep_iff rfl).mpr ?_, h.linked, h.last⟩
    refine ⟨(b.offset, k) :: above, w, below, ?_, ?_, own, around⟩
    · rw [split, List.cons_append]
    · rw [List.map_cons, awaited]
  | none =>
    cases awaits : d.awaited with
    | cons k more =>
      rw [awaits] at awaited
      obtain ⟨v, above, rfl, rfl, rfl⟩ := List.map_eq_cons_iff.mp awaited
      rw [skip_awaiting closing awaits]
      by_cases closes : t.kind = v.2
      · rw [if_pos closes, Brackets.step_closer (kind ▸ closing) split (kind ▸ closes)]
        refine ⟨(holds_deep_iff rfl).mpr ?_, h.linked.mono (List.subset_cons_self _ _), h.last⟩
        exact ⟨above, w, below, rfl, rfl, own, around⟩
      · rw [if_neg closes, Brackets.step_kept (kind ▸ closing) split (kind ▸ closes)]
        refine ⟨(holds_deep_iff rfl).mpr ?_, h.linked, h.last⟩
        exact ⟨v :: above, w, below, split, rfl, own, around⟩
    | nil =>
      obtain rfl : above = [] := List.map_eq_nil_iff.mp (awaited.trans awaits)
      obtain ⟨begins, ends⟩ := own
      by_cases closes : d.opener.kind.closing = some t.kind
      · have closer : x.1.kind = w.2 := by
          rw [← kind]
          exact Option.some.inj (closes.symm.trans ends)
        rw [skip_closer closing awaits closes, Brackets.step_closer (kind ▸ closing) split closer]
        have opened : Linked ((w.1, b.offset) :: b.closed) (s.settled ++ [d.token]) :=
          (h.linked.mono (List.subset_cons_self _ _)).concat alone
        have settled_eq : ({ s with deep := none }.add (OpenBlock.close ⟨d.token, []⟩ t)).settled =
            s.settled ++ { d.token with inside := some 0 } :: ([] ++ [t]) := by
          rw [settled_add]
          rfl
        constructor
        · exact (holds_add _ _).mpr ((holds_shown_iff rfl).mpr around)
        · rw [settled_eq]
          refine opened.close ?_ waits
          rw [← start, ← begins]
          exact List.mem_cons_self
        · intro u hu
          rw [settled_eq, List.nil_append, List.getLast?_append] at hu
          cases hu
          exact full
      · have other : x.1.kind ≠ w.2 := by
          intro closer
          exact closes (by rw [ends, kind, closer])
        rw [skip_other closing awaits closes, Brackets.step_kept (kind ▸ closing) split other]
        refine ⟨(holds_deep_iff rfl).mpr ?_, h.linked, h.last⟩
        exact ⟨[], w, below, split, rfl, ⟨begins, ends⟩, around⟩

theorem step (h : s.Follows b) (offset : s.offset = b.offset) (pairing : s.Pairing) :
    (s.step x).Follows (b.step x) := by
  have moved : Follows { s with offset := (s.next x).stop } b := ⟨h.waiting, h.linked, h.last⟩
  cases deep : s.deep with
  | none =>
    rw [step_place deep]
    exact moved.place deep rfl offset rfl rfl
  | some d =>
    rw [step_deep deep]
    exact moved.skip deep (pairing.deep d deep) rfl offset rfl rfl

theorem foldl (xs : List (Lexeme × List Char)) (h : s.Follows b) (offset : s.offset = b.offset)
    (pairing : s.Pairing) : (xs.foldl Nesting.step s).Follows (xs.foldl Brackets.step b) := by
  induction xs generalizing s b with
  | nil => exact h
  | cons x xs ih =>
    refine ih (h.step offset pairing) ?_ pairing.step
    rw [offset_step, Brackets.offset_step, offset]

/-- Openers that are not closed are on the stack. -/
theorem waits_of_open (h : s.Follows b) (pairing : s.Pairing) (ht : t ∈ s.soFar)
    (opens : t.kind.opensBlock = true) (waits : t.inside = none) : ∃ w ∈ b.waiting, Waits t w := by
  obtain ⟨above, below, split, -, holds⟩ := h.waiting
  have found (o : Token) (ho : o ∈ s.openers) : ∃ w ∈ b.waiting, Waits o w := by
    obtain ⟨w, hw, waits⟩ := exists_waits holds ho
    exact ⟨w, split ▸ List.mem_append_right above hw, waits⟩
  have content {ts : List Token} (closed : Closed ts.reverse) (ht : t ∈ ts) : False := by
    have inside := closed.inside_isSome t (List.mem_reverse.mpr ht) opens
    rw [waits] at inside
    cases inside
  rw [soFar] at ht
  obtain deepest | ht := List.mem_append.mp ht
  · obtain ⟨d, deep, rfl⟩ := Option.map_eq_some_iff.mp (Option.mem_toList.mp deepest)
    exact found d.opener (List.mem_append_left _ (by rw [deep]; exact List.mem_cons_self))
  · obtain inside | outside := List.mem_append.mp ht
    · obtain ⟨o, ho, ht⟩ := List.mem_flatMap.mp inside
      obtain ht | ht := List.mem_append.mp ht
      · exact (content (pairing.blocks o ho).2.2 ht).elim
      · obtain rfl := List.mem_singleton.mp ht
        exact found o.opener (List.mem_append_right _ (List.mem_map_of_mem ho))
    · exact (content pairing.outer outside).elim

/-- Only where more blocks are open than may have tokens does the last token leave text out. -/
theorem deep_of_last (h : s.Follows b) (layered : s.Layered) {rest : List Token}
    (last : s.soFar = t :: rest) (left : t.omitted ≠ "") : maxDepth < b.waiting.length := by
  cases deep : s.deep with
  | none =>
    have settled_eq : s.settled = rest.reverse ++ [t] := by
      rw [← List.reverse_cons, ← last, soFar_reverse, deep]
      exact (List.append_nil _).symm
    exact absurd (h.last t (by rw [settled_eq, List.getLast?_concat])) left
  | some d =>
    obtain ⟨above, w, below, split, -, -, around⟩ := (holds_deep_iff deep).mp h.waiting
    have length : maxDepth = below.length := by
      rw [← around.length_eq, List.length_map, (layered.deep d deep).2]
    rw [split, List.length_append, List.length_cons, length]
    omega

end Follows

/-- The tokens of a text whose brackets are known. -/
structure Settles (size : Nat) (b : Brackets) (ts : List Token) : Prop where
  /-- What closes a block is the token that the stack says, or stands at the end of a text that is
  nested too deeply. -/
  linked : ∀ (i : Nat) (t : Token) (n : Nat), ts[i]? = some t → t.inside = some n →
    ∃ c, (ts.map Token.start)[i + 1 + n]? = some c ∧ ((t.start, c) ∈ b.closed ∨
      maxDepth < b.waiting.length ∧ (∃ k, (t.start, k) ∈ b.waiting) ∧ c = size - 1)
  /-- Openers that are not closed are on the stack. -/
  waits : ∀ t ∈ ts, t.kind.opensBlock = true → t.inside = none → ∃ w ∈ b.waiting, Waits t w

/-- Wherever a text ends, its tokens are settled. -/
theorem Follows.settles (h : s.Follows b) (pairing : s.Pairing) (layered : s.Layered) :
    Settles s.offset b s.atEnd.reverse := by
  have linked : Linked b.closed s.soFar.reverse := by
    rw [soFar_reverse]
    cases deep : s.deep with
    | none =>
      rw [Option.map_none, Option.toList_none, List.append_nil]
      exact h.linked
    | some d => exact h.linked.concat (pairing.deep d deep)
  have open' (u : Token) (hu : u ∈ s.soFar.reverse) :=
    h.waits_of_open pairing (List.mem_reverse.mp hu)
  obtain same | ⟨before, front, inner, t, short, opener, k, order, reclaimed, split, own, alone,
    closed⟩ := pairing.ends.in_order
  · rw [same]
    refine ⟨fun i t n found inside => ?_, open'⟩
    obtain ⟨c, closer, paired⟩ := linked i t n found inside
    exact ⟨c, closer, .inl paired⟩
  · have last : s.soFar = t :: before.reverse := by
      rw [← List.reverse_inj, order, List.reverse_cons, List.reverse_reverse]
    have deep := h.deep_of_last layered last (omitted_ne_of_reclaim reclaimed)
    obtain ⟨_, _, -, -, rfl⟩ := reclaim_eq_some reclaimed
    have stillOpen (u : Token) (hu : u ∈ front ++ opener :: inner)
        (opens : u.kind.opensBlock = true) (alone : u.inside = none) :
        ∃ w ∈ b.waiting, Waits u w := by
      rw [order] at open'
      rw [← split] at hu
      obtain hu | hu := List.mem_append.mp hu
      · exact open' u (List.mem_append_left _ hu) opens alone
      · obtain rfl := List.mem_singleton.mp hu
        exact open' t (List.mem_append_right _ (List.mem_singleton_self t)) opens alone
    have shortened : Linked b.closed (front ++ opener :: inner) := by
      rw [order] at linked
      rw [← split]
      exact linked.congr (by simp)
    have more := (shortened.mono (List.subset_cons_self (opener.start, s.offset - 1) _)).close
      (t := madeUp k s.offset) List.mem_cons_self rfl
    rw [closed]
    constructor
    · intro i u n found inside
      obtain ⟨c, closer, paired⟩ := more i u n found inside
      refine ⟨c, closer, ?_⟩
      obtain made | paired := List.mem_cons.mp paired
      · obtain ⟨start, rfl⟩ := Prod.mk.inj made
        obtain ⟨w, hw, begins, -⟩ := stillOpen opener
          (List.mem_append_right _ List.mem_cons_self) (Kind.opensBlock_of_closing own) alone
        refine .inr ⟨deep, ⟨w.2, ?_⟩, rfl⟩
        rw [start, begins]
        exact hw
      · exact .inl paired
    · intro u hu opens' alone'
      obtain hu | hu := List.mem_append.mp hu
      · exact stillOpen u (List.mem_append_left _ hu) opens' alone'
      · obtain rfl | hu := List.mem_cons.mp hu
        · cases alone'
        · obtain hu | hu := List.mem_append.mp hu
          · exact stillOpen u (List.mem_append_right _ (List.mem_cons_of_mem _ hu)) opens' alone'
          · obtain rfl := List.mem_singleton.mp hu
            rw [madeUp, Kind.closing_ne_opensBlock own] at opens'
            cases opens'

end Nesting

end Token

open Token

namespace TokenList

/-- The openers of a list of tokens are closed where the brackets of its text say. -/
structure ClosedAs (list : TokenList) (b : Brackets) : Prop where
  /-- A block that a closing token ends is closed by that token. -/
  closed : ∀ (i : Nat) (t : Token) (c : Nat), list.tokens[i]? = some t →
    t.kind.opensBlock = true → (t.start, c) ∈ b.closed →
      ∃ (j : Nat) (u : Token), list.close? i = some j ∧ list.tokens[j]? = some u ∧ u.start = c ∧
        t.kind.closing = some u.kind
  /-- No other block is closed, but for one that is still open where the text ends in blocks that are
  nested too deeply, and then by a token for the last byte of the text. -/
  only : ∀ i j : Nat, list.close? i = some j → ∃ t u : Token, list.tokens[i]? = some t ∧
    list.tokens[j]? = some u ∧ ((t.start, u.start) ∈ b.closed ∨
      maxDepth < b.waiting.length ∧ (∃ k, (t.start, k) ∈ b.waiting) ∧ u.start = list.size - 1)

end TokenList

/-- The tokens of a text are settled. -/
theorem tokenize_settles (text : String) :
    Nesting.Settles (tokenize text).size (Brackets.ofText text) (tokenize text).tokens := by
  have follows := Nesting.Follows.empty.foldl (lexemes text.toList) rfl .empty
  exact follows.settles (Nesting.Pairing.empty.foldl _) (Nesting.Layered.empty.foldl _ .empty)

/-- Every block that a closing token ends is closed by it, and no other is while blocks are not nested
too deeply where the text ends. -/
theorem tokenize_closedAs (text : String) :
    (tokenize text).ClosedAs (Brackets.ofText text) := by
  have settles := tokenize_settles text
  have matched := tokenize_matched text
  have distinct : (Brackets.ofText text).Distinct :=
    Brackets.Distinct.empty.foldl (lexemes_chars text.toList)
  constructor
  · intro i t c found opens closed
    cases inside : t.inside with
    | none =>
      obtain ⟨w, hw, begins, -⟩ := settles.waits t (List.mem_of_getElem? found) opens inside
      exact absurd closed (distinct.not_closed hw begins)
    | some n =>
      obtain ⟨u, closer, paired⟩ := matched.closer found opens inside
      refine ⟨i + 1 + n, u, ?_, closer, ?_, paired⟩
      · exact TokenList.close?_eq_some_iff.mpr ⟨t, n, found, inside, rfl⟩
      · obtain ⟨d, start, popped | ⟨-, ⟨k, open'⟩, -⟩⟩ := settles.linked i t n found inside
        · rw [List.getElem?_map, closer] at start
          rw [distinct.unique closed popped]
          exact Option.some.inj start
        · exact absurd closed (distinct.not_closed open' rfl)
  · intro i j close
    obtain ⟨t, n, found, inside, rfl⟩ := TokenList.close?_eq_some_iff.mp close
    obtain ⟨c, start, popped⟩ := settles.linked i t n found inside
    rw [List.getElem?_map] at start
    obtain ⟨u, closer, rfl⟩ := Option.map_eq_some_iff.mp start
    exact ⟨t, u, found, closer, popped⟩

/-! ### A closing token that is made up -/

/-- More opening parentheses than may be nested, and an escaped closing one. -/
def escapedParen : String := String.ofList (List.replicate (maxDepth + 1) '(' ++ ['\\', ')'])

/-- The lexeme of an opening parenthesis. -/
def parenLexeme : Lexeme × List Char := (⟨.leftParen, 0, none⟩, ['('])

/-- The token of an opening parenthesis. -/
def parenAt (i : Nat) : Token := ⟨.leftParen, "(", i, none, none, ""⟩

theorem lexemes_escapedParen : lexemes escapedParen.toList =
    List.replicate (maxDepth + 1) parenLexeme ++ [(⟨.ident, 1, none⟩, ['\\', ')'])] := by
  have parens (n : Nat) (cs : List Char) : lexemes (List.replicate n '(' ++ cs) =
      List.replicate n parenLexeme ++ lexemes cs := by
    induction n with
    | zero => rfl
    | succ n ih =>
      rw [List.replicate_succ, List.cons_append, lexemes, List.replicate_succ, List.cons_append,
        ← ih]
      rfl
  rw [escapedParen, String.toList_ofList, parens]
  congr 1
  decide +kernel

/-- Opening parentheses are put one within the other while there is room. -/
theorem foldl_parens (n : Nat) (room : n ≤ maxDepth) :
    (List.replicate n parenLexeme).foldl Nesting.step {} =
      ⟨n, [], (List.range n).reverse.map fun i => ⟨parenAt i, []⟩, none, []⟩ := by
  induction n with
  | zero => rfl
  | succ n ih =>
    have length : ((List.range n).reverse.map fun i => (⟨parenAt i, []⟩ : OpenBlock)).length = n := by
      simp
    rw [List.replicate_succ', List.foldl_append, ih (Nat.le_of_succ_le room), List.foldl_cons,
      List.foldl_nil, Nesting.step_place rfl, Nesting.place_opener rfl (by rw [length]; exact room),
      List.range_succ, List.reverse_concat, List.map_cons]
    rfl

/-- They are put on the stack without end. -/
theorem foldl_brackets (n : Nat) : (List.replicate n parenLexeme).foldl Brackets.step {} =
    ⟨n, (List.range n).reverse.map fun i => (i, .rightParen), []⟩ := by
  induction n with
  | zero => rfl
  | succ n ih =>
    rw [List.replicate_succ', List.foldl_append, ih, List.range_succ, List.reverse_concat,
      List.map_cons]
    rfl

/-- No closing token takes one off. -/
theorem ofText_escapedParen : (Brackets.ofText escapedParen).closed = [] := by
  rw [Brackets.ofText, lexemes_escapedParen, List.foldl_append, foldl_brackets, List.range_succ,
    List.reverse_concat, List.map_cons]
  rfl

/-- The last of the openers leaves out the escaped bracket, which is taken for its closing token. -/
theorem tokens_escapedParen : (tokenize escapedParen).tokens = (List.range maxDepth).map parenAt ++
    [{ parenAt maxDepth with inside := some 0, omitted := "\\" },
      madeUp .rightParen (maxDepth + 3)] := by
  let blocks : List OpenBlock := (List.range maxDepth).reverse.map fun i => ⟨parenAt i, []⟩
  let opened : Nesting := ⟨maxDepth, [], blocks, none, []⟩
  let deep (offset : Nat) (text : List Char) : Nesting :=
    ⟨offset, [], blocks, some ⟨parenAt maxDepth, text, []⟩, [maxDepth + 1]⟩
  have opens : opened.step parenLexeme = deep (maxDepth + 1) [] := by
    rw [Nesting.step_place rfl, Nesting.place_deep rfl (by simp [opened, blocks])]
    rfl
  have skips : (deep (maxDepth + 1) []).step (⟨.ident, 1, none⟩, ['\\', ')']) =
      deep (maxDepth + 3) ['\\', ')'] := by
    have chars : ((deep (maxDepth + 1) []).next (⟨.ident, 1, none⟩, ['\\', ')'])).text.toList =
        ['\\', ')'] := String.toList_ofList
    rw [Nesting.step_deep rfl, Nesting.skip_other rfl rfl (by decide), chars]
    rfl
  have deepest : OpenBlock.atEnd (maxDepth + 3)
      ⟨{ parenAt maxDepth with omitted := String.ofList ['\\', ')'] }, []⟩ =
        [madeUp .rightParen (maxDepth + 3),
          { parenAt maxDepth with inside := some 0, omitted := "\\" }] := by
    decide +kernel
  have ends : (deep (maxDepth + 3) ['\\', ')']).atEnd = [madeUp .rightParen (maxDepth + 3),
      { parenAt maxDepth with inside := some 0, omitted := "\\" }] ++
        blocks.flatMap OpenBlock.abandon := by
    rw [← Nesting.foldl_atEnd_full rfl rfl, ← deepest]
    exact List.append_nil _
  have before : blocks.flatMap OpenBlock.abandon = ((List.range maxDepth).map parenAt).reverse := by
    rw [List.flatMap_map, ← List.map_reverse]
    exact List.flatMap_pure_eq_map ..
  have state : TokenList.stateOf escapedParen = deep (maxDepth + 3) ['\\', ')'] := by
    rw [TokenList.stateOf, lexemes_escapedParen, List.replicate_succ', List.append_assoc,
      List.foldl_append, foldl_parens maxDepth (Nat.le_refl _), List.singleton_append,
      List.foldl_cons, opens, List.foldl_cons, skips, List.foldl_nil]
  rw [TokenList.tokenize_eq, state, ends, before]
  simp

/-- The closing parenthesis is escaped, and yet a block is closed by it. -/
theorem not_closedExactly_escapedParen : ∃ (i j : Nat) (t : Token),
    (tokenize escapedParen).tokens[i]? = some t ∧ t.kind.opensBlock = true ∧
      (tokenize escapedParen).close? i = some j ∧
        ∀ c, (t.start, c) ∉ (Brackets.ofText escapedParen).closed := by
  have found : (tokenize escapedParen).tokens[maxDepth]? =
      some { parenAt maxDepth with inside := some 0, omitted := "\\" } := by
    rw [tokens_escapedParen, List.getElem?_append_right (by simp)]
    simp
  refine ⟨maxDepth, maxDepth + 1, _, found, rfl, ?_, ?_⟩
  · exact TokenList.close?_eq_some_iff.mpr ⟨_, 0, found, rfl, rfl⟩
  · rw [ofText_escapedParen]
    exact fun c => List.not_mem_nil

end Stylesheet
