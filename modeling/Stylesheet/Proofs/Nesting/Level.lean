import Stylesheet.Proofs.Nesting.Ending
import Stylesheet.Proofs.Removal.Pairing

/-!
# How deep tokens are nested

The level of a token is the number of blocks around it, with the one that it opens itself. Opening a
block puts all that follows one level deeper, closing it takes what follows out again, and nothing else
matters. Pairing opens no block where `maxDepth + 1` are open, and leaves text out after the last of
these only. So no token of a text is deeper than that, and text is left out at the deepest level only.
-/

namespace Stylesheet

namespace Token

/-- The token opens a block, and the token that stands `n` places after it is in that block. A block
that is left open ends with the list. -/
def holds (t : Token) : Nat → Bool
  | 0 => t.kind.opensBlock
  | n + 1 => t.kind.opensBlock && t.inside.all (n < ·)

/-- Number of blocks around the token at an index, with the one that it opens. Behind the last token it
is the number of blocks that are left open. -/
def level : List Token → Nat → Nat
  | [], _ => 0
  | t :: _, 0 => (t.holds 0).toNat
  | t :: ts, n + 1 => (t.holds (n + 1)).toNat + level ts n

section

variable {t opener : Token} {ts us inner : List Token} {i n : Nat}

theorem holds_plain (plain : t.kind.opensBlock = false) : t.holds n = false := by
  cases n with
  | zero => exact plain
  | succ n => rw [holds, plain, Bool.false_and]

theorem opensBlock_of_holds (held : t.holds n = true) : t.kind.opensBlock = true := by
  cases opens : t.kind.opensBlock with
  | true => rfl
  | false =>
    rw [holds_plain opens] at held
    cases held

theorem holds_open (opens : t.kind.opensBlock = true) (waits : t.inside = none) :
    t.holds n = true := by
  cases n with
  | zero => exact opens
  | succ n => rw [holds, opens, waits, Bool.true_and, Option.all_none]

theorem holds_closed (opens : t.kind.opensBlock = true) (closed : t.inside = some i) :
    t.holds n = true ↔ n ≤ i := by
  cases n with
  | zero => exact iff_of_true opens (Nat.zero_le i)
  | succ n =>
    rw [holds, opens, closed, Bool.true_and, Option.all_some, decide_eq_true_eq]
    exact Nat.lt_iff_add_one_le

theorem level_singleton : level [t] n = (t.holds n).toNat := by
  cases n <;> rfl

theorem level_cons (t : Token) (ts : List Token) (n : Nat) :
    level (t :: ts) (n + 1) = (t.holds (n + 1)).toNat + level ts n := rfl

/-- What follows does not matter. -/
theorem level_left (us : List Token) (inside : i < ts.length) :
    level (ts ++ us) i = level ts i := by
  induction ts generalizing i with
  | nil => cases inside
  | cons t ts ih =>
    cases i with
    | zero => rfl
    | succ i =>
      rw [List.cons_append, level_cons, level_cons, ih (Nat.lt_of_succ_lt_succ inside)]

/-- Behind some tokens there are the blocks that these leave open besides. -/
theorem level_right (ts us : List Token) (n : Nat) :
    level (ts ++ us) (ts.length + n) = level ts (ts.length + n) + level us n := by
  induction ts with
  | nil => rw [List.nil_append, List.length_nil, Nat.zero_add, level, Nat.zero_add]
  | cons t ts ih =>
    rw [List.cons_append, List.length_cons, Nat.add_right_comm, level_cons, level_cons, ih]
    exact (Nat.add_assoc _ _ _).symm

/-- Tokens are at least as deep in a list as they are in a part of it. -/
theorem level_le_of_part {front back : List Token} (inside : i < ts.length) :
    level ts i ≤ level (front ++ (ts ++ back)) (front.length + i) := by
  rw [level_right, level_left back inside]
  exact Nat.le_add_left _ _

/-- What is left out does not matter. -/
theorem level_congr (same : us.map (fun t => (t.kind, t.inside)) =
    ts.map fun t => (t.kind, t.inside)) : level us i = level ts i := by
  induction ts generalizing us i with
  | nil =>
    rw [List.map_nil, List.map_eq_nil_iff] at same
    rw [same]
  | cons t ts ih =>
    obtain ⟨u, us, rfl, hu, hus⟩ := List.map_eq_cons_iff.mp same
    obtain ⟨kind, inside⟩ := Prod.mk.inj hu
    have holds (n : Nat) : u.holds n = t.holds n := by
      cases n with
      | zero => rw [Token.holds, Token.holds, kind]
      | succ n => rw [Token.holds, Token.holds, kind, inside]
    cases i with
    | zero => rw [level, level, holds]
    | succ i => rw [level_cons, level_cons, holds, ih hus]

/-- Closing a block changes nothing before its end. -/
theorem level_close_before (opens : opener.kind.opensBlock = true) (waits : opener.inside = none)
    (inside : i < ts.length + (inner.length + 1)) :
    level (ts ++ { opener with inside := some inner.length } :: (inner ++ us)) i =
      level (ts ++ opener :: inner) i := by
  obtain before | ⟨n, rfl⟩ : i < ts.length ∨ ∃ n, i = ts.length + n := by
    by_cases before : i < ts.length
    · exact .inl before
    · exact .inr ⟨i - ts.length, by omega⟩
  · rw [level_left _ before, level_left _ before]
  · have held (n : Nat) (le : n ≤ inner.length) :
        ({ opener with inside := some inner.length } : Token).holds n = opener.holds n := by
      rw [holds_open opens waits]
      exact (holds_closed (t := { opener with inside := some inner.length }) opens rfl).mpr le
    rw [level_right, level_right]
    congr 1
    cases n with
    | zero => rw [level, level, held 0 (Nat.zero_le _)]
    | succ n =>
      have short : n < inner.length := by omega
      rw [level_cons, level_cons, held _ short, level_left us short]

/-- Behind the end of a block that is closed there is one block less. -/
theorem level_close_after (opens : opener.kind.opensBlock = true) (waits : opener.inside = none)
    (plain : t.kind.opensBlock = false) :
    level (ts ++ { opener with inside := some inner.length } :: (inner ++ [t]))
        (ts.length + (inner.length + n + 1)) + 1 =
      level (ts ++ opener :: inner) (ts.length + (inner.length + n + 1)) := by
  have released : ({ opener with inside := some inner.length } : Token).holds
      (inner.length + n + 1) = false := by
    refine Bool.eq_false_iff.mpr fun held => ?_
    have late : inner.length + n + 1 ≤ inner.length :=
      (holds_closed (t := { opener with inside := some inner.length }) opens rfl).mp held
    omega
  rw [level_right, level_right, level_cons, level_cons, released, holds_open opens waits,
    level_right, level_singleton, holds_plain plain]
  simp only [Bool.toNat_false, Bool.toNat_true]
  omega

end

/-- What a list with one more element has at an index. -/
theorem getElem?_concat_cases {α : Type} {as : List α} {a b : α} {i : Nat}
    (h : (as ++ [a])[i]? = some b) : (i < as.length ∧ as[i]? = some b) ∨ (i = as.length ∧ b = a) := by
  obtain before | after := Nat.lt_or_ge i as.length
  · rw [List.getElem?_append_left before] at h
    exact .inl ⟨before, h⟩
  · rw [List.getElem?_append_right after, List.getElem?_singleton] at h
    split at h
    · rename_i first
      exact .inr ⟨Nat.le_antisymm (Nat.sub_eq_zero_iff_le.mp first) after,
        (Option.some.inj h).symm⟩
    · cases h

/-- Some tokens of a text, read up to a place where `n` blocks are open. -/
structure Levels (n : Nat) (ts : List Token) : Prop where
  /-- The blocks that are open are around all that follows. -/
  top : ∀ i, level ts (ts.length + i) = n
  /-- No token is too deep. -/
  bound : ∀ i < ts.length, level ts i ≤ maxDepth + 1
  /-- Text is left out at the deepest level only. -/
  gap : ∀ i left, (ts.map Token.omitted)[i]? = some left → left ≠ "" → level ts i = maxDepth + 1
  /-- Only openers are closed. -/
  openers : ∀ t ∈ ts, t.inside ≠ none → t.kind.opensBlock = true

namespace Levels

variable {n : Nat} {t o : Token} {ts inner : List Token}

theorem nil : Levels 0 [] where
  top _ := rfl
  bound _ h := by cases h
  gap _ _ h := by cases h
  openers _ h := by cases h

/-- One more token, which raises the number of open blocks or not. -/
theorem concat {m : Nat} (h : Levels n ts) (holds : ∀ i, (t.holds i).toNat = m)
    (room : n + m ≤ maxDepth + 1) (gap : t.omitted ≠ "" → n + m = maxDepth + 1)
    (waits : t.inside = none) : Levels (n + m) (ts ++ [t]) := by
  have last (i : Nat) : level (ts ++ [t]) (ts.length + i) = n + m := by
    rw [level_right, h.top, level_singleton, holds]
  constructor
  · intro i
    rw [List.length_append, List.length_singleton, Nat.add_assoc]
    exact last _
  · intro i hi
    rw [List.length_append, List.length_singleton] at hi
    obtain before | rfl := Nat.lt_succ_iff_lt_or_eq.mp hi
    · rw [level_left _ before]
      exact h.bound i before
    · exact Nat.le_trans (Nat.le_of_eq (last 0)) room
  · intro i left hu some
    rw [List.map_append, List.map_singleton] at hu
    obtain ⟨before, hu⟩ | ⟨rfl, rfl⟩ := getElem?_concat_cases hu
    · rw [List.length_map] at before
      rw [level_left _ before]
      exact h.gap i left hu some
    · rw [List.length_map]
      exact (last 0).trans (gap some)
  · exact List.forall_mem_append.mpr ⟨h.openers, List.forall_mem_singleton.mpr (absurd waits)⟩

/-- One more token that opens no block. -/
theorem plain (h : Levels n ts) (room : n ≤ maxDepth + 1) (plain : t.kind.opensBlock = false)
    (full : t.omitted = "") (waits : t.inside = none) : Levels n (ts ++ [t]) := by
  refine h.concat (m := 0) (fun i => ?_) room (absurd full) waits
  rw [holds_plain plain]
  rfl

/-- One more block is open. -/
theorem opener (h : Levels n ts) (room : n ≤ maxDepth) (opens : t.kind.opensBlock = true)
    (waits : t.inside = none) (gap : t.omitted ≠ "" → n = maxDepth) :
    Levels (n + 1) (ts ++ [t]) := by
  refine h.concat (fun i => ?_) (Nat.succ_le_succ room) (fun left => congrArg (· + 1) (gap left))
    waits
  rw [holds_open opens waits]
  rfl

/-- One block is closed. -/
theorem close (h : Levels n (ts ++ o :: inner)) (opens : o.kind.opensBlock = true)
    (waits : o.inside = none) (plain : t.kind.opensBlock = false) (full : t.omitted = "")
    (alone : t.inside = none) (room : n ≤ maxDepth + 1) :
    Levels (n - 1) (ts ++ { o with inside := some inner.length } :: (inner ++ [t])) := by
  have length : (ts ++ { o with inside := some inner.length } :: (inner ++ [t])).length =
      ts.length + (inner.length + 1 + 1) := by simp
  have length' : (ts ++ o :: inner).length = ts.length + (inner.length + 1) := by simp
  have after (i : Nat) : level (ts ++ { o with inside := some inner.length } ::
      (inner ++ [t])) (ts.length + (inner.length + i + 1)) + 1 = n := by
    rw [level_close_after opens waits plain, Nat.add_right_comm, ← Nat.add_assoc, ← length']
    exact h.top i
  constructor
  · intro i
    have := after (i + 1)
    rw [length]
    rw [show ts.length + (inner.length + 1 + 1) + i = ts.length + (inner.length + (i + 1) + 1) by
      omega]
    omega
  · intro i hi
    obtain before | rfl : i < ts.length + (inner.length + 1) ∨
        i = ts.length + (inner.length + 0 + 1) := by omega
    · rw [level_close_before opens waits before]
      exact h.bound i (by rwa [length'])
    · have := after 0
      omega
  · intro i left hu some
    have omitted : (ts ++ { o with inside := Option.some inner.length } ::
        (inner ++ [t])).map Token.omitted = (ts ++ o :: inner).map Token.omitted ++ [""] := by
      simp [full]
    rw [omitted] at hu
    obtain ⟨before, hu⟩ | ⟨-, rfl⟩ := getElem?_concat_cases hu
    · rw [List.length_map, length'] at before
      rw [level_close_before opens waits before]
      exact h.gap i left hu some
    · exact absurd rfl some
  · obtain ⟨front, back⟩ := List.forall_mem_append.mp h.openers
    obtain ⟨-, content⟩ := List.forall_mem_cons.mp back
    refine List.forall_mem_append.mpr ⟨front, List.forall_mem_cons.mpr ⟨fun _ => opens, ?_⟩⟩
    exact List.forall_mem_append.mpr ⟨content, List.forall_mem_singleton.mpr (absurd alone)⟩

/-- Less may be left out after the last token. -/
theorem shorten (h : Levels n (ts ++ [t])) {left : String} (some : left ≠ "" → t.omitted ≠ "") :
    Levels n (ts ++ [{ t with omitted := left }]) := by
  have same (i : Nat) : level (ts ++ [{ t with omitted := left }]) i = level (ts ++ [t]) i :=
    level_congr (by simp)
  constructor
  · intro i
    rw [same, List.length_append]
    have := h.top i
    rwa [List.length_append] at this
  · intro i hi
    rw [List.length_append] at hi
    rw [same]
    exact h.bound i (by rwa [List.length_append])
  · intro i left' hu some'
    rw [List.map_append, List.map_singleton] at hu
    rw [same]
    obtain ⟨before, hu⟩ | ⟨rfl, rfl⟩ := getElem?_concat_cases hu
    · refine h.gap i left' ?_ some'
      rwa [List.map_append, List.getElem?_append_left before]
    · refine h.gap _ t.omitted ?_ (some some')
      rw [List.map_append, List.map_singleton, List.getElem?_concat_length]
  · obtain ⟨front, last⟩ := List.forall_mem_append.mp h.openers
    refine List.forall_mem_append.mpr ⟨front, List.forall_mem_singleton.mpr ?_⟩
    exact List.forall_mem_singleton.mp last

end Levels

/-! ### Pairing -/

/-- The end of a text closes one block at most. -/
theorem Ends.levels {size n : Nat} {ts us : List Token} (h : Ends size ts us)
    (levels : Levels n ts.reverse) (room : n ≤ maxDepth + 1) : ∃ m, Levels m us.reverse := by
  obtain rfl | ⟨before, front, inner, t, short, opener, k, order, reclaimed, split, own, waits,
    closed⟩ := h.in_order
  · exact ⟨n, levels⟩
  · have some := omitted_ne_of_reclaim reclaimed
    obtain ⟨left, c, -, -, rfl⟩ := reclaim_eq_some reclaimed
    rw [order] at levels
    have shortened : Levels n (before ++ [{ t with omitted := String.ofList left }]) :=
      levels.shorten fun _ => some
    rw [split] at shortened
    refine ⟨n - 1, ?_⟩
    rw [closed]
    exact shortened.close (Kind.opensBlock_of_closing own) waits (Kind.closing_ne_opensBlock own)
      rfl rfl room

namespace Nesting

variable {s : Nesting} {t : Token} {x : Lexeme × List Char}

/-- Blocks are not nested too deeply, and one that is left out is in as many as there may be. -/
structure Layered (s : Nesting) : Prop where
  levels : Levels s.blocks.length s.settled
  room : s.blocks.length ≤ maxDepth
  deep : ∀ d, s.deep = some d → d.opener.kind.opensBlock = true ∧ s.blocks.length = maxDepth

namespace Layered

theorem empty : Layered {} where
  levels := .nil
  room := Nat.zero_le _
  deep := by rintro _ ⟨⟩

theorem place (h : s.Layered) (paired : s.Paired) (deep : s.deep = none) (waits : t.inside = none)
    (full : t.omitted = "") : (s.place t).Layered := by
  obtain ⟨opens, room⟩ | ⟨opens, room⟩ | ⟨plain, b, bs, hb, own⟩ | ⟨plain, other⟩ :=
    place_cases s t
  · rw [place_opener opens room]
    refine ⟨?_, room, fun d hd => absurd (deep.symm.trans hd) (by rintro ⟨⟩)⟩
    have more := h.levels.opener h.room opens waits (absurd full)
    simpa [settled, OpenBlock.abandon] using more
  · rw [place_deep opens room]
    refine ⟨h.levels, h.room, ?_⟩
    rintro _ ⟨⟩
    exact ⟨opens, Nat.le_antisymm h.room (Nat.le_of_not_lt room)⟩
  · rw [place_closer plain hb own]
    obtain ⟨before, after⟩ := settled_close (s := s) (t := t) hb
    obtain ⟨opens, open', -⟩ := paired.blocks b (by rw [hb]; exact List.mem_cons_self)
    have levels := h.levels
    have room := h.room
    rw [before] at levels
    have closed := levels.close opens open' plain full waits (Nat.le_succ_of_le room)
    rw [hb, List.length_cons] at closed room
    refine ⟨?_, ?_, fun d hd => ?_⟩
    · rw [after, blocks_add_length]
      exact closed
    · rw [blocks_add_length]
      exact Nat.le_of_succ_le room
    · rw [deep_add] at hd
      exact absurd (deep.symm.trans hd) (by rintro ⟨⟩)
  · rw [place_other plain other]
    refine ⟨?_, ?_, fun d hd => ?_⟩
    · rw [settled_add, blocks_add_length]
      exact h.levels.plain (Nat.le_succ_of_le h.room) plain full waits
    · rw [blocks_add_length]
      exact h.room
    · rw [deep_add] at hd
      exact absurd (deep.symm.trans hd) (by rintro ⟨⟩)

theorem skip {d : DeepBlock} (h : s.Layered) (pairing : s.Pairing) (deep : s.deep = some d)
    (waits : t.inside = none) (full : t.omitted = "") : (s.skip d t).Layered := by
  obtain ⟨opens, deepest⟩ := h.deep d deep
  cases closing : t.kind.closing with
  | some c =>
    rw [skip_opener closing]
    exact ⟨h.levels, h.room, by rintro _ ⟨⟩; exact ⟨opens, deepest⟩⟩
  | none =>
    cases awaits : d.awaited with
    | cons c awaited =>
      rw [skip_awaiting closing awaits]
      exact ⟨h.levels, h.room, by rintro _ ⟨⟩; exact ⟨opens, deepest⟩⟩
    | nil =>
      by_cases own : d.opener.kind.closing = some t.kind
      · rw [skip_closer closing awaits own]
        have alone : d.token.inside = none := pairing.deep d deep
        have opened : Levels (s.blocks.length + 1) (s.settled ++ [d.token]) :=
          h.levels.opener h.room opens alone fun _ => deepest
        have closed := opened.close opens alone (Kind.closing_ne_opensBlock own) full waits
          (Nat.succ_le_succ h.room)
        refine ⟨?_, ?_, fun d' hd => ?_⟩
        · rw [settled_add, blocks_add_length]
          exact closed
        · rw [blocks_add_length]
          exact h.room
        · rw [deep_add] at hd
          cases hd
      · rw [skip_other closing awaits own]
        exact ⟨h.levels, h.room, by rintro _ ⟨⟩; exact ⟨opens, deepest⟩⟩

theorem step (h : s.Layered) (pairing : s.Pairing) : (s.step x).Layered := by
  have moved : Layered { s with offset := (s.next x).stop } := ⟨h.levels, h.room, h.deep⟩
  have pairing' : Pairing { s with offset := (s.next x).stop } :=
    ⟨⟨pairing.outer, pairing.blocks⟩, pairing.deep⟩
  cases deep : s.deep with
  | none =>
    rw [step_place deep]
    exact moved.place pairing'.toPaired deep rfl rfl
  | some d =>
    rw [step_deep deep]
    exact moved.skip pairing' deep rfl rfl

theorem foldl (xs : List (Lexeme × List Char)) (h : s.Layered) (pairing : s.Pairing) :
    (xs.foldl Nesting.step s).Layered := by
  induction xs generalizing s with
  | nil => exact h
  | cons x xs ih => exact ih (h.step pairing) pairing.step

/-- Wherever a text ends, its tokens are no deeper than blocks may be nested. -/
theorem atEnd (h : s.Layered) (pairing : s.Pairing) : ∃ n, Levels n s.atEnd.reverse := by
  have soFar : ∃ n, n ≤ maxDepth + 1 ∧ Levels n s.soFar.reverse := by
    rw [soFar_reverse]
    cases deep : s.deep with
    | none =>
      refine ⟨s.blocks.length, Nat.le_succ_of_le h.room, ?_⟩
      rw [Option.map_none, Option.toList_none, List.append_nil]
      exact h.levels
    | some d =>
      obtain ⟨opens, deepest⟩ := h.deep d deep
      have alone : d.token.inside = none := pairing.deep d deep
      refine ⟨s.blocks.length + 1, Nat.succ_le_succ h.room, ?_⟩
      exact h.levels.opener h.room opens alone fun _ => deepest
  obtain ⟨n, room, levels⟩ := soFar
  exact pairing.ends.levels levels room

end Layered

end Nesting

end Token

open Token

/-- How deep the tokens of a text are nested. -/
theorem tokenize_levels (source : String) : ∃ n, Levels n (tokenize source).tokens :=
  (Nesting.Layered.empty.foldl (lexemes source.toList) .empty).atEnd
    (Nesting.Pairing.empty.foldl (lexemes source.toList))

end Stylesheet
