import Stylesheet.Proofs.Nesting.Level

/-!
# Blocks that are left out are deep

A block is left out only where `maxDepth` blocks are open around it, and its opener stays among the
tokens. So a text in which no token is deeper than that has tokens for all of its blocks.
-/

namespace Stylesheet

namespace Token

/-- Some token is nested deeper than what is tokenized. -/
def Deep (ts : List Token) : Prop := ∃ i < ts.length, maxDepth < level ts i

section

variable {n size : Nat} {t o : Token} {ts us inner : List Token}

theorem Deep.append (h : Deep ts) (us : List Token) : Deep (ts ++ us) := by
  obtain ⟨i, inside, deep⟩ := h
  refine ⟨i, ?_, ?_⟩
  · rw [List.length_append]
    exact Nat.lt_add_right us.length inside
  · rwa [level_left us inside]

/-- The tokens in a block and around it are as deep as before the block is closed. -/
theorem Deep.close (h : Deep (ts ++ o :: inner)) (opens : o.kind.opensBlock = true)
    (waits : o.inside = none) (us : List Token) :
    Deep (ts ++ { o with inside := some inner.length } :: (inner ++ us)) := by
  obtain ⟨i, inside, deep⟩ := h
  rw [List.length_append, List.length_cons] at inside
  refine ⟨i, ?_, ?_⟩
  · rw [List.length_append, List.length_cons, List.length_append]
    omega
  · rwa [level_close_before opens waits inside]

/-- Where `maxDepth` blocks are open, the next one is too deep. -/
theorem Levels.deep (h : Levels maxDepth ts) (opens : t.kind.opensBlock = true) :
    Deep (ts ++ [t]) := by
  refine ⟨ts.length, ?_, ?_⟩
  · rw [List.length_append]
    exact Nat.lt_succ_self _
  · have top : level (ts ++ [t]) (ts.length + 0) = maxDepth + 1 := by
      rw [level_right, h.top, level_singleton, holds, opens]
      rfl
    exact Nat.lt_of_lt_of_eq (Nat.lt_succ_self maxDepth) top.symm

theorem deep_congr (same : us.map (fun t => (t.kind, t.inside)) =
    ts.map fun t => (t.kind, t.inside)) (h : Deep ts) : Deep us := by
  obtain ⟨i, inside, deep⟩ := h
  have length : us.length = ts.length := by simpa using congrArg List.length same
  refine ⟨i, ?_, ?_⟩
  · rwa [length]
  · rwa [level_congr same]

/-- The end of a text takes no token away. -/
theorem Ends.deep (h : Ends size ts us) (deep : Deep ts.reverse) : Deep us.reverse := by
  obtain rfl | ⟨before, front, inner, t, short, opener, k, order, reclaimed, split, own, waits,
    closed⟩ := h.in_order
  · exact deep
  · obtain ⟨left, c, -, -, rfl⟩ := reclaim_eq_some reclaimed
    rw [order] at deep
    have shortened : Deep (before ++ [{ t with omitted := String.ofList left }]) :=
      deep_congr (by simp) deep
    rw [split] at shortened
    rw [closed]
    exact shortened.close (Kind.opensBlock_of_closing own) waits [madeUp k size]

end

namespace Nesting

variable {s : Nesting} {t : Token} {x : Lexeme × List Char}

/-- If a block has been left out, or is being left out, some token is too deep. -/
def Shows (s : Nesting) : Prop := s.truncated ≠ [] → Deep s.soFar.reverse

namespace Shows

theorem empty : Shows {} := absurd rfl

theorem place (h : s.Shows) (layered : s.Layered) (paired : s.Paired) (deep : s.deep = none) :
    (s.place t).Shows := by
  intro some
  have soFar (s : Nesting) (deep : s.deep = none) : s.soFar.reverse = s.settled := by
    rw [soFar_reverse, deep]
    exact List.append_nil _
  rw [Shows, soFar s deep] at h
  obtain ⟨opens, room⟩ | ⟨opens, room⟩ | ⟨plain, b, bs, hb, own⟩ | ⟨plain, other⟩ :=
    place_cases s t
  · rw [place_opener opens room] at some ⊢
    rw [soFar _ (by exact deep)]
    have more := (h some).append [t]
    simpa [settled, OpenBlock.abandon] using more
  · have full : s.blocks.length = maxDepth :=
      Nat.le_antisymm layered.room (Nat.le_of_not_lt room)
    have levels := layered.levels
    rw [full] at levels
    rw [place_deep opens room, soFar_reverse]
    exact levels.deep opens
  · obtain ⟨before, after⟩ := settled_close (s := s) (t := t) hb
    obtain ⟨opens, waits, -⟩ := paired.blocks b (by rw [hb]; exact List.mem_cons_self)
    rw [place_closer plain hb own] at some ⊢
    rw [truncated_add] at some
    rw [soFar _ (by rw [deep_add]; exact deep), after]
    have inside := h some
    rw [before] at inside
    exact inside.close opens waits [t]
  · rw [place_other plain other] at some ⊢
    rw [truncated_add] at some
    rw [soFar _ (by rw [deep_add]; exact deep), settled_add]
    exact (h some).append _

/-- While a block is left out its opener is too deep, whatever is read in it. -/
theorem skip {d : DeepBlock} (layered : s.Layered) (pairing : s.Pairing) (deep : s.deep = some d) :
    (s.skip d t).Shows := by
  obtain ⟨opens, deepest⟩ := layered.deep d deep
  have levels := layered.levels
  rw [deepest] at levels
  have shown : Deep (s.settled ++ [d.token]) := levels.deep opens
  intro _
  rw [soFar_reverse]
  cases closing : t.kind.closing with
  | some c =>
    rw [skip_opener closing]
    exact levels.deep opens
  | none =>
    cases awaits : d.awaited with
    | cons c awaited =>
      rw [skip_awaiting closing awaits]
      exact levels.deep opens
    | nil =>
      by_cases own : d.opener.kind.closing = some t.kind
      · rw [skip_closer closing awaits own, settled_add]
        have closed := shown.close opens (pairing.deep d deep) [t]
        rw [deep_add, Option.map_none, Option.toList_none, List.append_nil]
        exact closed
      · rw [skip_other closing awaits own]
        exact levels.deep opens

theorem step (h : s.Shows) (layered : s.Layered) (pairing : s.Pairing) : (s.step x).Shows := by
  have layered' : Layered { s with offset := (s.next x).stop } :=
    ⟨layered.levels, layered.room, layered.deep⟩
  have pairing' : Pairing { s with offset := (s.next x).stop } :=
    ⟨⟨pairing.outer, pairing.blocks⟩, pairing.deep⟩
  have shows' : Shows { s with offset := (s.next x).stop } := h
  cases deep : s.deep with
  | none =>
    rw [step_place deep]
    exact shows'.place layered' pairing'.toPaired deep
  | some d =>
    rw [step_deep deep]
    exact skip layered' pairing' deep

theorem foldl (xs : List (Lexeme × List Char)) (h : s.Shows) (layered : s.Layered)
    (pairing : s.Pairing) : (xs.foldl Nesting.step s).Shows := by
  induction xs generalizing s with
  | nil => exact h
  | cons x xs ih => exact ih (h.step layered pairing) (layered.step pairing) pairing.step

end Shows

end Nesting

end Token

open Token

/-- A text has tokens for all of its blocks if none of them is too deep. -/
theorem truncated_eq_nil {source : String}
    (shallow : ∀ i < (tokenize source).tokens.length, level (tokenize source).tokens i ≤ maxDepth) :
    (tokenize source).truncated = [] := by
  have pairing := Nesting.Pairing.empty.foldl (lexemes source.toList)
  have shows := Nesting.Shows.empty.foldl (lexemes source.toList) .empty .empty
  rw [TokenList.tokenize_eq, List.reverse_eq_nil_iff]
  refine Decidable.byContradiction fun some => ?_
  obtain ⟨i, inside, deep⟩ := pairing.ends.deep (shows some)
  exact Nat.not_lt_of_le (shallow i inside) deep

end Stylesheet
