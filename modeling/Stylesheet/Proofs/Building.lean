import Stylesheet.Proofs.Numbering

/-!
# Building trees

A tree is built, stripped, walked and measured with stacks instead of recursion. The main statement
says that this makes no difference: a built tree has the kinds, the details and the children of the
tree it was built from, its numbers count the nodes in pre-order, and the places of its nodes are
those that were asked for and lie in the text. Walks go through it in pre-order, so the node with a
number is the one that the walk comes to at that position.
-/

namespace Stylesheet

/-- What a mark says about the place of a node. -/
def Mark.place (m : Mark) : SpanProvenance × Option Span := (m.provenance, m.span)

/-- What is said about a place: the span, if it was asked for and lies in a text of `size` bytes. -/
def Span.trusted (size : Nat) (spans : Bool) : Option Span → SpanProvenance × Option Span
  | some s => if spans ∧ s.start ≤ s.stop ∧ s.stop ≤ size then (.input, some s) else (.none, none)
  | none => (.none, none)

theorem Mark.place_ofPlace (size id : Nat) (spans : Bool) (place : Option Span) :
    (Mark.ofPlace size id (if spans then place else none)).place = Span.trusted size spans place := by
  cases place with
  | none => cases spans <;> rfl
  | some s =>
    cases spans with
    | false => rfl
    | true =>
      by_cases fits : s.fits size
      · simp [Mark.place, Mark.ofPlace, Span.trusted, Option.filter, fits, Span.fits_iff.mp fits]
      · have not_fits := mt Span.fits_iff.mpr fits
        simp [Mark.place, Mark.ofPlace, Span.trusted, Option.filter, fits, not_fits]

namespace Node

mutual

/-- Numbering keeps the kinds, the details and the children, and each place as far as it is
trusted. -/
theorem map_place_numberFrom (size : Nat) (spans : Bool) : ∀ (n : Node (Option Span)) (next : Nat),
    ((n.map fun place => if spans then place else none).numberFrom size next).1.map Mark.place =
      n.map (Span.trusted size spans)
  | ⟨_, _, place, children⟩, next => by
    rw [map, numberFrom, map, map, Mark.place_ofPlace,
      map_place_numberAllFrom size spans children (Mark.nextId next)]

theorem map_place_numberAllFrom (size : Nat) (spans : Bool) :
    ∀ (ns : List (Node (Option Span))) (next : Nat),
      mapAll Mark.place (numberAllFrom size next
          (mapAll (fun place => if spans then place else none) ns)).1 =
        mapAll (Span.trusted size spans) ns
  | [], _ => rfl
  | n :: ns, next => by
    rw [mapAll, numberAllFrom, mapAll, mapAll, map_place_numberFrom size spans n next,
      map_place_numberAllFrom size spans ns]

end

variable (raw : Node (Option Span)) (size : Nat) (spans : Bool)

theorem map_place_build : (raw.build size spans).map Mark.place = raw.map (Span.trusted size spans) := by
  rw [build_eq]
  exact map_place_numberFrom size spans raw 1

/-- A built tree that is stripped is the tree it was built from, with all places erased. -/
theorem unmarked_build : (raw.build size spans).unmarked = raw.map fun _ => none := by
  calc (raw.build size spans).unmarked
    _ = (raw.build size spans).map fun _ => none := unmarked_eq _
    _ = ((raw.build size spans).map Mark.place).map fun _ => none := by rw [map_map]
    _ = (raw.map (Span.trusted size spans)).map fun _ => none := by rw [map_place_build]
    _ = raw.map fun _ => none := by rw [map_map]

theorem size_build : (raw.build size spans).size = raw.size := by
  rw [← size_map Mark.place, map_place_build, size_map]

theorem depth_build : (raw.build size spans).depth = raw.depth := by
  rw [← depth_map Mark.place, map_place_build, depth_map]

variable {raw size spans}

/-- The numbers of a built tree are the positions of its nodes, counted from one. -/
theorem build_ids (small : raw.size < UInt32.size) :
    (raw.build size spans).nodes.map (·.note.id) = List.range' 1 raw.size := by
  have size_eq := size_build raw size spans
  rw [build_eq] at size_eq ⊢
  rw [number_ids size (size_eq ▸ small), size_eq]

end Node

/-- If the items of a list are numbered from one, looking for a number is taking the item at its
position. -/
theorem find?_eq_getElem? {α : Type} {f : α → Nat} {l : List α}
    (h : l.map f = List.range' 1 l.length) (k : Nat) :
    l.find? (fun a => f a = k) = if k = 0 then none else l[k - 1]? := by
  have value (i : Nat) (hi : i < l.length) : f l[i] = i + 1 := by
    have here : (l.map f)[i]? = (List.range' 1 l.length)[i]? := by rw [h]
    rw [List.getElem?_map, List.getElem?_eq_getElem hi, List.getElem?_range' hi, Nat.one_mul,
      Nat.add_comm] at here
    exact Option.some.inj here
  by_cases inside : 1 ≤ k ∧ k ≤ l.length
  · obtain ⟨pos, le⟩ := inside
    have lt : k - 1 < l.length := by omega
    rw [if_neg (by omega), List.getElem?_eq_getElem lt, List.find?_eq_some_iff_getElem]
    refine ⟨decide_eq_true (by rw [value _ lt]; omega), k - 1, lt, rfl, fun j before => ?_⟩
    have differ : f l[j] ≠ k := by rw [value j (by omega)]; omega
    simp [differ]
  · have outside : (if k = 0 then none else l[k - 1]?) = none := by
      split
      · rfl
      · exact List.getElem?_eq_none (by omega)
    rw [outside, List.find?_eq_none]
    intro a ha
    obtain ⟨i, hi, rfl⟩ := List.getElem_of_mem ha
    have differ : f l[i] ≠ k := by rw [value i hi]; omega
    simp [differ]

/-- What the stacks do is what recursion does. A tree of less than `2 ^ 32` nodes is built with its
kinds, details and children, the numbers from one on in pre-order, and the places that were asked for
and lie in the text; stripping it gives the tree back without places. A walk visits it in pre-order
with the depths of its nodes, its measures are its size and its depth, and a node is found under a
number if that is its position in the walk. -/
theorem Node.build_eq_recursion (raw : Node (Option Span)) (size : Nat) (spans : Bool)
    (small : raw.size < UInt32.size) :
    let built := raw.build size spans
    built.map Mark.place = raw.map (Span.trusted size spans) ∧
      (built.walkFrom 0).map (fun visit => visit.1.note.id) = List.range' 1 raw.size ∧
      built.unmarked = raw.map (fun _ => none) ∧
      built.walk = built.walkFrom 0 ∧
      built.measure = ⟨raw.size, raw.depth⟩ ∧
      (∀ k, 1 ≤ k → k ≤ raw.size →
        ∃ visit, (built.walkFrom 0)[k - 1]? = some visit ∧ built.find? k = some visit.1) ∧
      ∀ k, k = 0 ∨ raw.size < k → built.find? k = none := by
  intro built
  have ids : built.nodes.map (·.note.id) = List.range' 1 raw.size := build_ids small
  have count : built.nodes.length = raw.size := by simpa using congrArg List.length ids
  have found := find?_eq_getElem? (f := fun m : Node Mark => m.note.id) (by rw [ids, count])
  have walk := walk_eq built
  refine ⟨map_place_build raw size spans, ?ids, unmarked_build raw size spans, walk, ?measure,
    ?inside, ?outside⟩
  case ids => rw [← walk, ← ids, nodes, List.map_map]; rfl
  case measure => rw [measure_eq, size_build, depth_build]
  case inside =>
    intro k pos le
    have lt : k - 1 < built.walk.length := by
      rw [nodes, List.length_map] at count
      omega
    refine ⟨built.walk[k - 1], by rw [← walk, List.getElem?_eq_getElem lt], ?_⟩
    rw [Node.find?, found, if_neg (by omega), nodes, List.getElem?_map, List.getElem?_eq_getElem lt]
    rfl
  case outside =>
    intro k outside
    rw [Node.find?, found]
    split
    · rfl
    · exact List.getElem?_eq_none (by omega)

/-- The third node of a tree whose root reaches past the end of the text. -/
theorem Node.build_eq_recursion_nested :
    let leaf (start : Nat) : Node (Option Span) := ⟨.identifier, .none, some ⟨start, start + 1⟩, []⟩
    let raw : Node (Option Span) := ⟨.value, .none, some ⟨0, 5⟩,
      [⟨.parentheses, .none, some ⟨0, 3⟩, [leaf 1]⟩, leaf 4]⟩
    raw.size < UInt32.size ∧
      (raw.build 4 true).map Mark.place = raw.map (Span.trusted 4 true) ∧
      ∃ visit, ((raw.build 4 true).walkFrom 0)[2]? = some visit ∧
        (raw.build 4 true).find? 3 = some visit.1 := by
  intro leaf raw
  have small : raw.size < UInt32.size := by decide
  obtain ⟨places, -, -, -, -, found, -⟩ := build_eq_recursion raw 4 true small
  exact ⟨small, places, found 3 (by decide) (by decide)⟩

end Stylesheet
