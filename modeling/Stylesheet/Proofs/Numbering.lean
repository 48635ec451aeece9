import Mathlib.Data.List.Nodup
import Stylesheet.Document

/-!
# Numbers of nodes

Numbering a tree gives its nodes their positions in pre-order, counted from one. The numbers end at
the greatest one, so this holds for trees that do not need more.
-/

namespace Stylesheet

namespace Node

mutual

theorem size_numberFrom (size next : Nat) :
    ∀ n : Node (Option Span), (n.numberFrom size next).1.size = n.size
  | ⟨_, _, _, children⟩ => by
    rw [numberFrom, Node.size, Node.size, size_numberAllFrom size (Mark.nextId next) children]

theorem size_numberAllFrom (size next : Nat) :
    ∀ ns : List (Node (Option Span)), sizeAll (numberAllFrom size next ns).1 = sizeAll ns
  | [] => rfl
  | n :: ns => by
    rw [numberAllFrom, sizeAll, sizeAll, size_numberFrom size next n, size_numberAllFrom size _ ns]

end

mutual

/-- A tree takes the numbers from `next` on, as far as there are any. -/
theorem numberFrom_ids (size : Nat) : ∀ (n : Node (Option Span)) (next : Nat),
    next + n.size ≤ Mark.lastId + 1 →
      (n.numberFrom size next).1.nodes.map (·.note.id) = List.range' next n.size ∧
        (n.numberFrom size next).2 = min (next + n.size) Mark.lastId
  | ⟨kind, detail, place, children⟩, next, h => by
    rw [Node.size] at h ⊢
    obtain ⟨ids, after⟩ := numberAllFrom_ids size children (next + 1) (by omega)
    rw [numberFrom, nodes_eq, Mark.nextId]
    constructor
    · rw [List.map_cons, ids, Nat.add_comm 1, List.range'_succ]
      rfl
    · rw [after, Nat.add_assoc]

/-- `next` may be one past the greatest number if the list is empty. -/
theorem numberAllFrom_ids (size : Nat) : ∀ (ns : List (Node (Option Span))) (next : Nat),
    next + sizeAll ns ≤ Mark.lastId + 1 →
      ((numberAllFrom size (min next Mark.lastId) ns).1.flatMap nodes).map (·.note.id) =
          List.range' next (sizeAll ns) ∧
        (numberAllFrom size (min next Mark.lastId) ns).2 = min (next + sizeAll ns) Mark.lastId
  | [], next, _ => by simp [numberAllFrom, sizeAll]
  | n :: ns, next, h => by
    rw [sizeAll] at h ⊢
    have pos := n.size_pos
    obtain ⟨ids, after⟩ := numberFrom_ids size n next (by omega)
    obtain ⟨rest, last⟩ := numberAllFrom_ids size ns (next + n.size) (by omega)
    rw [Nat.min_eq_left (show next ≤ Mark.lastId by omega), numberAllFrom]
    dsimp only
    rw [after]
    constructor
    · rw [List.flatMap_cons, List.map_append, ids, rest, List.range'_append_1]
    · rw [last, Nat.add_assoc]

end

mutual

theorem strip_numberFrom (size next : Nat) :
    ∀ n : Node (Option Span), (n.numberFrom size next).1.strip = n.strip
  | ⟨_, _, _, children⟩ => by
    rw [numberFrom, strip, strip, map, map]
    exact congrArg _ (strip_numberAllFrom size (Mark.nextId next) children)

theorem strip_numberAllFrom (size next : Nat) :
    ∀ ns : List (Node (Option Span)),
      mapAll (fun _ => ()) (numberAllFrom size next ns).1 = mapAll (fun _ => ()) ns
  | [] => rfl
  | n :: ns => by
    rw [numberAllFrom, mapAll, mapAll, strip_numberAllFrom size _ ns]
    exact congrArg (· :: _) (strip_numberFrom size next n)

end

/-- Numbering changes nothing but the notes. -/
theorem strip_number (size : Nat) (n : Node (Option Span)) : (n.number size).strip = n.strip :=
  strip_numberFrom size 1 n

/-- The numbers of a tree's nodes are their positions, counted from one. -/
theorem number_ids {n : Node (Option Span)} (size : Nat)
    (h : (n.number size).size < UInt32.size) :
    (n.number size).nodes.map (·.note.id) = List.range' 1 (n.number size).size := by
  have hsize : (n.number size).size = n.size := size_numberFrom size 1 n
  rw [hsize] at h ⊢
  have hlast : Mark.lastId + 1 = UInt32.size := rfl
  exact (numberFrom_ids size n 1 (by omega)).1

end Node

/-- In a document that is not too large, no two nodes share a number. -/
theorem Document.treeOf_injOn {spans : Bool} {context : Context} {list : TokenList}
    (h : (treeOf spans context list).value.size < UInt32.size) {m n : Node Mark}
    (hm : m ∈ (treeOf spans context list).value.nodes)
    (hn : n ∈ (treeOf spans context list).value.nodes) (same : m.note.id = n.note.id) : m = n := by
  have nodup : ((treeOf spans context list).value.nodes.map (·.note.id)).Nodup := by
    rw [treeOf_eq] at h ⊢
    rw [Parsed.map_value, Node.number_ids list.size h]
    exact List.nodup_range'
  exact List.inj_on_of_nodup_map nodup hm hn same

end Stylesheet
