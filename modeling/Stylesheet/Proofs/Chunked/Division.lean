import Mathlib.Data.List.Chain
import Stylesheet.Chunk

/-!
# Dividing nodes among chunks

Chunks divide the children of a root among groups, each as large as the limits allow. While a chunk
is being filled, the groups are those of the full chunks and the group of the nodes that wait in it;
each further node either joins the last group or starts one of its own.
-/

namespace Stylesheet

/-! ### Counting nodes -/

theorem PreOrder.length_toList {α : Type} (p : PreOrder α) :
    p.toList.length = Visit.reach p.pending := by
  fun_induction PreOrder.toList p with
  | case1 p h =>
    obtain ⟨pending⟩ := p
    cases pending with
    | nil => rfl
    | cons v pending => cases h
  | case2 p v rest h ih =>
    obtain ⟨pending⟩ := p
    cases pending with
    | nil => cases h
    | cons w pending =>
      cases h
      have below := Visit.reach_below v
      rw [List.length_cons, ih, Visit.reach_append, Visit.reach]
      omega

namespace Node

variable {α : Type}

/-- A walk visits every node once. -/
theorem length_walk (n : Node α) : n.walk.length = n.size := by
  rw [walk, PreOrder.length_toList, PreOrder.ofRoot, Visit.reach, Visit.reach, Nat.add_zero]

theorem sizeAll_concat (ns : List (Node α)) (n : Node α) :
    sizeAll (ns ++ [n]) = sizeAll ns + n.size := by
  induction ns with
  | nil => rw [List.nil_append, sizeAll, sizeAll, sizeAll, Nat.add_comm]
  | cons m ns ih => rw [List.cons_append, sizeAll, ih, sizeAll, Nat.add_assoc]

/-- The canonical texts of nodes one after the other. -/
def canonicalAll (ns : List (Node α)) : String := String.join (ns.map canonical)

theorem canonicalAll_append (ns ms : List (Node α)) :
    canonicalAll (ns ++ ms) = canonicalAll ns ++ canonicalAll ms := by
  rw [canonicalAll, List.map_append, String.join_append]
  rfl

theorem canonicalAll_singleton (n : Node α) : canonicalAll [n] = n.canonical := by
  rw [canonicalAll, List.map_singleton, String.join_cons, String.join_nil, String.append_empty]

theorem canonicalAll_flatten (groups : List (List (Node α))) :
    canonicalAll groups.flatten = String.join (groups.map canonicalAll) := by
  induction groups with
  | nil => rfl
  | cons g groups ih =>
    rw [List.flatten_cons, canonicalAll_append, ih, List.map_cons, String.join_cons]

end Node

open Node

/-! ### Groups -/

/-- The text of some nodes is within the limits on a chunk. -/
structure ChunkOptions.Admits (limits : ChunkOptions) (ns : List (Node Mark)) : Prop where
  chars : (canonicalAll ns).length ≤ limits.maxChars
  nodes : sizeAll ns ≤ limits.maxNodes
  bytes : ∀ max, limits.maxBytes = some max → (canonicalAll ns).utf8ByteSize ≤ max

/-- Nodes are divided among groups in their order: none of the groups is empty, only a single node
may be beyond the limits, and the node after a group is one too many for it. -/
structure ChunkOptions.Divides (limits : ChunkOptions) (ns : List (Node Mark))
    (groups : List (List (Node Mark))) : Prop where
  flatten : groups.flatten = ns
  nonempty : ∀ g ∈ groups, g ≠ []
  within : ∀ g ∈ groups, 2 ≤ g.length → limits.Admits g
  full : groups.IsChain fun g next => ∀ n ∈ next.head?, ¬ limits.Admits (g ++ [n])

/-- A chunk is made of a group of nodes. -/
structure Chunk.MadeOf (c : Chunk) (g : List (Node Mark)) : Prop where
  first : g.head?.map (fun n => n.note.id) = some c.id
  content : c.content = canonicalAll g
  nodes : c.nodes = sizeAll g

namespace ChunkOptions.Divides

variable {limits : ChunkOptions} {ns g : List (Node Mark)} {groups : List (List (Node Mark))}
variable {n : Node Mark}

theorem singleton (limits : ChunkOptions) (n : Node Mark) : limits.Divides [n] [[n]] where
  flatten := rfl
  nonempty := List.forall_mem_singleton.mpr (List.cons_ne_nil n [])
  within := List.forall_mem_singleton.mpr fun two => absurd two (Nat.not_succ_le_self 1)
  full := .singleton [n]

/-- A node that the last group has room for joins it. -/
theorem extend (h : limits.Divides ns (groups ++ [g])) (room : limits.Admits (g ++ [n])) :
    limits.Divides (ns ++ [n]) (groups ++ [g ++ [n]]) := by
  obtain ⟨flat, nonempty, within, full⟩ := h
  rw [List.forall_mem_append] at nonempty within
  rw [List.isChain_append] at full
  obtain ⟨chain, -, ends⟩ := full
  refine ⟨?_, ?_, ?_, ?_⟩
  · rw [← flat]
    simp
  · refine List.forall_mem_append.mpr ⟨nonempty.1, ?_⟩
    exact List.forall_mem_singleton.mpr (by simp)
  · exact List.forall_mem_append.mpr ⟨within.1, List.forall_mem_singleton.mpr fun _ => room⟩
  · -- The node in front of the last group stays the same.
    have ne := nonempty.2 g (List.mem_singleton_self g)
    refine List.isChain_append.mpr ⟨chain, .singleton _, ?_⟩
    intro before hbefore next hnext m hm
    cases hnext
    rw [List.head?_append_of_ne_nil g ne] at hm
    exact ends before hbefore g rfl m hm

/-- A node that the last group has no room for starts a group of its own. -/
theorem start (h : limits.Divides ns (groups ++ [g])) (full : ¬ limits.Admits (g ++ [n])) :
    limits.Divides (ns ++ [n]) (groups ++ [g] ++ [[n]]) where
  flatten := by
    rw [List.flatten_append, h.flatten]
    rfl
  nonempty := by
    refine List.forall_mem_append.mpr ⟨h.nonempty, ?_⟩
    exact List.forall_mem_singleton.mpr (List.cons_ne_nil n [])
  within := by
    refine List.forall_mem_append.mpr ⟨h.within, ?_⟩
    exact List.forall_mem_singleton.mpr fun two => absurd two (Nat.not_succ_le_self 1)
  full := by
    refine List.isChain_append.mpr ⟨h.full, .singleton _, ?_⟩
    intro last hlast next hnext m hm
    rw [List.getLast?_concat] at hlast
    cases hlast
    cases hnext
    cases hm
    exact full

end ChunkOptions.Divides

/-! ### Filling chunks -/

namespace Chunk

variable {limits : ChunkOptions} {n : Node Mark} {g : List (Node Mark)}

/-- A chunk that is being filled holds a group of nodes. -/
structure Pending.Holds (p : Pending) (g : List (Node Mark)) : Prop where
  id : p.id = g.head?.map fun n => n.note.id
  content : p.content = canonicalAll g
  chars : p.chars = (canonicalAll g).length
  nodes : p.nodes = sizeAll g

namespace Pending.Holds

variable {p : Pending}

theorem nil : Pending.Holds {} [] := ⟨rfl, rfl, rfl, rfl⟩

theorem add (h : p.Holds g) (n : Node Mark) :
    (p.add n.note.id n.canonical n.canonical.length n.walk.length).Holds (g ++ [n]) := by
  obtain ⟨id, content, chars, nodes⟩ := h
  have text : canonicalAll (g ++ [n]) = p.content ++ n.canonical := by
    rw [canonicalAll_append, canonicalAll_singleton, content]
  refine ⟨?_, text.symm, ?_, ?_⟩
  · cases g with
    | nil =>
      rw [List.head?_nil, Option.map_none] at id
      rw [Pending.add, id]
      rfl
    | cons m g =>
      rw [List.head?_cons, Option.map_some] at id
      rw [Pending.add, id]
      rfl
  · rw [text, String.length_append, content]
    exact congrArg (· + n.canonical.length) chars
  · rw [sizeAll_concat, ← nodes, ← length_walk]
    rfl

/-- What is counted tells whether the group with one more node is within the limits. -/
theorem fits_iff (h : p.Holds g) :
    p.fits limits n.canonical.length n.walk.length n.canonical.utf8ByteSize = true ↔
      limits.Admits (g ++ [n]) := by
  obtain ⟨-, content, chars, nodes⟩ := h
  have text : canonicalAll (g ++ [n]) = p.content ++ n.canonical := by
    rw [canonicalAll_append, canonicalAll_singleton, content]
  have count : sizeAll (g ++ [n]) = p.nodes + n.walk.length := by
    rw [sizeAll_concat, nodes, length_walk]
  have length : (canonicalAll (g ++ [n])).length = p.chars + n.canonical.length := by
    rw [text, String.length_append, chars, content]
  simp only [Pending.fits, Bool.and_eq_true, decide_eq_true_iff, Option.all_eq_true]
  constructor
  · rintro ⟨⟨chars, nodes⟩, bytes⟩
    refine ⟨length ▸ chars, count ▸ nodes, ?_⟩
    intro max hmax
    rw [text, String.utf8ByteSize_append]
    exact bytes max hmax
  · rintro ⟨chars, nodes, bytes⟩
    refine ⟨⟨length ▸ chars, count ▸ nodes⟩, ?_⟩
    intro max hmax
    rw [← String.utf8ByteSize_append, ← text]
    exact bytes max hmax

end Pending.Holds

/-- Chunks are numbered by their positions, and each is made of a group. -/
structure AreMadeOf (chunks : List Chunk) (groups : List (List (Node Mark))) : Prop where
  index : chunks.map (·.index) = List.range chunks.length
  each : List.Forall₂ MadeOf chunks groups

theorem AreMadeOf.append {chunks : List Chunk} {groups : List (List (Node Mark))} {c : Chunk}
    (h : AreMadeOf chunks groups) (index : c.index = chunks.length) (made : c.MadeOf g) :
    AreMadeOf (chunks ++ [c]) (groups ++ [g]) where
  index := by
    rw [List.map_append, h.index, List.map_singleton, index, List.length_append,
      List.length_singleton, List.range_succ]
  each := List.rel_append h.each (.cons made .nil)

/-- Nodes have been divided among groups; the chunks that are full are made of all but the last of
them, and that one is in the chunk that is being filled. -/
structure Filling.HasDivided (f : Filling) (limits : ChunkOptions) (ns : List (Node Mark))
    (groups : List (List (Node Mark))) (last : List (Node Mark)) : Prop where
  division : limits.Divides ns (groups ++ [last])
  full : AreMadeOf f.full.toList groups
  pending : f.pending.Holds last

namespace Filling.HasDivided

variable {f : Filling} {ns last : List (Node Mark)} {groups : List (List (Node Mark))}

theorem last_ne (h : f.HasDivided limits ns groups last) : last ≠ [] :=
  h.division.nonempty last (by simp)

/-- What is in the chunk that is being filled makes the next chunk. -/
theorem next (h : f.HasDivided limits ns groups last) :
    AreMadeOf f.next.full.toList (groups ++ [last]) ∧ f.next.pending.Holds [] := by
  refine ⟨?_, .nil⟩
  obtain ⟨n, rest, rfl⟩ := List.exists_cons_of_ne_nil h.last_ne
  have started : f.pending.id = some n.note.id := h.pending.id
  have flushed : f.next.full.toList = f.full.toList ++
      [⟨f.full.size, n.note.id, f.pending.content, f.pending.nodes⟩] := by
    rw [Filling.next, Pending.flush, started, Array.toList_push]
  rw [flushed]
  refine h.full.append ?_ ⟨rfl, h.pending.content, h.pending.nodes⟩
  exact Array.length_toList.symm

theorem first (limits : ChunkOptions) (n : Node Mark) :
    (Filling.take limits {} n).HasDivided limits [n] [] [n] :=
  ⟨.singleton limits n, ⟨rfl, .nil⟩, Pending.Holds.nil.add n⟩

/-- One more node joins the last group or starts a new one. -/
theorem take (h : f.HasDivided limits ns groups last) (n : Node Mark) :
    ∃ groups' last', (f.take limits n).HasDivided limits (ns ++ [n]) groups' last' := by
  have started : f.pending.id.isSome = true := by
    obtain ⟨m, rest, rfl⟩ := List.exists_cons_of_ne_nil h.last_ne
    rw [h.pending.id]
    rfl
  by_cases room : limits.Admits (last ++ [n])
  · have fits := h.pending.fits_iff.mpr room
    have taken : f.take limits n =
        ⟨f.full, f.pending.add n.note.id n.canonical n.canonical.length n.walk.length⟩ := by
      simp only [Filling.take, fits, Bool.not_true, Bool.and_false, Bool.false_eq_true, if_false]
    rw [taken]
    exact ⟨groups, last ++ [n], h.division.extend room, h.full, h.pending.add n⟩
  · have full : f.pending.fits limits n.canonical.length n.walk.length
        n.canonical.utf8ByteSize = false :=
      Bool.eq_false_iff.mpr fun fits => room (h.pending.fits_iff.mp fits)
    have taken : f.take limits n = ⟨f.next.full,
        f.next.pending.add n.note.id n.canonical n.canonical.length n.walk.length⟩ := by
      simp only [Filling.take, full, started, Bool.not_false, Bool.and_self, if_true]
    obtain ⟨made, empty⟩ := h.next
    rw [taken]
    exact ⟨groups ++ [last], [n], h.division.start room, made, empty.add n⟩

/-- Filling chunks with any number of further nodes divides them all. -/
theorem foldl (h : f.HasDivided limits ns groups last) (ms : List (Node Mark)) :
    ∃ groups' last',
      (ms.foldl (Filling.take limits) f).HasDivided limits (ns ++ ms) groups' last' := by
  induction ms generalizing f ns groups last with
  | nil => exact ⟨groups, last, by rwa [List.append_nil]⟩
  | cons m ms ih =>
    obtain ⟨groups', last', h'⟩ := h.take m
    rw [List.foldl_cons, List.append_cons]
    exact ih h'

end Filling.HasDivided

/-- Filling chunks with nodes, of which there is one at least, divides them among the chunks. -/
theorem exists_division (limits : ChunkOptions) {ns : List (Node Mark)} (ne : ns ≠ []) :
    ∃ groups, limits.Divides ns groups ∧
      AreMadeOf (ns.foldl (Filling.take limits) {}).next.full.toList groups := by
  obtain ⟨n, ns, rfl⟩ := List.exists_cons_of_ne_nil ne
  obtain ⟨groups, last, h⟩ := (Filling.HasDivided.first limits n).foldl ns
  exact ⟨groups ++ [last], h.division, h.next.1⟩

end Chunk

namespace Node

theorem units_of_children {root : Node Mark} (h : root.children ≠ []) :
    root.units = root.children := by
  rw [units, if_neg (by simpa using h)]

theorem units_of_childless {root : Node Mark} (h : root.children = []) : root.units = [root] := by
  rw [units, h]
  rfl

theorem units_ne_nil (root : Node Mark) : root.units ≠ [] := by
  by_cases h : root.children = []
  · rw [units_of_childless h]
    exact List.cons_ne_nil root []
  · rwa [units_of_children h]

/-- The chunks of a tree divide what they are made of. -/
theorem exists_chunks_division (limits : ChunkOptions) (root : Node Mark) :
    ∃ groups, limits.Divides root.units groups ∧ Chunk.AreMadeOf (root.chunks limits) groups :=
  Chunk.exists_division limits root.units_ne_nil

/-- The chunks of a tree say one after the other what they are made of. -/
theorem join_chunks (limits : ChunkOptions) (root : Node Mark) :
    String.join ((root.chunks limits).map (·.content)) = canonicalAll root.units := by
  obtain ⟨groups, division, made⟩ := root.exists_chunks_division limits
  have contents : (root.chunks limits).map (·.content) = groups.map canonicalAll := by
    refine List.forall₂_eq_eq_eq ▸ ?_
    exact List.forall₂_map_left_iff.mpr
      (List.forall₂_map_right_iff.mpr (made.each.imp fun _ _ h => h.content))
  rw [contents, ← canonicalAll_flatten, division.flatten]

/-- The children of a root are divided among its chunks in their order. A chunk is numbered by its
position and by the first of its nodes, it holds the canonical texts of its children, and it counts
their nodes; two children or more are in one chunk only within the limits, and the first child of
the next chunk would have been beyond them. A root without children makes a chunk of its own. -/
theorem chunks_divide (limits : ChunkOptions) (root : Node Mark) :
    (root.children ≠ [] → ∃ groups,
      limits.Divides root.children groups ∧ Chunk.AreMadeOf (root.chunks limits) groups) ∧
    (root.children = [] → root.chunks limits = [⟨0, root.note.id, root.canonical, 1⟩]) := by
  constructor
  · intro ne
    rw [← units_of_children ne]
    exact root.exists_chunks_division limits
  · intro childless
    have size : root.walk.length = 1 := by
      rw [length_walk]
      obtain ⟨kind, detail, note, children⟩ := root
      cases childless
      rfl
    have alone : root.chunks limits =
        [⟨0, root.note.id, "" ++ root.canonical, 0 + root.walk.length⟩] := by
      rw [chunks, units_of_childless childless]
      rfl
    rw [alone, size, String.empty_append]

/-- Of three children the first two fit into one chunk, as characters are counted and not bytes. -/
theorem chunks_divide_three :
    let leaf (id : Nat) (text : String) : Node Mark :=
      ⟨.raw, .value text, ⟨id, .none, none⟩, []⟩
    let root : Node Mark :=
      ⟨.styleSheet, .none, ⟨1, .none, none⟩, [leaf 2 "ab", leaf 3 "é", leaf 4 "c"]⟩
    let limits : ChunkOptions := { maxChars := 3 }
    root.children ≠ [] ∧
      root.chunks limits = [⟨0, 2, "abé", 2⟩, ⟨1, 4, "c", 1⟩] ∧
      (∃ groups, limits.Divides root.children groups ∧
        Chunk.AreMadeOf (root.chunks limits) groups) ∧
      (leaf 2 "ab").children = [] ∧ (leaf 2 "ab").chunks limits = [⟨0, 2, "ab", 1⟩] := by
  intro leaf root limits
  have some : root.children ≠ [] := List.cons_ne_nil _ _
  have none : (leaf 2 "ab").children = [] := rfl
  have text : (leaf 2 "ab").canonical = "ab" := by decide +kernel
  refine ⟨some, by decide +kernel, (chunks_divide limits root).1 some, none, ?_⟩
  have alone := (chunks_divide limits (leaf 2 "ab")).2 none
  rwa [text] at alone

end Node

end Stylesheet
