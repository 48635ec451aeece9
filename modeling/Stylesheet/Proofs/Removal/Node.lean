import Stylesheet.Proofs.Regular.Node

/-!
# Trees without a node

A node may be taken out of trees, with all that is below it. What is known about the nodes besides
makes no difference to that, so it can be done to the tree that was read or to the numbered one.
-/

namespace Stylesheet.Node

variable {α β : Type}

/-- Some trees without one node, which is one of them or stands below one. -/
inductive Deletes (n : Node α) : List (Node α) → List (Node α) → Prop
  | here {ns : List (Node α)} : Deletes n (n :: ns) ns
  | inside {m : Node α} {cs ns : List (Node α)} (content : Deletes n m.children cs) :
    Deletes n (m :: ns) ({ m with children := cs } :: ns)
  | later {m : Node α} {ns ns' : List (Node α)} (rest : Deletes n ns ns') :
    Deletes n (m :: ns) (m :: ns')

namespace Deletes

variable {n : Node α} {ms ns ns' : List (Node α)}

theorem mem (h : Deletes n ns ns') : ∃ m ∈ ns, n ∈ m.nodes := by
  induction h with
  | here => exact ⟨n, List.mem_cons_self, mem_nodes_iff.mpr (.inl rfl)⟩
  | @inside m cs ns _ ih =>
    obtain ⟨c, hc, hn⟩ := ih
    exact ⟨m, List.mem_cons_self, mem_nodes_iff.mpr (.inr ⟨c, hc, hn⟩)⟩
  | later _ ih =>
    obtain ⟨m, hm, hn⟩ := ih
    exact ⟨m, List.mem_cons_of_mem _ hm, hn⟩

/-- What is taken out of two lists is taken out of one of them. -/
theorem append_cases (h : Deletes n (ms ++ ns) ns') :
    (∃ ms', Deletes n ms ms' ∧ ns' = ms' ++ ns) ∨ ∃ rest, Deletes n ns rest ∧ ns' = ms ++ rest := by
  induction ms generalizing ns' with
  | nil => exact .inr ⟨ns', h, rfl⟩
  | cons m ms ih =>
    cases h with
    | here => exact .inl ⟨ms, .here, rfl⟩
    | inside content => exact .inl ⟨_, .inside content, rfl⟩
    | later rest =>
      obtain ⟨ms', h, rfl⟩ | ⟨ns', h, rfl⟩ := ih rest
      · exact .inl ⟨m :: ms', .later h, rfl⟩
      · exact .inr ⟨ns', h, rfl⟩

/-- No more can be taken out of the numbered trees than out of those that were read. -/
theorem map (f : α → β) (h : Deletes n ns ns') :
    Deletes (n.map f) (ns.map (Node.map f)) (ns'.map (Node.map f)) := by
  induction h with
  | here => exact .here
  | @inside m cs ns _ ih =>
    rw [← map_children] at ih
    have less : Deletes (n.map f) (m.map f :: ns.map (Node.map f)) _ := .inside ih
    obtain ⟨kind, detail, note, children⟩ := m
    simpa [Node.map, mapAll_eq_map] using less
  | later _ ih => exact .later ih

/-- And no less. -/
theorem of_map {f : α → β} {n : Node β} {ns' : List (Node β)}
    (h : Deletes n (ns.map (Node.map f)) ns') :
    ∃ m ms, n = m.map f ∧ ns' = ms.map (Node.map f) ∧ Deletes m ns ms := by
  generalize hs : ns.map (Node.map f) = us at h
  induction h generalizing ns with
  | here =>
    obtain ⟨m, ms, rfl, hm, rfl⟩ := List.map_eq_cons_iff.mp hs
    exact ⟨m, ms, hm.symm, rfl, .here⟩
  | @inside u cs us _ ih =>
    obtain ⟨m, ms, rfl, rfl, rfl⟩ := List.map_eq_cons_iff.mp hs
    obtain ⟨l, ls, rfl, rfl, content⟩ := ih (map_children f m).symm
    refine ⟨l, { m with children := ls } :: ms, rfl, ?_, .inside content⟩
    obtain ⟨kind, detail, note, children⟩ := m
    simp [Node.map, mapAll_eq_map]
  | later _ ih =>
    obtain ⟨m, ms, rfl, rfl, rfl⟩ := List.map_eq_cons_iff.mp hs
    obtain ⟨l, ls, rfl, rfl, rest⟩ := ih rfl
    exact ⟨l, m :: ls, rfl, rfl, .later rest⟩

end Deletes

mutual

theorem exists_deletes {n : Node α} : ∀ m : Node α, n ∈ m.nodes → ∀ ns,
    ∃ ns', Deletes n (m :: ns) ns'
  | ⟨kind, detail, note, children⟩, h, ns => by
    obtain rfl | ⟨c, hc, hn⟩ := mem_nodes_iff.mp h
    · exact ⟨ns, .here⟩
    · obtain ⟨cs, content⟩ := exists_deletesAll children ⟨c, hc, hn⟩
      exact ⟨_, .inside content⟩

/-- Every node can be taken out. -/
theorem exists_deletesAll {n : Node α} : ∀ ms : List (Node α), (∃ m ∈ ms, n ∈ m.nodes) →
    ∃ ns', Deletes n ms ns'
  | [], h => by
    obtain ⟨_, ⟨⟩, _⟩ := h
  | m :: ms, h => by
    obtain ⟨l, hl, hn⟩ := h
    obtain here | hl := List.mem_cons.mp hl
    · exact exists_deletes m (here ▸ hn) ms
    · obtain ⟨ns', rest⟩ := exists_deletesAll ms ⟨l, hl, hn⟩
      exact ⟨m :: ns', .later rest⟩

end

theorem strip_mk (kind : NodeKind) (detail : Detail) (note : α) (ns : List (Node α)) :
    strip ⟨kind, detail, note, ns⟩ = ⟨kind, detail, (), ns.map strip⟩ := by
  rw [strip, map, mapAll_eq_map]
  rfl

end Stylesheet.Node
