import Mathlib.Data.List.Chain
import Stylesheet.Proofs.Canonical
import Stylesheet.Proofs.Grammar

/-!
# Regular trees

Trees are not typed by their kinds, yet what the children of a node may be follows from its kind. A
tree is regular if that holds of all its nodes. It is a matter of kinds and details only, so what is
known about the nodes besides makes no difference.
-/

namespace Stylesheet

namespace NodeKind

/-- The kinds that make up values. -/
def isComponent : NodeKind → Bool
  | identifier | number | percentage | dimension | string | url | hash | function | operator
  | parentheses | brackets | whiteSpace | raw => true
  | _ => false

/-- The kinds that hold declarations and rules, and those themselves. -/
def isStructural : NodeKind → Bool
  | styleSheet | atrule | rule | block | declarationList | declaration => true
  | _ => false

theorem isStructural_of_isComponent {k : NodeKind} (h : k.isComponent = true) :
    k.isStructural = false := by
  cases k <;> first | rfl | cases h

theorem isStructural_of_isSimpleSelector {k : NodeKind} (h : k.isSimpleSelector = true) :
    k.isStructural = false := by
  cases k <;> first | rfl | cases h

end NodeKind

namespace Node

variable {α β : Type}

/-- The nodes that satisfy `p` are neither first nor last, and their neighbours satisfy `q`. -/
structure Between (p q : Node α → Prop) (ns : List (Node α)) : Prop where
  first : ∀ n ∈ ns.head?, ¬p n
  last : ∀ n ∈ ns.getLast?, ¬p n
  neighbours : ns.IsChain fun a b => (p a → q b) ∧ (p b → q a)

/-- A component that does not take up the white space around it: neither white space nor one of the
operators comma, slash and colon. -/
def IsSolid (n : Node α) : Prop :=
  n.kind ≠ .whiteSpace ∧
    ¬(n.kind = .operator ∧ ∃ text ∈ [",", "/", ":"], n.detail.value? = some text)

/-- White space stands only where it separates two components. -/
def Spaced (ns : List (Node α)) : Prop := Between (fun n => n.kind = .whiteSpace) IsSolid ns

/-- The combinator that white space stands for. -/
def IsDescendant (n : Node α) : Prop := n.kind = .combinator ∧ n.detail = .name " "

/-- The children of the node are what its kind says. -/
def Regular (n : Node α) : Prop :=
  match n.kind with
  | .styleSheet => ∀ c ∈ n.children, c.kind = .rule ∨ c.kind = .atrule ∨ c.kind = .raw
  | .rule => ∃ prelude block, n.children = [prelude, block] ∧
      (prelude.kind = .selectorList ∨ prelude.kind = .raw) ∧ block.kind = .block
  | .atrule => ∃ preludes blocks, n.children = preludes ++ blocks ∧
      preludes.length ≤ 1 ∧ (∀ c ∈ preludes, c.kind = .atrulePrelude) ∧
      blocks.length ≤ 1 ∧ ∀ c ∈ blocks, c.kind = .block
  | .block | .declarationList => ∀ c ∈ n.children,
      c.kind = .declaration ∨ c.kind = .rule ∨ c.kind = .atrule ∨ c.kind = .raw
  | .declaration => ∃ property important value, n.detail = .declaration property important ∧
      n.children = [value] ∧ value.kind = if isCustomProperty property then .raw else .value
  | .selectorList => n.children ≠ [] ∧ ∀ c ∈ n.children, c.kind = .selector
  | .selector => n.children ≠ [] ∧
      (∀ c ∈ n.children, c.kind.isSimpleSelector = true ∨ c.kind = .combinator) ∧
      Between IsDescendant (fun c => c.kind.isSimpleSelector = true) n.children
  | .pseudoClassSelector | .pseudoElementSelector =>
      n.children.length ≤ 1 ∧ ∀ c ∈ n.children, c.kind = .selectorList ∨ c.kind = .raw
  | .value | .function | .parentheses | .brackets | .mediaQuery | .condition =>
      Spaced n.children ∧ ∀ c ∈ n.children, c.kind.isComponent = true
  | .atrulePrelude => Spaced n.children ∧ ∀ c ∈ n.children,
      c.kind.isComponent = true ∨ c.kind = .mediaQueryList ∨ c.kind = .condition
  | .mediaQueryList => ∀ c ∈ n.children, c.kind = .mediaQuery
  | _ => n.children = []

/-- Every node of the tree is regular. -/
def RegularTree (n : Node α) : Prop := ∀ m ∈ n.nodes, m.Regular

theorem regularTree_iff {n : Node α} :
    n.RegularTree ↔ n.Regular ∧ ∀ c ∈ n.children, c.RegularTree := by
  rw [RegularTree, nodes_eq, List.forall_mem_cons]
  refine and_congr_right fun _ => ⟨fun below c hc m hm => ?_, fun below m hm => ?_⟩
  · exact below m (List.mem_flatMap.mpr ⟨c, hc, hm⟩)
  · obtain ⟨c, hc, hm⟩ := List.mem_flatMap.mp hm
    exact below c hc m hm

theorem Regular.plain_children {n : Node α} (h : n.Regular) (plain : n.kind.isStructural = false) :
    ∀ c ∈ n.children, c.kind.isStructural = false := by
  intro c hc
  unfold Regular at h
  split at h
  case h_1 | h_2 | h_3 | h_4 | h_5 | h_6 =>
    rename_i hk
    rw [hk] at plain
    cases plain
  case h_7 => rw [h.2 c hc]; rfl
  case h_8 =>
    obtain simple | joins := h.2.1 c hc
    · exact NodeKind.isStructural_of_isSimpleSelector simple
    · rw [joins]; rfl
  case h_9 | h_10 => obtain hk | hk := h.2 c hc <;> rw [hk] <;> rfl
  case h_11 | h_12 | h_13 | h_14 | h_15 | h_16 =>
    exact NodeKind.isStructural_of_isComponent (h.2 c hc)
  case h_17 =>
    obtain component | hk | hk := h.2 c hc
    · exact NodeKind.isStructural_of_isComponent component
    · rw [hk]; rfl
    · rw [hk]; rfl
  case h_18 => rw [h c hc]; rfl
  case h_19 =>
    rw [h] at hc
    cases hc

mutual

/-- What is no structure has no structure below it. -/
theorem plain_nodes : ∀ n : Node α, n.RegularTree → n.kind.isStructural = false →
    ∀ m ∈ n.nodes, m.kind.isStructural = false
  | ⟨kind, detail, note, children⟩, h, plain => by
    obtain ⟨regular, inner⟩ := regularTree_iff.mp h
    intro m hm
    obtain rfl | ⟨c, hc, hm⟩ := mem_nodes_iff.mp hm
    · exact plain
    · exact plain_nodesAll children inner (regular.plain_children plain) c hc m hm

theorem plain_nodesAll : ∀ ns : List (Node α), (∀ n ∈ ns, n.RegularTree) →
    (∀ n ∈ ns, n.kind.isStructural = false) → ∀ n ∈ ns, ∀ m ∈ n.nodes, m.kind.isStructural = false
  | [], _, _ => by
    rintro _ ⟨⟩
  | n :: ns, h, plain => by
    obtain ⟨first, later⟩ := List.forall_mem_cons.mp h
    obtain ⟨plainFirst, plainLater⟩ := List.forall_mem_cons.mp plain
    exact List.forall_mem_cons.mpr
      ⟨plain_nodes n first plainFirst, plain_nodesAll ns later plainLater⟩

end

/-- There is no structure inside a declaration. -/
theorem RegularTree.plain_inside {n : Node α} (h : n.RegularTree)
    (kind : n.kind = .declaration ∨ n.kind.isStructural = false) :
    ∀ c ∈ n.children, ∀ m ∈ c.nodes, m.kind.isStructural = false := by
  obtain ⟨regular, inner⟩ := regularTree_iff.mp h
  refine plain_nodesAll n.children inner ?_
  obtain hk | plain := kind
  · rw [Regular, hk] at regular
    obtain ⟨property, important, value, -, children, kind⟩ := regular
    rw [children, List.forall_mem_singleton, kind]
    split <;> rfl
  · exact regular.plain_children plain

/-- There is no structure below a declaration. -/
theorem RegularTree.plain_below {n : Node α} (h : n.RegularTree)
    (kind : n.kind = .declaration ∨ n.kind.isStructural = false) :
    ∀ m ∈ n.nodes, m = n ∨ m.kind.isStructural = false := by
  intro m hm
  obtain rfl | ⟨c, hc, hm⟩ := mem_nodes_iff.mp hm
  · exact .inl rfl
  · exact .inr (h.plain_inside kind c hc m hm)

/-! ### Notes do not count -/

section

variable (f : α → β)

theorem between_map {p q : Node α → Prop} {p' q' : Node β → Prop}
    (hp : ∀ n : Node α, p' (n.map f) ↔ p n) (hq : ∀ n : Node α, q' (n.map f) ↔ q n)
    (ns : List (Node α)) : Between p' q' (ns.map (map f)) ↔ Between p q ns := by
  have ends (o : Option (Node α)) : (∀ n ∈ o.map (map f), ¬p' n) ↔ ∀ n ∈ o, ¬p n := by
    cases o with
    | none => simp
    | some n => simp [hp]
  have chain : ((ns.map (map f)).IsChain fun a b => (p' a → q' b) ∧ (p' b → q' a)) ↔
      ns.IsChain fun a b => (p a → q b) ∧ (p b → q a) := by
    simp only [List.isChain_map, hp, hq]
  constructor
  · rintro ⟨first, last, neighbours⟩
    rw [List.head?_map, ends] at first
    rw [List.getLast?_map, ends] at last
    exact ⟨first, last, chain.mp neighbours⟩
  · rintro ⟨first, last, neighbours⟩
    refine ⟨?_, ?_, chain.mpr neighbours⟩
    · rwa [List.head?_map, ends]
    · rwa [List.getLast?_map, ends]

theorem isSolid_map (n : Node α) : (n.map f).IsSolid ↔ n.IsSolid := by
  rw [IsSolid, IsSolid, map_kind, map_detail]

theorem isDescendant_map (n : Node α) : (n.map f).IsDescendant ↔ n.IsDescendant := by
  rw [IsDescendant, IsDescendant, map_kind, map_detail]

theorem spaced_map (ns : List (Node α)) : Spaced (ns.map (map f)) ↔ Spaced ns :=
  between_map f (fun n => by rw [map_kind]) (isSolid_map f) ns

theorem regular_map (n : Node α) : (n.map f).Regular ↔ n.Regular := by
  have selectors : Between IsDescendant (fun c => c.kind.isSimpleSelector = true)
      (n.children.map (map f)) ↔
        Between IsDescendant (fun c => c.kind.isSimpleSelector = true) n.children :=
    between_map f (isDescendant_map f) (fun n => by rw [map_kind]) n.children
  rw [Regular, Regular, map_kind]
  split
  all_goals simp only [map_children, map_detail, List.forall_mem_map, map_kind, List.map_eq_nil_iff,
    ne_eq, List.length_map, spaced_map, selectors]
  · constructor
    · rintro ⟨prelude, block, h, hp, hb⟩
      obtain ⟨c, ds, hc, rfl, later⟩ := List.map_eq_cons_iff.mp h
      obtain ⟨d, es, rfl, rfl, none⟩ := List.map_eq_cons_iff.mp later
      obtain rfl := List.map_eq_nil_iff.mp none
      exact ⟨c, d, hc, by simpa using hp, by simpa using hb⟩
    · rintro ⟨prelude, block, h, hp, hb⟩
      exact ⟨prelude.map f, block.map f, by rw [h]; rfl, by simpa using hp, by simpa using hb⟩
  · constructor
    · rintro ⟨preludes, blocks, h, few, hp, few', hb⟩
      obtain ⟨cs, ds, hc, rfl, rfl⟩ := List.map_eq_append_iff.mp h
      simp only [List.length_map, List.forall_mem_map, map_kind] at few hp few' hb
      exact ⟨cs, ds, hc, few, hp, few', hb⟩
    · rintro ⟨preludes, blocks, h, few, hp, few', hb⟩
      exact ⟨preludes.map (map f), blocks.map (map f), by rw [h, List.map_append], by simpa using few,
        by simpa using hp, by simpa using few', by simpa using hb⟩
  · constructor
    · rintro ⟨property, important, value, hd, h, hv⟩
      obtain ⟨c, ds, hc, rfl, none⟩ := List.map_eq_cons_iff.mp h
      obtain rfl := List.map_eq_nil_iff.mp none
      exact ⟨property, important, c, hd, hc, by simpa using hv⟩
    · rintro ⟨property, important, value, hd, h, hv⟩
      exact ⟨property, important, value.map f, hd, by rw [h]; rfl, by simpa using hv⟩

/-- What is known about the nodes of a tree besides does not make it regular. -/
theorem regularTree_map (n : Node α) : (n.map f).RegularTree ↔ n.RegularTree := by
  simp only [RegularTree, nodes_map, List.forall_mem_map, regular_map]

end

end Node

end Stylesheet
