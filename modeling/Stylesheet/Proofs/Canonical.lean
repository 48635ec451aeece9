import Stylesheet.Canonical
import Stylesheet.Proofs.Document
import Stylesheet.Proofs.Numbering

/-!
# Rewriting a text canonically

The canonical text of a tree depends on its shape alone, and so do its declarations; the space in
front of a custom property's value makes no difference to either. So a text is rewritten faithfully
as soon as its canonical text is read as a tree of the same shape, up to that space.
-/

namespace Stylesheet

namespace Node

variable {α β : Type}

/-- What a declaration says: its property, whether it is important, and its value. -/
def declared? (n : Node α) : Option (String × Bool × String) :=
  if n.kind = .declaration then
    some (n.detail.property?.getD "", n.detail.important,
      Text.trim ((n.children.head?.map canonical).getD ""))
  else none

/-- What all declarations of a tree say, in the order of the text. -/
def declared (n : Node α) : List (String × Bool × String) := n.nodes.filterMap declared?

/-- Two trees are equal up to the notes on their nodes. -/
def SameShape (n : Node α) (m : Node β) : Prop := n.strip = m.strip

/-! ### Equality -/

section

variable [DecidableEq α]

mutual

/-- Equality of trees is decided node by node. -/
def decEq : (n m : Node α) → Decidable (n = m)
  | ⟨kind, detail, note, ns⟩, ⟨kind', detail', note', ms⟩ =>
    have := decEqAll ns ms
    decidable_of_iff (kind = kind' ∧ detail = detail' ∧ note = note' ∧ ns = ms)
      (iff_of_eq (Node.mk.injEq ..).symm)

/-- Equality of lists of trees is decided tree by tree. -/
def decEqAll : (ns ms : List (Node α)) → Decidable (ns = ms)
  | [], [] => .isTrue rfl
  | [], _ :: _ => .isFalse nofun
  | _ :: _, [] => .isFalse nofun
  | n :: ns, m :: ms =>
    have := decEq n m
    have := decEqAll ns ms
    decidable_of_iff (n = m ∧ ns = ms) (iff_of_eq (List.cons.injEq ..).symm)

end

instance : DecidableEq (Node α) := decEq

end

instance (n : Node α) (m : Node β) : Decidable (n.SameShape m) :=
  inferInstanceAs (Decidable (n.strip = m.strip))

/-! ### Notes do not matter -/

section

variable (f : α → β)

mutual

theorem generate_map : ∀ n : Node α, (n.map f).generate = n.generate
  | ⟨_, _, _, children⟩ => by rw [map, generate, generate, generateAll_mapAll children]

theorem generateAll_mapAll :
    ∀ ns : List (Node α), generateAll (mapAll f ns) = generateAll ns
  | [] => rfl
  | n :: ns => by
    rw [mapAll, generateAll, generateAll, generate_map n, generateAll_mapAll ns, map_kind]

end

theorem padRaw_map (n : Node α) : (n.map f).padRaw = n.padRaw.map f := by
  obtain ⟨kind, detail, note, children⟩ := n
  unfold padRaw
  simp only [map_kind, map_detail]
  split
  · split
    · rfl
    · split <;> rfl
  · rfl

mutual

theorem padCustom_map : ∀ n : Node α, (n.map f).padCustom = n.padCustom.map f
  | ⟨kind, detail, note, children⟩ => by
    rw [map, padCustom, padCustom, map, padCustomAll_mapAll children]
    split
    · simp only [mapAll_eq_map, List.map_map, Function.comp_def, padRaw_map]
    · rfl

theorem padCustomAll_mapAll :
    ∀ ns : List (Node α), padCustomAll (mapAll f ns) = mapAll f (padCustomAll ns)
  | [] => rfl
  | n :: ns => by
    rw [mapAll, padCustomAll, padCustomAll, mapAll, padCustom_map n, padCustomAll_mapAll ns]

end

mutual

theorem nodes_map : ∀ n : Node α, (n.map f).nodes = n.nodes.map (map f)
  | ⟨_, _, _, children⟩ => by
    rw [map, nodes_eq, nodes_eq, List.map_cons, flatMap_nodes_mapAll children]
    rfl

theorem flatMap_nodes_mapAll :
    ∀ ns : List (Node α), (mapAll f ns).flatMap nodes = (ns.flatMap nodes).map (map f)
  | [] => rfl
  | n :: ns => by
    rw [mapAll, List.flatMap_cons, List.flatMap_cons, List.map_append, nodes_map n,
      flatMap_nodes_mapAll ns]

end

theorem strip_map (n : Node α) : (n.map f).strip = n.strip := map_map f _ n

/-- Dropping the notes first makes no difference to the text. -/
theorem canonical_eq (n : Node α) : n.canonical = n.padCustom.generate := by
  rw [canonical, unmarked_eq, padCustom_map, generate_map]

theorem canonical_map (n : Node α) : (n.map f).canonical = n.canonical := by
  rw [canonical_eq, padCustom_map, generate_map, canonical_eq]

theorem declared?_map (n : Node α) : (n.map f).declared? = n.declared? := by
  simp only [declared?, map_kind, map_detail, map_children, List.head?_map, Option.map_map,
    Function.comp_def, canonical_map]

theorem declared_map (n : Node α) : (n.map f).declared = n.declared := by
  rw [declared, nodes_map, List.filterMap_map, declared]
  exact congrArg (List.filterMap · _) (funext (declared?_map f))

end

section SameShape

variable {n p c : Node α} {m q : Node β}

theorem SameShape.kind_eq (h : n.SameShape m) : n.kind = m.kind := by
  have kinds := congrArg Node.kind h
  rwa [strip, strip, map_kind, map_kind] at kinds

/-- A node of the same shape stands in a tree of the same shape. -/
theorem SameShape.exists_node (h : n.SameShape m) (hp : p ∈ n.nodes) :
    ∃ q ∈ m.nodes, p.SameShape q := by
  have found : p.strip ∈ n.strip.nodes := by
    rw [strip, strip, nodes_map]
    exact List.mem_map_of_mem hp
  rw [show n.strip = m.strip from h, strip, strip, nodes_map] at found
  obtain ⟨q, hq, same⟩ := List.mem_map.mp found
  exact ⟨q, hq, same.symm⟩

theorem SameShape.exists_child (h : p.SameShape q) (hc : c ∈ p.children) :
    ∃ d ∈ q.children, c.SameShape d := by
  have found : c.strip ∈ p.strip.children := by
    rw [strip, strip, map_children]
    exact List.mem_map_of_mem hc
  rw [show p.strip = q.strip from h, strip, strip, map_children] at found
  obtain ⟨d, hd, same⟩ := List.mem_map.mp found
  exact ⟨d, hd, same.symm⟩

end SameShape

theorem SameShape.canonical {n : Node α} {m : Node β} (h : n.SameShape m) :
    n.canonical = m.canonical := by
  rw [← canonical_map (fun _ => ()) n, ← canonical_map (fun _ => ()) m]
  exact congrArg Node.canonical h

theorem SameShape.declared {n : Node α} {m : Node β} (h : n.SameShape m) :
    n.declared = m.declared := by
  rw [← declared_map (fun _ => ()) n, ← declared_map (fun _ => ()) m]
  exact congrArg Node.declared h

end Node

/-- The tree of some tokens has the shape that was read, however its nodes are numbered. -/
theorem Document.treeOf_sameShape (spans : Bool) (context : Context) (list : TokenList) :
    (treeOf spans context list).value.SameShape (Grammar.readScope context list).value := by
  rw [treeOf_eq, Parsed.map_value, Node.SameShape, Node.strip_number, Node.strip_map]
  rfl

/-- The tree of a text, read as a style sheet. -/
def sheetOf (css : String) : Node Mark :=
  (Document.treeOf false .stylesheet (tokenize css)).value

/-- What is wrong with a text, read as a style sheet. -/
def errorsOf (css : String) : List SyntaxError :=
  (Document.treeOf false .stylesheet (tokenize css)).errors

/-- The text that a text is rewritten to. -/
def canonicalOf (css : String) : String := (sheetOf css).canonical

open Document in
theorem parse_eq_sheetOf (css : String) : ∃ d, parse css {} = .ok d ∧ d.root = sheetOf css := by
  obtain ⟨d, read⟩ := exists_parse css {} {}
  exact ⟨d, read, parse_root read⟩

/-- A canonical text that is read as a tree of the same shape is its own canonical text and declares
the same. -/
theorem canonicalOf_eq_of_sameShape {css : String}
    (h : (sheetOf (canonicalOf css)).SameShape (sheetOf css)) :
    canonicalOf (canonicalOf css) = canonicalOf css ∧
      (sheetOf (canonicalOf css)).declared = (sheetOf css).declared :=
  ⟨h.canonical, h.declared⟩

end Stylesheet
