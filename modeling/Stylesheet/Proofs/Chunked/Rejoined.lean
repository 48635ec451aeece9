import Stylesheet.Proofs.Chunked.Division
import Stylesheet.Proofs.Concat.Document

/-!
# Chunks put together again

A style sheet is written rule by rule, so its chunks make up its canonical text. A list of
declarations is written with semicolons between them. They belong to no child, and no chunk holds
them.
-/

namespace Stylesheet

namespace Canonical

theorem items_cons_cons (p q : Piece) (ps : List Piece) :
    items (p :: q :: ps) =
      p.2 ++ (if p.1 = .declaration then ";" else "") ++ items (q :: ps) := rfl

theorem plain_cons (p : Piece) (ps : List Piece) : plain (p :: ps) = p.2 ++ plain ps := by
  rw [plain, plain, List.map_cons, String.join_cons]

/-- Items are written one after the other, with a semicolon for each declaration but the last
item. -/
theorem length_items (ps : List Piece) :
    (items ps).length = (plain ps).length + ps.dropLast.countP fun p => p.1 = .declaration := by
  induction ps with
  | nil => rfl
  | cons p ps ih =>
    cases ps with
    | nil => simp [items, plain, String.join_cons]
    | cons q ps =>
      have semicolon : (if p.1 = NodeKind.declaration then ";" else "").length =
          if p.1 = NodeKind.declaration then 1 else 0 := by
        split <;> rfl
      rw [items_cons_cons, plain_cons, String.length_append, String.length_append,
        String.length_append, ih, semicolon, List.dropLast_cons_cons, List.countP_cons]
      simp only [decide_eq_true_eq]
      omega

theorem items_eq_plain {ps : List Piece} (h : ∀ p ∈ ps.dropLast, p.1 ≠ .declaration) :
    items ps = plain ps := by
  induction ps with
  | nil => rfl
  | cons p ps ih =>
    cases ps with
    | nil => simp [items, plain, String.join_cons]
    | cons q ps =>
      rw [List.dropLast_cons_cons, List.forall_mem_cons] at h
      rw [items_cons_cons, if_neg h.1, ih h.2, String.append_empty, plain_cons p]

/-- Where a declaration is followed by something the semicolon makes the difference. -/
theorem plain_eq_items_iff {ps : List Piece} :
    plain ps = items ps ↔ ∀ p ∈ ps.dropLast, p.1 ≠ .declaration := by
  constructor
  · intro same p hp declaration
    have none : ps.dropLast.countP (fun p => p.1 = .declaration) = 0 := by
      have length := length_items ps
      rw [← same] at length
      omega
    exact List.countP_eq_zero.mp none p hp (decide_eq_true declaration)
  · exact fun h => (items_eq_plain h).symm

end Canonical

namespace Node

variable {α : Type}

/-- The children of a node as they are written. -/
def pieces (n : Node α) : List Canonical.Piece := n.children.map fun c => (c.kind, c.canonical)

theorem plain_pieces (n : Node α) : Canonical.plain n.pieces = canonicalAll n.children := by
  rw [Canonical.plain, pieces, List.map_map]
  rfl

theorem padCustom_kind (n : Node α) : n.padCustom.kind = n.kind := by
  obtain ⟨kind, detail, note, children⟩ := n
  rw [padCustom]

/-- A list of declarations is written item by item. -/
theorem canonical_declarationList (note : α) (children : List (Node α)) :
    (Node.mk .declarationList .none note children).canonical =
      Canonical.items (Node.mk .declarationList .none note children).pieces := by
  have written : (padCustomAll children).map (fun n => (n.kind, n.generate)) =
      children.map fun n => (n.kind, n.canonical) := by
    rw [padCustomAll_eq_map, List.map_map]
    refine List.map_congr_left fun n _ => ?_
    rw [Function.comp_apply, padCustom_kind, canonical_eq]
  rw [canonical_eq, padCustom, generate, generateAll_eq_map]
  exact congrArg Canonical.items written

/-- The contents of the chunks of a tree one after the other. -/
def rejoined (limits : ChunkOptions) (root : Node Mark) : String :=
  String.join ((root.chunks limits).map (·.content))

/-- Where what the children say is all there is to say, the chunks say it as well. -/
theorem rejoined_eq (limits : ChunkOptions) {root : Node Mark}
    (childless : root.children = [] → root.canonical = "") :
    root.rejoined limits = canonicalAll root.children := by
  rw [rejoined, join_chunks]
  by_cases h : root.children = []
  · rw [units_of_childless h, canonicalAll_singleton, childless h, h]
    rfl
  · rw [units_of_children h]

end Node

namespace Document

variable (text : String) (spans : Bool) (limits : ChunkOptions)

theorem rejoined_styleSheet :
    (treeOf spans .stylesheet (tokenize text)).value.rejoined limits =
      (treeOf spans .stylesheet (tokenize text)).value.canonical := by
  have written := canonical_treeOf text spans
  rw [written]
  refine Node.rejoined_eq limits fun childless => ?_
  rw [written, childless]
  rfl

theorem canonical_treeOf_declarationList :
    (treeOf spans .declarationList (tokenize text)).value.canonical =
      Canonical.items (treeOf spans .declarationList (tokenize text)).value.pieces := by
  rw [treeOf_eq]
  exact Node.canonical_declarationList _ _

theorem rejoined_declarationList :
    (treeOf spans .declarationList (tokenize text)).value.rejoined limits =
      Canonical.plain (treeOf spans .declarationList (tokenize text)).value.pieces := by
  rw [Node.plain_pieces]
  refine Node.rejoined_eq limits fun childless => ?_
  rw [canonical_treeOf_declarationList, Node.pieces, childless]
  rfl

end Document

open Document in
/-- The chunks of a style sheet make up its canonical text. Those of a list of declarations make up
its items with nothing between them, and that is the canonical text exactly if no declaration is
followed by anything. -/
theorem chunks_rejoin (text : String) (limits : ChunkOptions) (options : ParseOptions)
    (clock : Clock) :
    (∀ d, parse text options clock = .ok d ∨ parseAs text .stylesheet options clock = .ok d →
      d.root.rejoined limits = d.root.canonical) ∧
    ∀ d, parseAs text .declarationList options clock = .ok d →
      d.root.rejoined limits = Canonical.plain d.root.pieces ∧
        d.root.canonical = Canonical.items d.root.pieces ∧
        (d.root.rejoined limits = d.root.canonical ↔
          ∀ n ∈ d.root.children.dropLast, n.kind ≠ .declaration) := by
  constructor
  · intro d read
    have root : d.root = (treeOf options.captureSpans .stylesheet (tokenize text)).value := by
      obtain read | read := read
      · exact parse_root read
      · exact parseAs_root read
    rw [root]
    exact rejoined_styleSheet text _ limits
  · intro d read
    rw [parseAs_root read]
    have rejoined := rejoined_declarationList text options.captureSpans limits
    have written := canonical_treeOf_declarationList text options.captureSpans
    refine ⟨rejoined, written, ?_⟩
    rw [rejoined, written, Canonical.plain_eq_items_iff, Node.pieces, ← List.map_dropLast,
      List.forall_mem_map]

open Document in
/-- Two rules, one of them a chunk by itself, and two declarations. -/
theorem chunks_rejoin_pair :
    ∃ d e, parse "a\x7bb:c\x7dd\x7b\x7d" {} = .ok d ∧
      d.root.rejoined { maxNodes := 3 } = d.root.canonical ∧
      parseAs "a:b;c:d" .declarationList {} = .ok e ∧
      e.root.rejoined { maxNodes := 3 } = Canonical.plain e.root.pieces := by
  obtain ⟨d, readd⟩ := exists_parse "a\x7bb:c\x7dd\x7b\x7d" {} {}
  obtain ⟨e, reade⟩ := exists_parseAs "a:b;c:d" .declarationList {} {}
  exact ⟨d, e, readd, (chunks_rejoin _ { maxNodes := 3 } {} {}).1 d (.inl readd), reade,
    ((chunks_rejoin _ { maxNodes := 3 } {} {}).2 e reade).1⟩

open Document in
/-- Without its semicolon one of two declarations is lost. -/
theorem chunks_not_rejoin :
    ¬∀ (text : String) (limits : ChunkOptions) (options : ParseOptions) (d : Document),
      parseAs text .declarationList options = .ok d →
        d.root.rejoined limits = d.root.canonical := by
  intro rejoins
  obtain ⟨d, read⟩ := exists_parseAs "color:red;top:0" .declarationList {} {}
  have same := rejoins _ {} {} d read
  rw [parseAs_root read] at same
  exact absurd same (by decide +kernel)

end Stylesheet
