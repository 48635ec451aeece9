import Stylesheet.Patch
import Stylesheet.Proofs.Numbering
import Stylesheet.Proofs.Placement.Document

/-!
# Resolving edits

Every node of a text that was read for a patch has a place in it. An edit therefore resolves if its
target is the number of a node, and otherwise fails in one of two ways.
-/

namespace Stylesheet

/-- The edit names a node. -/
def Edit.Targets (root : Node Mark) (e : Edit) : Prop :=
  e.target ≠ 0 ∧ ∃ n ∈ root.nodes, n.note.id = e.target

instance (root : Node Mark) (e : Edit) : Decidable (e.Targets root) :=
  inferInstanceAs (Decidable (_ ∧ _))

/-- Either all edits name nodes, or there is a first one that does not. -/
theorem Edit.forall_targets_or_first (root : Node Mark) (edits : List Edit) :
    (∀ e ∈ edits, e.Targets root) ∨ ∃ front e back, edits = front ++ e :: back ∧
      (∀ x ∈ front, x.Targets root) ∧ ¬ e.Targets root := by
  cases found : edits.find? fun e => ¬ e.Targets root with
  | none => exact .inl (by simpa using found)
  | some e =>
    obtain ⟨bad, front, back, split, before⟩ := List.find?_eq_some_iff_append.mp found
    exact .inr ⟨front, e, back, split, by simpa using before, by simpa using bad⟩

/-- What becomes of the text at a span: it is given up, or it gives way to new text, or new text is put
in at its start or at its end. -/
inductive Edit.Means (span : Span) : Edit → Replacement → Prop
  | remove (target : Nat) : Means span (.remove target) ⟨target, span, ""⟩
  | replace (target : Nat) (css : String) : Means span (.replace target css) ⟨target, span, css⟩
  | insertBefore (target : Nat) (css : String) :
    Means span (.insertBefore target css) ⟨target, ⟨span.start, span.start⟩, css⟩
  | insertAfter (target : Nat) (css : String) :
    Means span (.insertAfter target css) ⟨target, ⟨span.stop, span.stop⟩, css⟩

/-- An edit says one thing about a span. -/
theorem Edit.means_iff {span : Span} {e : Edit} {r : Replacement} :
    e.Means span r ↔ r = ⟨e.target, e.range span, e.css⟩ := by
  constructor
  · rintro (_ | _ | _ | _) <;> rfl
  · rintro rfl
    cases e with
    | remove target => exact .remove target
    | replace target css => exact .replace target css
    | insertBefore target css => exact .insertBefore target css
    | insertAfter target css => exact .insertAfter target css

/-- What the edit says about the span of the node that it names. -/
def Edit.Resolves (root : Node Mark) (e : Edit) (r : Replacement) : Prop :=
  ∃ n ∈ root.nodes, n.note.id = e.target ∧ ∃ span, n.note.span = some span ∧ e.Means span r

/-- What is wrong with a target that is no node's number. -/
def Edit.targetFault (e : Edit) : EditFault :=
  if e.target = 0 then .invalidTarget else .nodeNotFound

theorem Edit.range_liesIn {text : String} {span : Span} (h : span.LiesIn text) (e : Edit) :
    (e.range span).LiesIn text := by
  cases e with
  | remove target => exact h
  | replace target css => exact h
  | insertBefore target css => exact ⟨Nat.le_refl _, h.edge_start, h.edge_start⟩
  | insertAfter target css => exact ⟨Nat.le_refl _, h.edge_stop, h.edge_stop⟩

/-- The document is what a text is read as for a patch. -/
structure Document.IsReadFrom (text : String) (d : Document) : Prop where
  parsed : parse text { captureSpans := true } = .ok d
  read : readPlaces text = .ok d
  nested : ∀ n ∈ d.root.nodes, n.Nested text
  /-- No two nodes share a number. -/
  distinct : d.root.size < UInt32.size →
    ∀ m ∈ d.root.nodes, ∀ n ∈ d.root.nodes, m.note.id = n.note.id → m = n

/-- Every text can be read for a patch. -/
theorem Document.exists_isReadFrom (text : String) : ∃ d, Document.IsReadFrom text d := by
  obtain ⟨d, parsed⟩ := exists_parse text { captureSpans := true } {}
  have root := parse_root parsed
  have places : readPlaces text = .ok d := by rw [readPlaces, parsed]
  refine ⟨d, parsed, places, ?_, ?_⟩
  · rw [root]
    exact Document.treeOf_nested text .stylesheet
  · rw [root]
    intro small m hm n hn
    exact Document.treeOf_injOn small hm hn

namespace Node

variable {n : Node Mark} {id : Nat}

theorem indexed?_eq_some {m : Node Mark} (h : n.indexed? id = some m) :
    m ∈ n.nodes ∧ m.note.id = id := by
  refine ⟨List.mem_reverse.mp (List.mem_of_find?_eq_some h), ?_⟩
  have found := List.find?_some h
  exact of_decide_eq_true found

theorem indexed?_eq_none_iff : n.indexed? id = none ↔ ∀ m ∈ n.nodes, m.note.id ≠ id := by
  simp [indexed?]

end Node

namespace Replacement

section

variable {text : String} {root : Node Mark} {e : Edit}

/-- An edit of a node resolves to a range that can be cut out of the text. -/
theorem exists_resolve (nested : ∀ n ∈ root.nodes, n.Nested text) (h : e.Targets root) :
    ∃ r, resolve root e = .ok r ∧ e.Resolves root r ∧ r.range.LiesIn text := by
  obtain ⟨valid, n, hn, hid⟩ := h
  cases found : root.indexed? e.target with
  | none => exact absurd hid (Node.indexed?_eq_none_iff.mp found n hn)
  | some m =>
    obtain ⟨hm, hmid⟩ := Node.indexed?_eq_some found
    obtain ⟨provenance, span, hspan, -, lies, -, -⟩ := nested m hm
    refine ⟨⟨e.target, e.range span, e.css⟩, ?_, ⟨m, hm, hmid, span, hspan, Edit.means_iff.mpr rfl⟩,
      Edit.range_liesIn lies e⟩
    simp [resolve, valid, found, provenance, hspan]

theorem resolve_eq_error (h : ¬ e.Targets root) :
    resolve root e = .error (.planning e.targetFault e.target) := by
  by_cases valid : e.target = 0
  · simp [resolve, Edit.targetFault, valid]
  · have missing : root.indexed? e.target = none := by
      rw [Node.indexed?_eq_none_iff]
      intro m hm hid
      exact h ⟨valid, m, hm, hid⟩
    simp [resolve, Edit.targetFault, valid, missing]

/-- In a document that is not too large an edit says one thing only. -/
theorem resolves_rightUnique {d : Document} (read : d.IsReadFrom text)
    (small : d.root.size < UInt32.size) : Relator.RightUnique (Edit.Resolves d.root) := by
  rintro e r r' ⟨m, hm, hmid, span, hspan, means⟩ ⟨n, hn, hnid, span', hspan', means'⟩
  obtain rfl := read.distinct small m hm n hn (hmid.trans hnid.symm)
  obtain rfl : span = span' := Option.some.inj (hspan.symm.trans hspan')
  rw [Edit.means_iff.mp means, Edit.means_iff.mp means']

theorem resolve_eq_ok {r : Replacement} (nested : ∀ n ∈ root.nodes, n.Nested text)
    (h : resolve root e = .ok r) : e.Targets root ∧ e.Resolves root r ∧ r.range.LiesIn text := by
  by_cases targets : e.Targets root
  · obtain ⟨r', hr', resolves, lies⟩ := exists_resolve nested targets
    obtain rfl : r' = r := Except.ok.inj (hr'.symm.trans h)
    exact ⟨targets, resolves, lies⟩
  · rw [resolve_eq_error targets] at h
    cases h

end

end Replacement

end Stylesheet
