import Stylesheet.Proofs.Inherited
import Stylesheet.Proofs.Nesting.WellFormed
import Stylesheet.Proofs.Verbatim.Document

/-!
# Declarations and their tokens

Every declaration of a text was read off tokens that follow one another in it, and no block that is
closed sticks out of them. They are the tokens that lie within the span of the declaration: its
property, white space and comments, a colon, and the value.
-/

namespace Stylesheet

open Token

/-- The tokens that lie within a span. -/
def TokenList.within (list : TokenList) (span : Span) : List Token :=
  list.tokens.filter fun t => span.contains t.span

/-- The tokens that lie within a span, from the first colon on. -/
def TokenList.fromColon (list : TokenList) (span : Span) : List Token :=
  (list.within span).dropWhile fun t => t.kind ≠ .colon

namespace Grammar

open Located Scope

variable {text : String} {whole s : Scope}

/-! ### Tokens within a span -/

/-- The tokens within the span of a part of a text are those of the part. -/
theorem within_span (part : s.IsPart (wholeScope (tokenize text))) :
    (tokenize text).within s.span = s.tokens := by
  have lies := (wholeScope_legible text).lies
  have filled := TokenList.text_ne_empty text
  have own := part.liesIn lies
  obtain ⟨front, back, split, next⟩ := part
  change (tokenize text).tokens = _ at split
  have wide : ∀ t ∈ (tokenize text).tokens, t.start < t.stop := fun t ht =>
    Nat.lt_add_of_pos_right (Nat.pos_of_ne_zero fun none =>
      filled t ht (String.utf8ByteSize_eq_zero_iff.mp none))
  change Run text _ (tokenize text).tokens _ at lies
  rw [split] at lies wide
  obtain ⟨m, left, right⟩ := Run.append_iff.mp lies
  obtain ⟨m', middle, right⟩ := Run.append_iff.mp right
  have stop : s.next = m' := next.trans right.startOf_eq
  have start : s.start = m := by
    rw [Scope.start, stop]
    exact middle.startOf_eq
  have before : front.filter (fun t => s.span.contains t.span) = [] := by
    refine List.filter_eq_nil_iff.mpr fun t ht inside => ?_
    rw [Span.contains, Bool.and_eq_true, decide_eq_true_eq, decide_eq_true_eq] at inside
    have := wide t (List.mem_append_left _ ht)
    have := (left.mem ht).2.1
    have := t.stop_le_reach
    have : s.start ≤ t.start := inside.1
    omega
  have after : back.filter (fun t => s.span.contains t.span) = [] := by
    refine List.filter_eq_nil_iff.mpr fun t ht inside => ?_
    rw [Span.contains, Bool.and_eq_true, decide_eq_true_eq, decide_eq_true_eq] at inside
    have := wide t (List.mem_append_right _ (List.mem_append_right _ ht))
    have := (right.mem ht).1
    have := own.stop_le_next
    have : t.stop ≤ s.stop := inside.2
    omega
  have inside : s.tokens.filter (fun t => s.span.contains t.span) = s.tokens := by
    refine List.filter_eq_self.mpr fun t ht => ?_
    rw [Span.contains, Bool.and_eq_true, decide_eq_true_eq, decide_eq_true_eq]
    exact ⟨own.start_le ht, own.endsBy_stop t ht⟩
  rw [TokenList.within, split, List.filter_append, List.filter_append, before, after, inside,
    List.append_nil, List.nil_append]

/-! ### Declarations -/

/-- A part of a scope out of which no block sticks that is closed. -/
structure Piece (whole s : Scope) : Prop where
  part : s.IsPart whole
  matched : Matched s.tokens

theorem inherits_piece (whole : Scope) : Inherits (Piece whole) where
  tail plain h := ⟨isPart_tail.trans h.part, h.matched.of_leaf plain⟩
  trim h := ⟨(trim_isPart _).trans h.part, matched_trim h.matched⟩
  prelude {f s} h := by
    refine ⟨(item_prelude_isPart f s).trans h.part, ?_⟩
    rw [Item.take_prelude]
    exact (matched_cut h.matched).1
  inner hb h := ⟨(item_inner_isPart hb).trans h.part, (item_blockEnds h.matched hb).inner⟩
  after hf h := ⟨(item_after_isPart _ _).trans h.part, item_after_matched hf h.matched⟩

/-- If the node is a declaration, it was read off a piece of the scope. -/
def IsDeclared (whole : Scope) (n : Located) : Prop :=
  n.kind = .declaration → ∃ s, Piece whole s ∧ n = (declaration s).value

theorem covers_declared (whole : Scope) : Covers (Piece whole) (IsDeclared whole) where
  toInherits := inherits_piece whole
  ofDeclaration h _ := ⟨_, h, rfl⟩
  ofRule _ _ := nofun
  other plain _ declares := absurd declares plain

/-- How a scope is read as a declaration: a property, a colon, and a value of what follows. -/
structure Declares (s : Scope) (property colon : Token) (after : List Token) : Prop where
  tokens : ∃ gap, s.trim.tokens = property :: (gap ++ colon :: after) ∧
    ∀ t ∈ gap, t.kind.isTrivia = true
  ident : property.kind = .ident
  separator : colon.kind = .colon
  read : ∃ child, (declaration s).value = ⟨.declaration,
      .declaration property.text (splitImportant (trim ⟨after, s.trim.next⟩)).2, s.trim.span,
      [child]⟩ ∧
    (isCustomProperty property.text = true →
      child = customValue colon after (splitImportant (trim ⟨after, s.trim.next⟩)).1)

/-- Reading a scope answers with a declaration only if a property and a colon start it. -/
theorem exists_declares (kind : (declaration s).value.kind = .declaration) :
    ∃ property colon after, Declares s property colon after := by
  unfold declaration at kind
  dsimp only at kind
  split at kind
  · cases kind
  · rename_i t ts ht
    split at kind
    · cases kind
    · rename_i ident
      split at kind
      · cases kind
      · rename_i colon after hc
        split at kind
        · cases kind
        · rename_i separator
          refine ⟨t, colon, after, ⟨⟨ts.takeWhile fun t => t.kind.isTrivia, ?_, ?_⟩,
            not_not.mp ident, not_not.mp separator, ?_⟩⟩
          · rw [ht, ← hc, significant_append]
          · exact fun u hu => List.mem_takeWhile_imp (p := fun t : Token => t.kind.isTrivia) hu
          · unfold declaration
            simp only [ht, ident, hc, separator, if_false]
            refine ⟨_, rfl, fun custom => ?_⟩
            rw [if_pos custom]

/-- The colon is the first one of the declaration. -/
theorem Declares.dropWhile_eq {property colon : Token} {after : List Token}
    (h : Declares s property colon after) :
    (s.trim.tokens.dropWhile fun t => t.kind ≠ .colon) = colon :: after := by
  obtain ⟨gap, tokens, trivia⟩ := h.tokens
  have before : ∀ t ∈ property :: gap, decide (t.kind ≠ .colon) = true := by
    refine List.forall_mem_cons.mpr ⟨by rw [h.ident]; rfl, fun t ht => decide_eq_true ?_⟩
    intro kind
    have := trivia t ht
    rw [kind] at this
    cases this
  rw [tokens, ← List.cons_append, List.dropWhile_append_of_pos before]
  exact List.dropWhile_cons_of_neg (by rw [h.separator]; decide)

end Grammar

/-! ### Numbered trees -/

open Grammar Node

/-- The node stands where a piece of the text was read as a declaration. -/
structure Node.DeclaredBy (text : String) (n : Node Mark) (s : Scope) (property colon : Token)
    (after : List Token) : Prop where
  piece : Piece (wholeScope (tokenize text)) s
  declares : Declares s property colon after
  read : n.map Mark.span = (declaration s).value.map some

/-- So does every declaration of a text. -/
theorem Document.treeOf_declares (text : String) (context : Context) {n : Node Mark}
    (hn : n ∈ (treeOf true context (tokenize text)).value.nodes) (kind : n.kind = .declaration) :
    ∃ s property colon after, n.DeclaredBy text s property colon after := by
  have found : n.map Mark.span ∈ ((readScope context (tokenize text)).value.map some).nodes := by
    rw [← treeOf_spans, nodes_map]
    exact List.mem_map_of_mem hn
  rw [nodes_map] at found
  obtain ⟨m, hm, same⟩ := List.mem_map.mp found
  have kind' : m.kind = .declaration := by
    have := congrArg Node.kind same
    rwa [map_kind, map_kind, kind] at this
  have whole : Piece (wholeScope (tokenize text)) (wholeScope (tokenize text)) :=
    ⟨.refl _, tokenize_matched text⟩
  obtain ⟨s, piece, rfl⟩ := (covers_declared _).nodes_readScope context whole m hm kind'
  obtain ⟨property, colon, after, declares⟩ := exists_declares kind'
  exact ⟨s, property, colon, after, piece, declares, same.symm⟩

namespace Node.DeclaredBy

variable {text : String} {n : Node Mark} {s : Scope} {property colon : Token} {after : List Token}

theorem span (h : n.DeclaredBy text s property colon after) : n.note.span = some s.trim.span := by
  obtain ⟨child, read, -⟩ := h.declares.read
  have note := congrArg Node.note h.read
  rwa [read, map_note, map_note] at note

theorem detail (h : n.DeclaredBy text s property colon after) :
    n.detail = .declaration property.text
      (splitImportant (Scope.trim ⟨after, s.trim.next⟩)).2 := by
  obtain ⟨child, read, -⟩ := h.declares.read
  have detail := congrArg Node.detail h.read
  rwa [read, map_detail, map_detail] at detail

/-- The tokens of the declaration from its colon on. -/
theorem fromColon (h : n.DeclaredBy text s property colon after) :
    (tokenize text).fromColon s.trim.span = colon :: after := by
  rw [TokenList.fromColon, within_span ((Scope.trim_isPart s).trans h.piece.part)]
  exact h.declares.dropWhile_eq

end Node.DeclaredBy

end Stylesheet
