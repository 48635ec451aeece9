import Stylesheet.Proofs.Document
import Stylesheet.Proofs.Placement.Rule
import Stylesheet.Proofs.Tokenize

/-!
# Spans nest

Whatever a text is read as, its tree is placed in it, and numbering the nodes keeps every span,
since all of them fit. So each node of a document knows where it was read, children lie inside their
parents, and siblings follow one another.
-/

namespace Stylesheet

namespace Grammar

open Located Scope

variable {source : String} {s : Scope}

theorem noMore_value (item : Parsed Located × Scope) : (noMore item).value = item.1.value := rfl

theorem rawRest_placed (fault : Fault) (h : s.LiesIn source) :
    Placed source (rawRest fault s).1.value :=
  placed_raw ((trim_isPart s).liesIn h)

theorem qualifiedRule_placed (h : s.LiesIn source) : Placed source (qualifiedRule s).1.value := by
  unfold qualifiedRule
  dsimp only
  split
  · rename_i b hb
    obtain ⟨cut, -, -⟩ := item_block h hb
    have items := items_placed_all.2.2 true b.inner b.stop cut.inner cut.ends
    have placed := styleRule_placedIn false s.stop h h.endsBy_stop hb
      items placedIn_nil
    exact (placedIn_cons.mp placed).2.2.1
  · exact placed_raw ((trim_isPart s).liesIn h)

theorem singleAtRule_placed {t : Token} {rest : Scope}
    (h : LiesIn source ⟨t :: rest.tokens, rest.next⟩) :
    Placed source (singleAtRule t rest).1.value :=
  (items_placed_all.1 false t rest h).placed

theorem oneAtRule_placed (h : s.LiesIn source) : Placed source (oneAtRule s).value := by
  have lies := (trimStart_isPart s).liesIn h
  unfold oneAtRule
  dsimp only
  rw [noMore_value]
  generalize s.trimStart = s at lies
  split
  · rename_i t ts ht
    obtain ⟨tokens, next⟩ := s
    obtain rfl : tokens = t :: ts := ht
    split
    · exact singleAtRule_placed lies
    · exact rawRest_placed _ lies
  · exact rawRest_placed _ lies

theorem oneRule_placed (h : s.LiesIn source) : Placed source (oneRule s).value := by
  have lies := (trimStart_isPart s).liesIn h
  unfold oneRule
  dsimp only
  rw [noMore_value]
  generalize s.trimStart = s at lies
  split
  · rename_i t ts ht
    obtain ⟨tokens, next⟩ := s
    obtain rfl : tokens = t :: ts := ht
    split
    · exact singleAtRule_placed lies
    · exact qualifiedRule_placed lies
  · exact rawRest_placed _ lies

theorem oneDeclaration_placed (h : s.LiesIn source) : Placed source (oneDeclaration s).value := by
  have lies := (item_prelude_isPart (· = .semicolon) s.trim).liesIn ((trim_isPart s).liesIn h)
  exact (declaration_placed lies).1

/-- Whatever the tokens of a text are read as, the tree is placed in the text. -/
theorem readScope_placed (context : Context) {list : TokenList}
    (h : Token.Run source 0 list.tokens list.size) :
    Placed source (readScope context list).value := by
  have lies : (wholeScope list).LiesIn source := by
    have hstart : (wholeScope list).start = 0 := h.startOf_eq
    rw [LiesIn, hstart]
    exact h
  have trimmed := (trim_isPart (wholeScope list)).liesIn lies
  have whole : (wholeSpan list).LiesIn source := ⟨Nat.zero_le _, h.edge_left, h.edge_right⟩
  have children (ns : List Located) (kind : NodeKind)
      (placed : PlacedIn source (wholeScope list).start list.size ns) :
      Placed source ⟨kind, .none, wholeSpan list, ns⟩ :=
    placed_iff.mpr ⟨whole, placed.mono (Nat.zero_le _) (Nat.le_refl _)⟩
  have items := items_placed_all.2.2 false (wholeScope list) list.size lies lies.endsBy_next
  unfold readScope
  cases context with
  | stylesheet =>
    exact children _ _
      (items_placed_all.2.1 true false false (wholeScope list) list.size lies lies.endsBy_next)
  | atrule => exact oneAtRule_placed lies
  | rule => exact oneRule_placed lies
  | atrulePrelude => exact sequenceNode_placed _ trimmed
  | mediaQueryList => exact mediaQueryList_placed trimmed
  | mediaQuery => exact sequenceNode_placed _ trimmed
  | condition => exact sequenceNode_placed _ trimmed
  | selectorList => exact (orRaw_placed trimmed fun n hn => selectorList_placed hn trimmed).1
  | selector =>
    dsimp only
    split
    · exact placed_raw trimmed
    · exact (orRaw_placed trimmed fun n hn => selector_placed hn trimmed).1
  | block => exact children _ _ items
  | declarationList => exact children _ _ items
  | declaration => exact oneDeclaration_placed lies
  | value => exact sequenceNode_placed _ trimmed

end Grammar

/-! ### Numbered trees -/

/-- The node was read from a stretch of the text that can be cut out; its children were read from
inside that stretch, one after the other. -/
def Node.Nested (text : String) (n : Node Mark) : Prop :=
  n.note.provenance = .input ∧
    ∃ span, n.note.span = some span ∧ span.fits text.utf8ByteSize ∧ span.LiesIn text ∧
      (∀ c ∈ n.children, ∃ inner, c.note.span = some inner ∧ span.contains inner) ∧
      n.children.Pairwise fun a b =>
        ∀ s t, a.note.span = some s → b.note.span = some t → s.stop ≤ t.start

namespace Node

open Located

variable {text : String}

theorem fits_of_liesIn {span : Span} (h : span.LiesIn text) :
    span.fits text.utf8ByteSize = true :=
  Span.fits_iff.mpr ⟨h.le, h.edge_stop.le_utf8ByteSize⟩

theorem ofPlace_some {span : Span} (h : span.LiesIn text) (id : Nat) :
    Mark.ofPlace text.utf8ByteSize id (some span) = ⟨id, .input, some span⟩ := by
  simp [Mark.ofPlace, fits_of_liesIn h]

mutual

theorem numberFrom_nested : ∀ (n : Located) (next : Nat), Placed text n →
    ((n.map some).numberFrom text.utf8ByteSize next).1.note = ⟨next, .input, some n.note⟩ ∧
      ∀ m ∈ ((n.map some).numberFrom text.utf8ByteSize next).1.nodes, m.Nested text
  | ⟨kind, detail, span, children⟩, next, h => by
    obtain ⟨lies, placed⟩ := placed_iff.mp h
    obtain ⟨bounds, order, nested⟩ := numberAllFrom_nested children (Mark.nextId next) _ _ placed
    have hnote := ofPlace_some lies next
    rw [map, numberFrom]
    refine ⟨hnote, ?_⟩
    intro m hm
    obtain rfl | ⟨c, hc, hm⟩ := mem_nodes_iff.mp hm
    · refine ⟨congrArg Mark.provenance hnote, span, congrArg Mark.span hnote, fits_of_liesIn lies,
        lies, ?_, order⟩
      intro c hc
      obtain ⟨inner, hi, hlo, hhi⟩ := bounds c hc
      exact ⟨inner, hi, by simp [Span.contains, hlo, hhi]⟩
    · exact nested c hc m hm

theorem numberAllFrom_nested : ∀ (ns : List Located) (next lo hi : Nat), PlacedIn text lo hi ns →
    (∀ m ∈ (numberAllFrom text.utf8ByteSize next (mapAll some ns)).1,
      ∃ span, m.note.span = some span ∧ lo ≤ span.start ∧ span.stop ≤ hi) ∧
    (numberAllFrom text.utf8ByteSize next (mapAll some ns)).1.Pairwise (fun a b =>
      ∀ s t, a.note.span = some s → b.note.span = some t → s.stop ≤ t.start) ∧
    ∀ m ∈ (numberAllFrom text.utf8ByteSize next (mapAll some ns)).1, ∀ x ∈ m.nodes,
      x.Nested text
  | [], _, _, _, _ => by simp [mapAll, numberAllFrom]
  | n :: ns, next, lo, hi, h => by
    obtain ⟨hlo, hhi, hn, hns⟩ := placedIn_cons.mp h
    obtain ⟨note, nested⟩ := numberFrom_nested n next hn
    obtain ⟨bounds, order, rest⟩ := numberAllFrom_nested ns
      ((n.map some).numberFrom text.utf8ByteSize next).2 _ _ hns
    have hle := hn.liesIn.le
    rw [mapAll, numberAllFrom]
    refine ⟨?_, List.pairwise_cons.mpr ⟨?_, order⟩, ?_⟩
    · intro m hm
      obtain rfl | hm := List.mem_cons.mp hm
      · exact ⟨n.note, congrArg Mark.span note, hlo, hhi⟩
      · obtain ⟨span, hs, hstart, hstop⟩ := bounds m hm
        exact ⟨span, hs, by omega, hstop⟩
    · intro m hm s t hs ht
      obtain ⟨span, hspan, hstart, -⟩ := bounds m hm
      rw [congrArg Mark.span note] at hs
      cases hs
      rw [hspan] at ht
      cases ht
      exact hstart
    · intro m hm x hx
      obtain rfl | hm := List.mem_cons.mp hm
      · exact nested x hx
      · exact rest m hm x hx

end

end Node

/-- Every node of the tree of a text is nested in the text. -/
theorem Document.treeOf_nested (text : String) (context : Context) :
    ∀ n ∈ (treeOf true context (tokenize text)).value.nodes, n.Nested text := by
  obtain ⟨run, size⟩ := tokenize_run text
  have placed := Grammar.readScope_placed context run
  rw [treeOf_eq, size]
  exact (Node.numberFrom_nested _ 1 placed).2

/-- Read as any part of a style sheet, a text without limits always has a tree, and every tree that
is read with spans nests: each node was read from the text, at a place that can be cut out of it and
that lies inside its parent's, and siblings follow one another. -/
theorem parseAs_nested (text : String) (context : Context) (options : ParseOptions)
    (clock : Clock) :
    (∃ d, parseAs text context { options with captureSpans := true, budgets := {} } clock =
        .ok d) ∧
      ∀ d, parseAs text context { options with captureSpans := true } clock = .ok d →
        ∀ n ∈ d.root.nodes, n.Nested text := by
  constructor
  · exact exists_parseAs text context { options with captureSpans := true } clock
  · intro d h
    rw [parseAs_root h]
    exact Document.treeOf_nested text context

end Stylesheet
