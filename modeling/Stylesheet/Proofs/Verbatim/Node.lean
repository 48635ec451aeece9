import Stylesheet.Proofs.Canonical
import Stylesheet.Proofs.Placement.Node
import Stylesheet.Proofs.Spelt

/-!
# What nodes are read from

Many nodes hold the very text that they were read from, or all of it but the marks that their kind
implies. `Node.Spells` says so for one node and a text, and a tree is verbatim in a source if each of
its nodes spells what stands at its place there. The value of a custom property is the exception: if
it is blank it holds no text, although blanks may stand at its place.

Places come from tokens, and so does the text that a node holds. Where some adjacent tokens stand,
their source text does.
-/

namespace Stylesheet

namespace Token

/-! ### Tokens with a mark -/

/-- The tokens that start with a mark, or are nothing else. -/
structure Marked (kind : Kind) (text : String) : Prop where
  atKeyword : kind = .atKeyword → ∃ rest, text.toList = '@' :: rest
  colon : kind = .colon → text.toList = [':']
  delim : kind = .delim → ∃ c, text.toList = [c]

namespace Marked

/-- A token of another kind. -/
theorem other {kind : Kind} {text : String}
    (h : kind ≠ .atKeyword ∧ kind ≠ .colon ∧ kind ≠ .delim) : Marked kind text :=
  ⟨fun hk => absurd hk h.1, fun hk => absurd hk h.2.1, fun hk => absurd hk h.2.2⟩

theorem numeric (cs : List Char) (text : String) : Marked (Lexeme.numeric cs).kind text := by
  unfold Lexeme.numeric
  dsimp only
  split
  · exact other ⟨by rintro ⟨⟩, by rintro ⟨⟩, by rintro ⟨⟩⟩
  · split <;> exact other ⟨by rintro ⟨⟩, by rintro ⟨⟩, by rintro ⟨⟩⟩

theorem string (quote : Char) (cs : List Char) (text : String) :
    Marked (Lexeme.string quote cs).kind text := by
  unfold Lexeme.string
  split <;> exact other ⟨by rintro ⟨⟩, by rintro ⟨⟩, by rintro ⟨⟩⟩

theorem url (opening : Nat) (cs : List Char) (text : String) :
    Marked (Lexeme.url opening cs).kind text := by
  unfold Lexeme.url
  dsimp only
  split
  · exact other ⟨by rintro ⟨⟩, by rintro ⟨⟩, by rintro ⟨⟩⟩
  · exact other ⟨by rintro ⟨⟩, by rintro ⟨⟩, by rintro ⟨⟩⟩
  · split <;> exact other ⟨by rintro ⟨⟩, by rintro ⟨⟩, by rintro ⟨⟩⟩

theorem identLike (cs : List Char) (text : String) : Marked (Lexeme.identLike cs).kind text := by
  unfold Lexeme.identLike
  dsimp only
  split
  · split
    · exact url _ _ _
    · exact other ⟨by rintro ⟨⟩, by rintro ⟨⟩, by rintro ⟨⟩⟩
  · exact other ⟨by rintro ⟨⟩, by rintro ⟨⟩, by rintro ⟨⟩⟩

/-- A delimiter is a single character. -/
theorem single (c : Char) (cs : List Char) :
    Marked .delim (String.ofList (c :: cs.take 0)) :=
  ⟨by rintro ⟨⟩, by rintro ⟨⟩, fun _ => ⟨c, String.toList_ofList⟩⟩

theorem scan (c : Char) (cs : List Char) :
    Marked (Lexeme.scan c cs).kind (String.ofList (c :: cs.take (Lexeme.scan c cs).more)) := by
  unfold Lexeme.scan
  split
  · exact other ⟨by rintro ⟨⟩, by rintro ⟨⟩, by rintro ⟨⟩⟩
  · split
    · exact numeric _ _
    · split
      case h_1 => exact string _ _ _
      case h_2 => exact string _ _ _
      case h_3 =>
        split
        · exact other ⟨by rintro ⟨⟩, by rintro ⟨⟩, by rintro ⟨⟩⟩
        · exact single _ _
      case h_11 => exact ⟨by rintro ⟨⟩, fun _ => String.toList_ofList, by rintro ⟨⟩⟩
      case h_16 =>
        split
        · exact ⟨fun _ => ⟨_, String.toList_ofList⟩, by rintro ⟨⟩, by rintro ⟨⟩⟩
        · exact single _ _
      case h_17 =>
        split
        · exact identLike _ _
        · exact single _ _
      all_goals exact other ⟨by rintro ⟨⟩, by rintro ⟨⟩, by rintro ⟨⟩⟩

end Marked

/-- The tokens of a text have the marks of their kinds. -/
theorem tokenize_marked (source : String) :
    ∀ t ∈ (tokenize source).tokens, Marked t.kind t.text := by
  refine forall_tokenize Marked.scan (fun k c h => Marked.other ?_) source
  cases k <;> simp only [Kind.closing, Option.some.injEq, reduceCtorEq] at h <;> subst h <;>
    exact ⟨by rintro ⟨⟩, by rintro ⟨⟩, by rintro ⟨⟩⟩

end Token

/-! ### Scopes in a text -/

namespace Scope

open Token

variable {source : String} {s p : Scope} {t : Token} {ts us : List Token} {next : Nat}

/-- A scope lies in a text, and its tokens are spelt as their kinds say. -/
structure Legible (source : String) (s : Scope) : Prop where
  lies : s.LiesIn source
  spelt : ∀ t ∈ s.tokens, Spelt t.kind t.text
  marked : ∀ t ∈ s.tokens, Marked t.kind t.text

theorem Legible.part (h : s.Legible source) (part : p.IsPart s) : p.Legible source :=
  ⟨part.liesIn h.lies, fun t ht => h.spelt t (part.subset ht),
    fun t ht => h.marked t (part.subset ht)⟩

theorem Legible.tail (h : Legible source ⟨t :: ts, next⟩) : Legible source ⟨ts, next⟩ :=
  h.part isPart_tail

/-- The source text of the first tokens stands between the start of the first and the end of the
last of them. -/
theorem LiesIn.slice?_front (ts : List Token) (h : LiesIn source ⟨ts ++ t :: us, next⟩) :
    Text.slice? source (startOf ts t.start) t.stop = some (sourceText (ts ++ [t])) := by
  have split : ts ++ t :: us = (ts ++ [t]) ++ us := by simp
  rw [LiesIn, split] at h
  obtain ⟨m, front, -⟩ := Run.append_iff.mp h
  obtain ⟨stands, stop⟩ := front.stands_sourceText
  have start : Scope.start ⟨(ts ++ [t]) ++ us, next⟩ = startOf ts t.start := by
    cases ts <;> rfl
  have slice := stands.slice?
  rwa [stop, start, String.ofList_toList] at slice

/-- The text of a scope stands where the scope does. -/
theorem LiesIn.slice? (h : s.LiesIn source) : Text.slice? source s.start s.stop = some s.text := by
  obtain ⟨tokens, next⟩ := s
  obtain rfl | ⟨front, last, rfl⟩ := List.eq_nil_or_concat tokens
  · exact (Text.stands_nil_iff.mpr h.edge_start).slice?
  · rw [List.concat_eq_append] at h ⊢
    have slice := h.slice?_front front
    have start : Scope.start ⟨front ++ [last], next⟩ = startOf front last.start := by
      cases front <;> rfl
    have stop : Scope.stop ⟨front ++ [last], next⟩ = last.stop := by simp [Scope.stop]
    rwa [start, stop]

theorem LiesIn.slice?_head (h : LiesIn source ⟨t :: ts, next⟩) :
    Text.slice? source t.start t.stop = some t.text := by
  have slice := h.slice?_front []
  rwa [List.nil_append, sourceText, pieces, String.join_cons, String.join_nil,
    String.append_empty] at slice

/-- A token that opens no block leaves nothing out. -/
theorem LiesIn.omitted (h : LiesIn source ⟨t :: ts, next⟩) (hk : t.kind.opensBlock = false) :
    t.omitted = "" := by
  obtain ⟨-, -, gap, -⟩ := Run.cons_iff.mp h
  by_cases none_left : t.omitted = ""
  · exact none_left
  · rw [gap none_left] at hk
    cases hk

/-- The text of a token that opens no block comes right before that of the tokens behind it. -/
theorem LiesIn.sourceText_cons {u : Token} (h : LiesIn source ⟨t :: ts, next⟩)
    (hk : t.kind.opensBlock = false) (us : List Token) :
    sourceText (t :: u :: us) = t.text ++ sourceText (u :: us) := by
  rw [sourceText, pieces, h.omitted hk, String.join_cons, String.join_cons, String.empty_append]
  · rfl
  · rintro ⟨⟩

/-- A block in front of a scope has the source text of its tokens. -/
theorem LiesIn.slice?_enter (h : LiesIn source ⟨t :: s.tokens, s.next⟩) :
    Text.slice? source t.start (s.enter t).stop = some (sourceText (s.enter t).tokens) := by
  cases hc : (s.enter t).closer with
  | none =>
    obtain ⟨inner, -⟩ := enter_unclosed t s hc
    have tokens : (s.enter t).tokens = t :: s.tokens := by
      simp [Block.tokens, inner, hc]
    have stop : (s.enter t).stop = Scope.stop ⟨t :: s.tokens, s.next⟩ := by
      simp [Block.stop, hc, inner]
    rw [tokens, stop]
    exact h.slice?
  | some c =>
    obtain ⟨split, -, -⟩ := enter_closer t s hc
    have tokens : (s.enter t).tokens = (t :: (s.enter t).inner.tokens) ++ [c] := by
      simp [Block.tokens, hc]
    have stop : (s.enter t).stop = c.stop := by simp [Block.stop, hc]
    rw [tokens, stop]
    rw [split, ← List.cons_append] at h
    exact h.slice?_front (t :: (s.enter t).inner.tokens)

end Scope

/-! ### Nodes -/

namespace Node

variable {α β : Type}

mutual

/-- The children of the nodes of a tree are nodes of the tree. -/
theorem child_mem_nodes : ∀ root : Node α, ∀ n ∈ root.nodes, ∀ c ∈ n.children, c ∈ root.nodes
  | ⟨kind, detail, note, children⟩ => by
    intro n hn c hc
    refine mem_nodes_iff.mpr (.inr ?_)
    obtain rfl | ⟨m, hm, hn⟩ := mem_nodes_iff.mp hn
    · exact ⟨c, hc, mem_nodes_iff.mpr (.inl rfl)⟩
    · exact ⟨m, hm, child_mem_nodesAll children m hm n hn c hc⟩

theorem child_mem_nodesAll : ∀ roots : List (Node α), ∀ root ∈ roots, ∀ n ∈ root.nodes,
    ∀ c ∈ n.children, c ∈ root.nodes
  | [] => by
    rintro _ ⟨⟩
  | root :: roots =>
    List.forall_mem_cons.mpr ⟨child_mem_nodes root, child_mem_nodesAll roots⟩

end

/-- The node spells `own`: it holds that text, but for the marks that its kind implies. `custom` says
whether the node is the value of a custom property, which may hold less. -/
def Spells (custom : Bool) (n : Node α) (own : String) : Prop :=
  match n.kind with
  | .identifier | .typeSelector => n.detail = .name own
  | .combinator => n.detail = .name " " ∨ n.detail = .name own ∧ own ∈ [">", "+", "~", "||"]
  | .number | .operator => n.detail = .value own
  | .raw => ∃ value, n.detail = .value value ∧ (custom = false → value = own)
  | .percentage => ∃ value, n.detail = .value value ∧ own = value ++ "%"
  | .dimension => ∃ value unit, n.detail = .dimension value unit ∧ own = value ++ unit
  | .hash => ∃ value, n.detail = .value value ∧ own = "#" ++ value
  | .idSelector => ∃ name, n.detail = .name name ∧ own = "#" ++ name
  | .classSelector => ∃ name, n.detail = .name name ∧ own = "." ++ name
  | .pseudoClassSelector => ∃ name, n.detail = .name name ∧ (n.children = [] → own = ":" ++ name)
  | .pseudoElementSelector =>
    ∃ name, n.detail = .name name ∧ (n.children = [] → own = "::" ++ name)
  | .nestingSelector => own = "&"
  | .atrule => ∃ name rest, n.detail = .name name ∧ own = "@" ++ name ++ rest
  | .declaration =>
    ∃ property important rest, n.detail = .declaration property important ∧ own = property ++ rest
  | _ => True

theorem spells_map (f : α → β) (n : Node α) (custom : Bool) (own : String) :
    (n.map f).Spells custom own ↔ n.Spells custom own := by
  obtain ⟨kind, detail, note, children⟩ := n
  have childless : mapAll f children = [] ↔ children = [] := by
    rw [mapAll_eq_map, List.map_eq_nil_iff]
  cases kind <;> simp only [map, Spells, childless]

end Node

namespace Located

variable {source : String} {custom : Bool} {n : Located} {kind : NodeKind} {detail : Detail}
variable {span : Span} {own : String}

/-- The node spells what stands at its place. -/
def ReadsAt (source : String) (custom : Bool) (n : Located) : Prop :=
  ∀ own, Text.slice? source n.note.start n.note.stop = some own → n.Spells custom own

/-- All nodes of the tree spell what stands at their places. -/
def Verbatim (source : String) (custom : Bool) (n : Located) : Prop :=
  ReadsAt source custom n ∧
    ∀ m ∈ n.nodes, ∀ c ∈ m.children, ReadsAt source m.detail.declaresCustom c

theorem verbatim_iff : Verbatim source custom n ↔
    ReadsAt source custom n ∧ ∀ c ∈ n.children, Verbatim source n.detail.declaresCustom c := by
  simp only [Verbatim, Node.mem_nodes_iff (n := n), forall_eq_or_imp]
  constructor
  · rintro ⟨here, first, later⟩
    refine ⟨here, fun c hc => ⟨first c hc, fun m hm => later m ⟨c, hc, hm⟩⟩⟩
  · rintro ⟨here, below⟩
    refine ⟨here, fun c hc => (below c hc).1, ?_⟩
    rintro m ⟨c, hc, hm⟩
    exact (below c hc).2 m hm

theorem readsAt_of_slice? (slice : Text.slice? source n.note.start n.note.stop = some own)
    (spells : n.Spells custom own) : ReadsAt source custom n := by
  intro own' h
  obtain rfl : own = own' := Option.some.inj (slice.symm.trans h)
  exact spells

/-- A node without children. -/
theorem verbatim_leaf (h : ReadsAt source custom (leaf kind detail span)) :
    Verbatim source custom (leaf kind detail span) :=
  verbatim_iff.mpr ⟨h, by rintro _ ⟨⟩⟩

/-- A node that holds other nodes, of which none is the value of a custom property. -/
theorem verbatim_node {ns : List Located}
    (h : ReadsAt source custom ⟨kind, detail, span, ns⟩)
    (ordinary : detail.declaresCustom = false) (inner : ∀ c ∈ ns, Verbatim source false c) :
    Verbatim source custom ⟨kind, detail, span, ns⟩ :=
  verbatim_iff.mpr ⟨h, fun c hc => ordinary ▸ inner c hc⟩

/-- Text that is kept as it is. -/
theorem verbatim_raw {s : Scope} (h : s.LiesIn source) : Verbatim source custom (raw s) :=
  verbatim_leaf (readsAt_of_slice? h.slice? ⟨s.text, rfl, fun _ => rfl⟩)

end Located

end Stylesheet
