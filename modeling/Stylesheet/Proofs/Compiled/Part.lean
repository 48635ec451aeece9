import Stylesheet.Proofs.Concat.Scan
import Stylesheet.Proofs.Inherited
import Stylesheet.Proofs.Regular.Document
import Stylesheet.Proofs.Spelt
import Stylesheet.Selector

/-!
# Parts of selectors are named

Compiling a selector refuses simple selectors without a name, attribute selectors with an operator
that is none, and combinators that are none. No text is read as such a part: tokens hold characters,
a hash holds some after its mark, and an operator is read only if some matcher is written so.
-/

namespace Stylesheet

/-! ### Tokens hold characters -/

namespace Token

/-- The characters of a token; a hash has more than its mark. -/
structure Filled (kind : Kind) (text : String) : Prop where
  nonempty : text ≠ ""
  marked : kind = .hash → text.toList.tail ≠ []

/-- Where an identifier starts, and at the characters that may follow the mark of a hash, a name has
a character. -/
theorem name_pos {d : Char} {cs : List Char}
    (h : startsIdent (d :: cs) = true ∨ d.isDigit = true ∨ d = '-') : 0 < (name (d :: cs)).1 := by
  rw [name]
  split
  · rename_i backslash
    split
    · rename_i ends
      obtain h | h | h := h
      · subst backslash
        rw [startsIdent, ends] at h
        cases h
      · subst backslash
        exact absurd h (by decide)
      · exact absurd (backslash.symm.trans h) (by decide)
    · dsimp only
      omega
  · rename_i backslash
    have continues : isNameChar d = true := by
      obtain h | h | rfl := h
      · unfold startsIdent at h
        split at h
        · rename_i heq
          exact absurd (List.cons.inj heq).1 backslash
        · rename_i heq
          obtain ⟨rfl, -⟩ := List.cons.inj heq
          rfl
        · rename_i heq
          obtain ⟨rfl, -⟩ := List.cons.inj heq
          simp [isNameChar, h]
        · cases h
      · simp [isNameChar, h]
      · rfl
    rw [if_pos continues]
    dsimp only
    omega

theorem scan_filled (c : Char) (cs : List Char) :
    Filled (Lexeme.scan c cs).kind (String.ofList (c :: cs.take (Lexeme.scan c cs).more)) := by
  refine ⟨by simp, fun hash => ?_⟩
  obtain ⟨rest, spelt⟩ := (Spelt.scan c cs).hash hash
  obtain rfl : c = '#' := by
    rw [String.toList_ofList] at spelt
    exact (List.cons.inj spelt).1
  rw [String.toList_ofList, List.tail_cons]
  cases cs with
  | nil => cases hash
  | cons d cs =>
    rw [Lexeme.scan_hash] at hash ⊢
    split at hash
    · rename_i starts
      rw [if_pos starts]
      have pos : 0 < (name (d :: cs)).1 := name_pos starts
      rw [ne_eq, List.take_eq_nil_iff, not_or]
      exact ⟨Nat.ne_of_gt pos, List.cons_ne_nil _ _⟩
    · cases hash

/-- The tokens of a text hold characters. -/
theorem tokenize_filled (source : String) :
    ∀ t ∈ (tokenize source).tokens, Filled t.kind t.text := by
  refine forall_tokenize scan_filled (fun k c h => ?_) source
  cases k <;> simp only [Kind.closing, Option.some.injEq, reduceCtorEq] at h <;> subst h <;>
    exact ⟨by decide, by rintro ⟨⟩⟩

end Token

/-! ### Named parts -/

/-- Tells whether some matcher is written as an operator. -/
def Matcher.IsOperator (op : String) : Prop := ∃ m : Matcher, m.operator = op

/-- A part of a selector is what a text may say: simple selectors have names, what an attribute is
compared by is an operator, and a combinator is one of those that are written. -/
def Node.IsNamed {α : Type} (n : Node α) : Prop :=
  match n.kind with
  | .typeSelector | .idSelector | .classSelector => ∃ name, n.detail = .name name ∧ name ≠ ""
  | .attributeSelector => ∃ name op value flags,
      n.detail = .attr name op value flags ∧ name ≠ "" ∧ ∀ o ∈ op, Matcher.IsOperator o
  | .combinator => ∃ name, n.detail = .name name ∧ name ∈ [" ", ">", "+", "~", "||"]
  | _ => True

namespace Grammar

open Located Scope

variable {limit : Nat} {s rest after : Scope} {t last colon : Token} {ts : List Token} {p : Simple}
variable {n : Located} {ns : List Located}

/-- All tokens hold characters. -/
def Filled (ts : List Token) : Prop := ∀ t ∈ ts, Token.Filled t.kind t.text

theorem Filled.of_isPart (h : Filled s.tokens) (part : rest.IsPart s) : Filled rest.tokens :=
  fun t ht => h t (part.subset ht)

theorem Filled.significant (h : Filled ts) : Filled (Token.significant ts) :=
  fun t ht => h t (significant_subset ts ht)

theorem sourceText_ne {t : Token} (ts : List Token) (h : t.text ≠ "") :
    Token.sourceText (t :: ts) ≠ "" := by
  have front : Token.pieces (t :: ts) = t.text :: (Token.pieces (t :: ts)).tail := by
    cases ts <;> rfl
  rw [Token.sourceText, front, String.join_cons]
  exact fun none => h (String.append_eq_empty_iff.mp none).1

/-- A simple selector that has a name, or an argument that is still to be read. -/
inductive Simple.IsNamed : Simple → Prop
  | node {n : Located} (named : n.IsNamed) : IsNamed (.node n)
  | functional {kind : NodeKind} {name : String} {span : Span} {argument : Scope}
    (pseudo : kind = .pseudoClassSelector ∨ kind = .pseudoElementSelector) :
    IsNamed (.functional kind name span argument)

theorem typeSelector_isNamed (rest : Scope) (h : t.text ≠ "") :
    (Simple.node (typeSelector t rest).1).IsNamed := by
  have plain : (leaf .typeSelector (.name t.text) t.span).IsNamed := ⟨t.text, rfl, h⟩
  unfold typeSelector
  dsimp only
  split
  · split
    · exact .node ⟨_, rfl, sourceText_ne _ h⟩
    · exact .node plain
  · exact .node plain

theorem attributeName_ne {close : Nat} {name : String} {more : List Token} (h : Filled ts)
    (read : attributeName close ts = .ok (name, more)) : name ≠ "" := by
  unfold attributeName at read
  split at read
  · cases read
  · rename_i t more tokens
    have first : t.text ≠ "" := (h.significant t (tokens ▸ List.mem_cons_self)).nonempty
    split at read
    · cases read
    · split at read
      · split at read
        · cases read
          exact sourceText_ne _ first
        · cases read
          exact first
      · cases read
        exact first

theorem attributeMatcher_isOperator {op : Token} {matcher : String} {more : List Token}
    (read : attributeMatcher op ts = .ok (matcher, more)) : Matcher.IsOperator matcher := by
  unfold attributeMatcher at read
  split at read
  · cases read
    exact ⟨.equals, rfl⟩
  · rename_i c _ _
    split at read
    · split at read
      · rename_i written
        cases read
        rw [Bool.and_eq_true, List.contains_iff_mem] at written
        have marks : c = '~' ∨ c = '|' ∨ c = '^' ∨ c = '$' ∨ c = '*' := by simpa using written.1
        obtain rfl | rfl | rfl | rfl | rfl := marks
        exacts [⟨.includes, rfl⟩, ⟨.dashMatch, rfl⟩, ⟨.startsWith, rfl⟩, ⟨.endsWith, rfl⟩,
          ⟨.contains, rfl⟩]
      · cases read
    · cases read
  · cases read

theorem attributeTest_isNamed {close : Nat} {detail : Detail} {span : Span} (h : Filled ts)
    (read : attributeTest close ts = .ok detail) :
    (leaf .attributeSelector detail span).IsNamed := by
  unfold attributeTest at read
  obtain ⟨⟨name, more⟩, named, read⟩ := bind_eq_ok_iff.mp read
  have nonempty := attributeName_ne h named
  dsimp only at read
  split at read
  · cases read
    exact ⟨name, none, none, none, rfl, nonempty, by rintro _ ⟨⟩⟩
  · obtain ⟨⟨matcher, more⟩, compares, read⟩ := bind_eq_ok_iff.mp read
    obtain ⟨⟨value, more⟩, -, read⟩ := bind_eq_ok_iff.mp read
    have operator := attributeMatcher_isOperator compares
    dsimp only at read
    split at read
    · cases read
      exact ⟨name, some matcher, some value, _, rfl, nonempty, by rintro _ ⟨⟩; exact operator⟩
    · cases read

theorem attributeSelector_isNamed (h : Filled rest.tokens)
    (read : attributeSelector limit t rest = .ok (p, after)) : p.IsNamed := by
  unfold attributeSelector at read
  dsimp only at read
  split at read
  · cases read
  · obtain ⟨detail, test, read⟩ := bind_eq_ok_iff.mp read
    cases read
    exact .node (attributeTest_isNamed (h.of_isPart (enter_inner_isPart t rest)) test)

theorem pseudoNamed_isNamed {kind : NodeKind}
    (pseudo : kind = .pseudoClassSelector ∨ kind = .pseudoElementSelector)
    (read : pseudoNamed limit kind colon s = .ok (p, after)) : p.IsNamed := by
  unfold pseudoNamed at read
  split at read
  · cases read
  · split at read
    · cases read
      obtain rfl | rfl := pseudo <;> exact .node trivial
    · dsimp only at read
      split at read
      · cases read
      · cases read
        exact .functional pseudo
    · cases read

theorem pseudoSelector_isNamed (read : pseudoSelector limit t rest = .ok (p, after)) :
    p.IsNamed := by
  unfold pseudoSelector at read
  split at read
  · split at read
    · exact pseudoNamed_isNamed (.inr rfl) read
    · exact pseudoNamed_isNamed (.inl rfl) read
  · exact pseudoNamed_isNamed (.inl rfl) read

theorem classSelector_isNamed (h : Filled rest.tokens)
    (read : classSelector t rest = .ok (p, after)) : p.IsNamed := by
  unfold classSelector at read
  split at read
  · cases read
  · rename_i name ts tokens
    split at read
    · cases read
      exact .node ⟨_, rfl, (h name (tokens ▸ List.mem_cons_self)).nonempty⟩
    · cases read

/-- Every simple selector has a name, or stands for itself. -/
theorem simpleSelector_isNamed (h : Filled (t :: rest.tokens))
    (read : simpleSelector limit t rest = .ok (p, after)) : p.IsNamed := by
  obtain ⟨first, later⟩ := List.forall_mem_cons.mp h
  have named (read : Except.ok (ε := SyntaxError)
      (Simple.node (typeSelector t rest).1, (typeSelector t rest).2) = .ok (p, after)) :
      p.IsNamed := by
    cases read
    exact typeSelector_isNamed rest first.nonempty
  unfold simpleSelector at read
  split at read
  · exact named read
  · rename_i hash
    cases read
    refine .node ⟨_, rfl, fun none => first.marked hash ?_⟩
    simpa using none
  · exact attributeSelector_isNamed later read
  · exact pseudoSelector_isNamed read
  · split at read
    · exact named read
    · cases read
      exact .node trivial
    · exact classSelector_isNamed later read
    · cases read
  · cases read

theorem finish_isNamed (named : p.IsNamed) (h : p.finish limit = .ok n) : n.IsNamed := by
  cases named with
  | node named =>
    cases h
    exact named
  | functional pseudo =>
    have kind := finish_kind h
    rw [Node.IsNamed, kind]
    obtain rfl | rfl := pseudo <;> trivial

/-! ### Lists of selectors -/

theorem explicitCombinator_isNamed {name : String} {span : Span}
    (h : explicitCombinator t rest = some (name, last, after)) :
    (leaf .combinator (.name name) span).IsNamed := by
  have written : name ∈ [" ", ">", "+", "~", "||"] := by
    unfold explicitCombinator at h
    split at h
    · cases h
      decide
    · cases h
      decide
    · cases h
      decide
    · split at h
      · split at h
        · cases h
          decide
        · cases h
      · cases h
    · cases h
  exact ⟨name, rfl, written⟩

theorem descendant_isNamed (kind : Option NodeKind) (space : Option Token) :
    ∀ n ∈ descendant kind space, n.IsNamed := by
  unfold descendant
  split
  · split
    · rintro _ ⟨⟩
    · exact List.forall_mem_singleton.mpr ⟨" ", rfl, List.mem_cons_self⟩
  · rintro _ ⟨⟩

/-- Selectors that are read off tokens of a text have named parts. -/
theorem selectors_named (filled : Filled s.tokens) (h : selectors limit s = .ok ns) :
    ∀ n ∈ ns, ∀ c ∈ n.children, c.IsNamed := by
  intro n hn
  refine ((selectors_forall (S := fun s => Filled s.tokens) (P := Node.IsNamed) limit ?part
    ?descendant ?combinator ?simple).1 s filled ns h n hn).2.2
  case part => exact fun part filled => filled.of_isPart part
  case descendant => exact descendant_isNamed
  case combinator => exact fun _ found => explicitCombinator_isNamed found
  case simple =>
    exact fun filled read made _ => finish_isNamed (simpleSelector_isNamed filled read) made

end Grammar

/-! ### Texts -/

namespace Node

variable {α β : Type} (f : α → β)

theorem isNamed_map (n : Node α) : (n.map f).IsNamed ↔ n.IsNamed := by
  simp only [IsNamed, map_kind, map_detail]

/-- The children are selectors, and their parts are named. -/
def HoldsSelectors (n : Node α) : Prop :=
  ∀ c ∈ n.children, c.kind = .selector ∧ ∀ p ∈ c.children, p.IsNamed

theorem holdsSelectors_map (n : Node α) : (n.map f).HoldsSelectors ↔ n.HoldsSelectors := by
  simp only [HoldsSelectors, map_children, List.forall_mem_map, map_kind, isNamed_map]

end Node

/-- A text is read as selectors whose parts are named, and if there is no error as at least one. -/
theorem Document.treeOf_holdsSelectors (spans : Bool) (source : String) :
    let tree := treeOf spans .selectorList (tokenize source)
    tree.value.HoldsSelectors ∧ (tree.errors = [] → tree.value.children ≠ []) := by
  have filled : Grammar.Filled (Grammar.wholeScope (tokenize source)).trim.tokens :=
    Grammar.Filled.of_isPart (s := Grammar.wholeScope (tokenize source))
      (Token.tokenize_filled source) (Scope.trim_isPart _)
  have shape : (treeOf spans .selectorList (tokenize source)).value.strip =
      (Grammar.readScope .selectorList (tokenize source)).value.strip :=
    treeOf_sameShape spans .selectorList (tokenize source)
  have errors : (treeOf spans .selectorList (tokenize source)).errors = [] →
      (Grammar.readScope .selectorList (tokenize source)).errors = [] := by
    rw [treeOf_eq, Parsed.map_errors]
    exact fun none => (List.append_eq_nil_iff.mp none).2
  suffices held : (Grammar.readScope .selectorList (tokenize source)).value.HoldsSelectors ∧
      ((Grammar.readScope .selectorList (tokenize source)).errors = [] →
        (Grammar.readScope .selectorList (tokenize source)).value.children ≠ []) by
    obtain ⟨selectors, some⟩ := held
    refine ⟨?_, fun none childless => some (errors none) ?_⟩
    · rw [← Node.holdsSelectors_map fun _ => (), ← Node.strip, ← shape] at selectors
      exact (Node.holdsSelectors_map _ _).mp selectors
    · have same := congrArg Node.children shape
      simp only [Node.strip, Node.map_children, childless, List.map_nil] at same
      exact List.map_eq_nil_iff.mp same.symm
  unfold Grammar.readScope
  dsimp only
  cases read : Grammar.selectorList (Grammar.wholeScope (tokenize source)).stop
      (Grammar.wholeScope (tokenize source)).trim with
  | error e => exact ⟨by rintro _ ⟨⟩, fun none => absurd none (List.cons_ne_nil _ _)⟩
  | ok n =>
    obtain ⟨items, hi, read⟩ := bind_eq_ok_iff.mp read
    cases read
    obtain ⟨nonempty, kinds⟩ := Grammar.selectors_regular_all.1 _ items hi
    have named := Grammar.selectors_named filled hi
    exact ⟨fun c hc => ⟨(kinds c hc).1, named c hc⟩, fun _ => nonempty⟩

end Stylesheet
