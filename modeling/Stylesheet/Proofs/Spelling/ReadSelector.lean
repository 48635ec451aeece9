import Stylesheet.Proofs.Spelling.Selector

/-!
# Reading plain selectors

The selectors that are read from the tokens of a list of plain selectors are those of the list. Each
step reads one simple selector or one combinator from the front of a scope; what the step finds does
not depend on what follows, except that a type selector takes in a namespace if it can.
-/

namespace Stylesheet

namespace Plain

open Token (Word Forest Firm)

open Grammar

/-- The parts of a selector that are read, up to their notes. -/
def parts (limit : Nat) (last : Option NodeKind) (space : Option Token) (s : Scope) :
    SelectorResult (List (Node Unit)) :=
  (selectorParts limit last space s).map shapes

section

variable {limit : Nat} {last : Option NodeKind} {gap : Option Token} {t : Token} {ts : List Token}
variable {next : Nat}

theorem parts_nil : parts limit last gap ⟨[], next⟩ = .ok [] := by
  rw [parts, selectorParts]
  rfl

/-- White space between two parts is kept in mind until the next one is read. -/
theorem parts_space {kind : NodeKind} (hk : t.kind = .whiteSpace) :
    parts limit (some kind) none ⟨t :: ts, next⟩ =
      parts limit (some kind) (some t) ⟨ts, next⟩ := by
  rw [parts, selectorParts_space hk]
  rfl

theorem parts_combinator {name : String} {final : Token} {after : Scope}
    (hk : t.kind.isTrivia = false)
    (found : explicitCombinator t ⟨ts, next⟩ = some (name, final, after)) :
    parts limit last gap ⟨t :: ts, next⟩ =
      (parts limit (some .combinator) none after).map
        (Plain.node .combinator (.name name) [] :: ·) := by
  rw [Token.Kind.isTrivia, Bool.or_eq_false_iff, decide_eq_false_iff_not,
    decide_eq_false_iff_not] at hk
  rw [parts, selectorParts_combinator hk.1 hk.2 found, parts]
  cases selectorParts limit (some .combinator) none after with
  | error e => rfl
  | ok ns => rfl

theorem parts_simple {p : Grammar.Simple} {after : Scope} {n : Node Unit}
    (hk : t.kind.isTrivia = false) (none : explicitCombinator t ⟨ts, next⟩ = none)
    (found : simpleSelector limit t ⟨ts, next⟩ = .ok (p, after))
    (made : (p.finish limit).map Node.strip = .ok n) :
    parts limit last gap ⟨t :: ts, next⟩ =
      (parts limit (some n.kind) Option.none after).map
        (shapes (descendant last gap) ++ n :: ·) := by
  rw [Token.Kind.isTrivia, Bool.or_eq_false_iff, decide_eq_false_iff_not,
    decide_eq_false_iff_not] at hk
  rw [parts, selectorParts_simple hk.1 hk.2 none, found, parts]
  cases finish : p.finish limit with
  | error e =>
    rw [finish] at made
    cases made
  | ok m =>
    rw [finish] at made
    obtain rfl : m.strip = n := Except.ok.inj made
    have kind : m.strip.kind = m.kind := Node.map_kind _ m
    simp only [bind, Except.bind, kind, finish]
    cases selectorParts limit (some m.kind) Option.none after with
    | error e => rfl
    | ok ns => simp [Except.map, shapes]

theorem parts_leaf {kind : NodeKind} {detail : Detail} {after : Scope}
    (hk : t.kind.isTrivia = false) (none : explicitCombinator t ⟨ts, next⟩ = none)
    (found : ∃ span, simpleSelector limit t ⟨ts, next⟩ =
      .ok (.node (Located.leaf kind detail span), after)) :
    parts limit last gap ⟨t :: ts, next⟩ =
      (parts limit (some kind) Option.none after).map
        (shapes (descendant last gap) ++ Plain.node kind detail [] :: ·) := by
  obtain ⟨span, found⟩ := found
  exact parts_simple hk none found rfl

end

/-! ### Type selectors -/

/-- Tells whether some tokens make a namespace of the name before them. -/
def qualifies (ts : List Token) : Bool :=
  ts.head?.any (·.isDelim '|') &&
    ts.tail.head?.any fun t => t.kind = .ident || t.isDelim '*'

section

variable {limit : Nat} {t bar name : Token} {s : Scope} {ts : List Token} {c d : Char}
variable {o next : Nat}

theorem typeSelector_plain (h : qualifies s.tokens = false) :
    typeSelector t s = (Located.leaf .typeSelector (.name t.text) t.span, s) := by
  rw [typeSelector]
  split
  · rename_i bar name more hs
    rw [hs] at h
    rw [if_neg (by simpa [qualifies] using h)]
  · rfl

theorem typeSelector_qualified (hb : bar.isDelim '|' = true)
    (hn : (name.kind = .ident || name.isDelim '*') = true) :
    typeSelector t ⟨bar :: name :: ts, next⟩ =
      (Located.leaf .typeSelector (.name (Token.sourceText [t, bar, name])) ⟨t.start, name.stop⟩,
        ⟨ts, next⟩) := by
  simp only [typeSelector, hb, hn, Bool.and_self, ↓reduceIte]

theorem kind_of_delim? (h : t.delim? = some c) : t.kind = .delim := by
  rw [Token.delim?] at h
  by_contra other
  rw [if_neg other] at h
  cases h

theorem explicitCombinator_of_kind (h : t.kind ≠ .delim) : explicitCombinator t s = none := by
  rw [explicitCombinator, Token.delim?, if_neg h]

theorem explicitCombinator_of_delim (h : t.delim? = some c) (hc : c ∉ ['>', '+', '~', '|']) :
    explicitCombinator t s = none := by
  simp only [List.mem_cons, List.not_mem_nil, or_false, not_or] at hc
  unfold explicitCombinator
  split <;> rename_i found
  · exact absurd (Option.some.inj (h.symm.trans found)) hc.1
  · exact absurd (Option.some.inj (h.symm.trans found)) hc.2.1
  · exact absurd (Option.some.inj (h.symm.trans found)) hc.2.2.1
  · exact absurd (Option.some.inj (h.symm.trans found)) hc.2.2.2
  · rfl

theorem delim?_single : ((Word.single .delim c).token o).delim? = some c := by
  simp [Token.delim?, Word.single]

theorem isDelim_single : ((Word.single .delim c).token o).isDelim d = decide (c = d) := by
  simp [Token.isDelim, delim?_single]

/-- The source of a name and its namespace. -/
theorem sourceText_qualified {w v : Word} {p q : Nat} :
    Token.sourceText [w.token o, (Word.single .delim '|').token p, v.token q] =
      String.ofList w.text ++ "|" ++ String.ofList v.text := by
  rw [← String.toList_inj, Token.sourceText, String.toList_join]
  simp [Token.pieces, Word.single, Word.token]

theorem simpleSelector_type (h : t.kind = .ident ∨ t.delim? = some '*') :
    simpleSelector limit t s = .ok (.node (typeSelector t s).1, (typeSelector t s).2) := by
  obtain ident | star := h
  · simp only [simpleSelector, ident]
  · simp only [simpleSelector, kind_of_delim? star, star]

end

variable {limit : Nat} {last : Option NodeKind} {gap : Option Token} {ts : List Token}
variable {o next : Nat}

theorem TypeName.read (t : TypeName) (h : qualifies ts = false) :
    parts limit last gap ⟨t.forest.tokens o ++ ts, next⟩ =
      (parts limit (some .typeSelector) none ⟨ts, next⟩).map
        (shapes (descendant last gap) ++ Plain.node .typeSelector (.name t.text) [] :: ·) := by
  cases t with
  | universal =>
    refine parts_leaf rfl (explicitCombinator_of_delim delim?_single (by decide)) ?_
    rw [simpleSelector_type (.inr delim?_single), typeSelector_plain (by exact h)]
    exact ⟨_, rfl⟩
  | named n =>
    refine parts_leaf rfl (explicitCombinator_of_kind nofun) ?_
    rw [simpleSelector_type (.inl rfl), typeSelector_plain (by exact h)]
    exact ⟨_, rfl⟩
  | qualified space n =>
    refine parts_leaf rfl (explicitCombinator_of_kind nofun) ?_
    rw [simpleSelector_type (.inl rfl)]
    simp only [Name.before, delim, Forest.tokens, List.append_eq, List.cons_append,
      List.nil_append]
    rw [typeSelector_qualified isDelim_single rfl, sourceText_qualified]
    exact ⟨_, rfl⟩

/-! ### Combinators -/

theorem Joiner.qualifies (j : Joiner) : qualifies (j.forest.tokens o ++ ts) = false := by
  cases j with
  | descendant => rfl
  | child | next | subsequent | column =>
    simp [Joiner.forest, delim, Plain.qualifies, Forest.tokens, isDelim_single]

theorem Simple.qualifies (x : Simple) : qualifies (x.forest.tokens o ++ ts) = false := by
  cases x with
  | className | nesting =>
    simp [Simple.forest, delim, Plain.qualifies, Forest.tokens, isDelim_single]
  | id | attr | pseudoClass | pseudoElement | functional => rfl

theorem Simples.qualifies (h : qualifies ts = false) (xs : Simples) :
    Plain.qualifies (xs.forest.tokens o ++ ts) = false := by
  cases xs with
  | none => exact h
  | some first more =>
    rw [Simples.forest, Forest.tokens_append, List.append_assoc]
    exact first.qualifies

/-- A combinator goes before the parts that are read after it. -/
theorem Joiner.read (j : Joiner) {kind : NodeKind} (hk : kind ≠ .combinator) {x : Selector}
    (after : ∀ o last gap, parts limit last gap ⟨x.forest.tokens o, next⟩ =
      .ok (shapes (Grammar.descendant last gap) ++ x.nodes)) :
    parts limit (some kind) none ⟨(j.forest ++ x.forest).tokens o, next⟩ =
      .ok (j.node :: x.nodes) := by
  cases j with
  | descendant =>
    simp only [Joiner.forest, space, Forest.leaf_append, Forest.nil_append, Forest.tokens]
    rw [parts_space rfl, after, Grammar.descendant, if_neg (by simpa using hk)]
    rfl
  | child | next | subsequent =>
    simp only [Joiner.forest, delim, Forest.leaf_append, Forest.nil_append, Forest.tokens]
    rw [parts_combinator rfl (by rw [explicitCombinator, delim?_single]; rfl), after]
    rfl
  | column =>
    simp only [Joiner.forest, delim, Forest.leaf_append, Forest.nil_append, Forest.tokens]
    have found (p q : Nat) (ts : List Token) :
        explicitCombinator ((Word.single .delim '|').token p)
            ⟨(Word.single .delim '|').token q :: ts, next⟩ =
          some ("||", (Word.single .delim '|').token q, ⟨ts, next⟩) := by
      rw [explicitCombinator, delim?_single]
      exact if_pos isDelim_single
    rw [parts_combinator rfl (found _ _ _), after]
    rfl

/-! ### Attributes -/

theorem attributeName_plain {t : Token} {close : Nat} (hk : t.kind = .ident)
    (h : ¬(ts.head?.any (·.isDelim '|') && ts.tail.head?.any (·.kind = .ident)) = true) :
    attributeName close (t :: ts) = .ok (t.text, ts) := by
  have solid : Token.significant (t :: ts) = t :: ts :=
    List.dropWhile_cons_of_neg (by rw [hk]; exact Bool.false_ne_true)
  simp only [attributeName, solid, hk, ne_eq, not_true_eq_false, ↓reduceIte]
  split
  · rw [if_neg (by simpa using h)]
  · rfl

/-- A matcher is read from the front of any tokens, and none makes a namespace of the name before
it. -/
theorem attributeMatcher_read (m : Matcher) (o : Nat) (ts : List Token) :
    ∃ op more, (matcherForest m).tokens o ++ ts = op :: more ∧ op.kind = .delim ∧
      ¬(op.isDelim '|' && more.head?.any (·.kind = .ident)) = true ∧
      attributeMatcher op more = .ok (m.operator, ts) := by
  cases m with
  | equals =>
    refine ⟨_, _, rfl, rfl, ?_, ?_⟩
    · rw [isDelim_single]
      exact Bool.false_ne_true
    · rw [attributeMatcher, delim?_single]
      rfl
  | includes | dashMatch | startsWith | endsWith | contains =>
    refine ⟨_, _, rfl, rfl, ?_, ?_⟩
    · rw [isDelim_single]
      exact Bool.false_ne_true
    · simp only [attributeMatcher, delim?_single, delim, Forest.tokens, List.append_eq,
        List.cons_append, List.nil_append, isDelim_single]
      rfl

theorem Operand.read (v : Operand) (close : Nat) :
    attributeValue close (v.forest.tokens o ++ ts) = .ok (v.value, ts) := by
  cases v with
  | identifier n => rfl
  | string content => rfl

theorem attributeFlags_read (flag : Option Name) :
    attributeFlags ((flagForest flag).tokens o) = (flag.map Name.text, []) := by
  cases flag with
  | none => rfl
  | some n => rfl

theorem Test.read (t : Test) {name : Token} (hk : name.kind = .ident) (close : Nat) :
    attributeTest close (name :: t.forest.tokens o) =
      .ok (.attr name.text (some t.matcher.operator) (some t.operand.value)
        (t.flag.map Name.text)) := by
  obtain ⟨matcher, operand, flag⟩ := t
  rw [Test.forest, Forest.tokens_append, Forest.tokens_append]
  obtain ⟨op, more, front, kind, unqualified, read⟩ := attributeMatcher_read matcher o
    (operand.forest.tokens (o + (matcherForest matcher).width) ++
      (flagForest flag).tokens (o + (matcherForest matcher).width + operand.forest.width))
  have solid : Token.significant (op :: more) = op :: more :=
    List.dropWhile_cons_of_neg (by rw [kind]; exact Bool.false_ne_true)
  rw [front, attributeTest, attributeName_plain hk (by exact unqualified)]
  simp only [bind, Except.bind, solid, read, operand.read, attributeFlags_read]
  rfl

theorem Attribute.read_test (a : Attribute) (close : Nat) :
    attributeTest close
      ((a.name.before ((a.test.map Test.forest).getD .nil)).tokens o) = .ok a.detail := by
  obtain ⟨name, test⟩ := a
  cases test with
  | none => rfl
  | some t => exact t.read rfl close

/-! ### Simple selectors -/

theorem attributeSelector_closed {t c : Token} {us : List Token} {detail : Detail}
    (h : t.inside = some ts.length) (test : attributeTest c.start ts = .ok detail) :
    ∃ span, attributeSelector limit t ⟨ts ++ c :: us, next⟩ =
      .ok (.node (Located.leaf .attributeSelector detail span), ⟨us, next⟩) := by
  simp only [attributeSelector, Scope.enter_closed h, test, bind, Except.bind]
  exact ⟨_, rfl⟩

theorem pseudoSelector_closed {t : Token} (hk : t.kind = .function)
    (h : t.inside = some ts.length) (tight : Scope.Tight (ts.map Token.kind)) (limit next : Nat)
    (colon c : Token) (us : List Token) :
    ∃ span, pseudoSelector limit colon ⟨t :: (ts ++ c :: us), next⟩ =
      .ok (.functional .pseudoClassSelector (String.ofList t.text.toList.dropLast) span
        ⟨ts, c.start⟩, ⟨us, next⟩) := by
  refine ⟨⟨colon.start, c.stop⟩, ?_⟩
  simp only [pseudoSelector, pseudoNamed, hk, reduceCtorEq, ↓reduceIte, Scope.enter_closed h,
    Scope.trim_of_tight tight]

/-- A pseudo-class takes in the selectors that are read from its argument. -/
theorem finish_functional {name : String} {span : Span} {argument : Scope} {ns : List (Node Unit)}
    (takes : takesSelectors name = true) (nonempty : argument.tokens.isEmpty = false)
    (inside : (selectors limit argument).map shapes = .ok ns) :
    ((Grammar.Simple.functional .pseudoClassSelector name span argument).finish limit).map
        Node.strip =
      .ok (Plain.node .pseudoClassSelector (.name name) [Plain.node .selectorList .none ns]) := by
  cases items : selectors limit argument with
  | error e =>
    rw [items] at inside
    cases inside
  | ok ms =>
    rw [items] at inside
    obtain rfl : shapes ms = ns := Except.ok.inj inside
    simp only [Grammar.Simple.finish, argumentNode, takes, nonempty, decide_true, Bool.and_self,
      Bool.false_eq_true, ↓reduceIte, items, bind, Except.bind, Except.map, strip_mk, shapes,
      List.map_cons, List.map_nil]

theorem parts_functional {colon t c : Token} {us : List Token} {n : Name} {ns : List (Node Unit)}
    (hc : colon.kind = .colon) (hk : t.kind = .function)
    (text : t.text = String.ofList (n.chars ++ ['('])) (h : t.inside = some ts.length)
    (firm : Firm (ts.map Token.kind)) (takes : takesSelectors n.text = true)
    (inside : (selectors limit ⟨ts, c.start⟩).map shapes = .ok ns) :
    parts limit last gap ⟨colon :: t :: (ts ++ c :: us), next⟩ =
      (parts limit (some .pseudoClassSelector) none ⟨us, next⟩).map
        (shapes (descendant last gap) ++ Plain.node .pseudoClassSelector (.name n.text)
          [Plain.node .selectorList .none ns] :: ·) := by
  have name : String.ofList t.text.toList.dropLast = n.text := by
    rw [text, String.toList_ofList, List.dropLast_concat]
    rfl
  obtain ⟨span, found⟩ := pseudoSelector_closed hk h firm.tight limit next colon c us
  rw [name] at found
  have first : simpleSelector limit colon ⟨t :: (ts ++ c :: us), next⟩ =
      pseudoSelector limit colon ⟨t :: (ts ++ c :: us), next⟩ := by
    rw [simpleSelector, hc]
  exact parts_simple (by rw [hc]; rfl) (explicitCombinator_of_kind (by rw [hc]; exact nofun))
    (first.trans found) (finish_functional takes firm.isEmpty inside)

/-- The first of some selectors is read up to the comma. -/
theorem selectors_first {f : Forest} {ns : List (Node Unit)} {s : Scope} {o next : Nat}
    (firm : Firm (f.words.map Word.kind)) (cut : (s.cut (· = .comma)).1 = ⟨f.tokens o, next⟩)
    (first : parts limit none none ⟨f.tokens o, next⟩ = .ok ns) :
    (selectors limit s).map shapes =
      (match (s.cut (· = .comma)).2.tokens with
        | [] => .ok []
        | _ :: ts => (selectors limit ⟨ts, s.next⟩).map shapes : SelectorResult _).map
          (Plain.node .selector .none ns :: ·) := by
  rw [← Forest.kinds_tokens f o] at firm
  have trimmed : Scope.trim ⟨f.tokens o, next⟩ = ⟨f.tokens o, next⟩ :=
    Scope.trim_of_tight firm.tight
  rw [selectors_nonempty (by rw [cut, trimmed]; exact firm.isEmpty), cut, trimmed]
  rw [parts] at first
  cases children : selectorParts limit none none ⟨f.tokens o, next⟩ with
  | error e =>
    rw [children] at first
    cases first
  | ok ms =>
    rw [children] at first
    obtain shape : shapes ms = ns := Except.ok.inj first
    cases (s.cut (· = .comma)).2.tokens with
    | nil => simp [bind, Except.bind, Except.map, shapes, strip_mk, ← shape]
    | cons t ts =>
      dsimp only
      cases selectors limit ⟨ts, s.next⟩ with
      | error e => rfl
      | ok ns => simp [bind, Except.bind, Except.map, shapes, strip_mk, ← shape]

/-- The only selector of a list is read if its parts are. -/
theorem selectors_single {f : Forest} {ns : List (Node Unit)} {o next : Nat}
    (firm : Firm (f.words.map Word.kind)) (avoids : f.avoids (· = .comma))
    (read : parts limit none none ⟨f.tokens o, next⟩ = .ok ns) :
    (selectors limit ⟨f.tokens o, next⟩).map shapes = .ok [Plain.node .selector .none ns] := by
  have cut := Token.cut_tokens_all avoids o next
  rw [selectors_first firm (congrArg Prod.fst cut) read, cut]
  rfl

theorem Simple.node_ne_combinator (x : Simple) : x.node.kind ≠ .combinator := by
  cases x <;> exact nofun

mutual

/-- A simple selector is read as itself. -/
theorem Simple.read (limit : Nat) (last : Option NodeKind) (gap : Option Token) (o next : Nat)
    (ts : List Token) : ∀ x : Simple,
    parts limit last gap ⟨x.forest.tokens o ++ ts, next⟩ =
      (parts limit (some x.node.kind) none ⟨ts, next⟩).map
        (shapes (descendant last gap) ++ x.node :: ·)
  | .id n => by
    have name : (String.ofList ('#' :: n.chars)).toList.tail = n.chars := by
      rw [String.toList_ofList, List.tail_cons]
    refine parts_leaf rfl (explicitCombinator_of_kind nofun) ?_
    simp only [simpleSelector, Word.token_kind, Word.token_text, Word.hash, name]
    exact ⟨_, rfl⟩
  | .className n => by
    refine parts_leaf rfl (explicitCombinator_of_delim delim?_single (by decide)) ?_
    simp only [simpleSelector, Word.token_kind, Word.kind_single, delim?_single]
    exact ⟨_, rfl⟩
  | .attr a => by
    rw [Simple.forest, Attribute.forest, squares, Forest.tokens, List.cons_append,
      List.append_assoc, List.cons_append]
    refine parts_leaf rfl (explicitCombinator_of_kind nofun) ?_
    exact attributeSelector_closed (by rw [Forest.length_tokens]) (a.read_test _)
  | .pseudoClass n => parts_leaf rfl (explicitCombinator_of_kind nofun) ⟨_, rfl⟩
  | .pseudoElement n => parts_leaf rfl (explicitCombinator_of_kind nofun) ⟨_, rfl⟩
  | .nesting => by
    refine parts_leaf rfl (explicitCombinator_of_delim delim?_single (by decide)) ?_
    simp only [simpleSelector, Word.token_kind, Word.kind_single, delim?_single]
    exact ⟨_, rfl⟩
  | .functional n takes selectors => by
    rw [Simple.forest, colon, Name.calling, Forest.tokens, Forest.tokens, List.cons_append,
      List.cons_append, List.append_assoc, List.cons_append]
    refine parts_functional rfl rfl rfl (by rw [Forest.length_tokens]) ?_ takes ?_
    · rw [Forest.kinds_tokens]
      exact selectors.firm
    · exact Selectors.read limit _ _ selectors

/-- Simple selectors are read one after the other. -/
theorem Simples.read (limit : Nat) (o next : Nat) (ts : List Token) {k : NodeKind}
    (hk : k ≠ .combinator) : ∀ xs : Simples, ∃ k' ≠ NodeKind.combinator,
    parts limit (some k) none ⟨xs.forest.tokens o ++ ts, next⟩ =
      (parts limit (some k') none ⟨ts, next⟩).map (xs.nodes ++ ·)
  | .none => by
    refine ⟨k, hk, ?_⟩
    rw [Simples.forest, Forest.tokens, List.nil_append]
    cases parts limit (some k) none ⟨ts, next⟩ <;> rfl
  | .some first more => by
    obtain ⟨k', hk', read⟩ := Simples.read limit (o + first.forest.width) next ts
      first.node_ne_combinator more
    refine ⟨k', hk', ?_⟩
    rw [Simples.forest, Forest.tokens_append, List.append_assoc, Simple.read _ _ _ _ _ _ first,
      read]
    cases parts limit (some k') none ⟨ts, next⟩ <;> rfl

/-- A compound is read up to what follows it. -/
theorem Compound.read (limit : Nat) (last : Option NodeKind) (gap : Option Token) (o next : Nat)
    (ts : List Token) (h : qualifies ts = false) : ∀ c : Compound, ∃ k ≠ NodeKind.combinator,
    parts limit last gap ⟨c.forest.tokens o ++ ts, next⟩ =
      (parts limit (some k) none ⟨ts, next⟩).map
        (shapes (descendant last gap) ++ c.nodes ++ ·)
  | .typed name more => by
    obtain ⟨k, hk, read⟩ := Simples.read limit (o + name.forest.width) next ts
      (k := .typeSelector) nofun more
    refine ⟨k, hk, ?_⟩
    rw [Compound.forest, Forest.tokens_append, List.append_assoc, name.read (more.qualifies h),
      read]
    cases parts limit (some k) none ⟨ts, next⟩ <;> simp [Except.map, Compound.nodes]
  | .untyped first more => by
    obtain ⟨k, hk, read⟩ := Simples.read limit (o + first.forest.width) next ts
      first.node_ne_combinator more
    refine ⟨k, hk, ?_⟩
    rw [Compound.forest, Forest.tokens_append, List.append_assoc, Simple.read _ _ _ _ _ _ first,
      read]
    cases parts limit (some k) none ⟨ts, next⟩ <;> simp [Except.map, Compound.nodes]

/-- A selector is read whole. -/
theorem Selector.read (limit : Nat) (last : Option NodeKind) (gap : Option Token) (o next : Nat) :
    ∀ x : Selector, parts limit last gap ⟨x.forest.tokens o, next⟩ =
      .ok (shapes (descendant last gap) ++ x.nodes)
  | .last compound => by
    obtain ⟨k, hk, read⟩ := Compound.read limit last gap o next [] rfl compound
    rw [List.append_nil, parts_nil] at read
    rw [Selector.forest, read]
    simp [Except.map, Selector.nodes]
  | .join compound joiner rest => by
    have after := fun o last gap => Selector.read limit last gap o next rest
    have front : qualifies ((joiner.forest ++ rest.forest).tokens (o + compound.forest.width)) =
        false := by
      rw [Forest.tokens_append]
      exact joiner.qualifies
    obtain ⟨k, hk, read⟩ := Compound.read limit last gap o next _ front compound
    rw [joiner.read hk after] at read
    rw [Selector.forest, Forest.tokens_append, read]
    simp [Except.map, Selector.nodes]

/-- The selectors of a list are read one after the other. -/
theorem Selectors.read (limit : Nat) (o next : Nat) : ∀ l : Selectors,
    (selectors limit ⟨l.forest.tokens o, next⟩).map shapes = .ok l.nodes
  | .last selector =>
    selectors_single selector.firm (selector.avoids fun _ _ _ h => decide_eq_false h)
      (Selector.read limit none none o next selector)
  | .more selector rest => by
    have avoids : selector.forest.avoids (· = .comma) :=
      selector.avoids fun _ _ _ h => decide_eq_false h
    rw [Selectors.forest, Forest.tokens_append, Forest.tokens]
    have cut := Token.cut_tokens avoids
      (show decide (((Word.single .comma ',').token (o + selector.forest.width)).kind = .comma) from
        rfl) o next
    rw [selectors_first selector.firm (congrArg Prod.fst (cut _))
      (Selector.read limit none none o _ selector), cut]
    dsimp only
    rw [Selectors.read limit _ _ rest]
    rfl

end

end Plain

end Stylesheet
