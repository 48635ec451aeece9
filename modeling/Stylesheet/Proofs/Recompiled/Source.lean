import Stylesheet.Proofs.Inherited
import Stylesheet.Proofs.Recompiled.Selector

/-!
# Selectors that are read from a text

Where a list of selectors was read of which all parts can be matched, there was no lone backslash,
so all its tokens are portable, and its parts are made of them.
-/

namespace Stylesheet

open Token (Word)

/-! ### Tokens without lone backslashes -/

namespace Token

variable {t u bar : Token} {ts us : List Token}

/-- No token is a lone backslash. -/
def Slashless (ts : List Token) : Prop := ∀ t ∈ ts, t.isDelim '\\' = false

theorem isDelim_of_ne {c : Char} (h : t.kind ≠ .delim) : t.isDelim c = false := by
  rw [isDelim, delim?, if_neg h]
  rfl

theorem isDelim_of_kind {c : Char} {k : Kind} (kind : t.kind = k) (other : k ≠ .delim) :
    t.isDelim c = false :=
  isDelim_of_ne (kind ▸ other)

theorem isDelim_of_other {c d : Char} (h : t.isDelim c = true) (other : c ≠ d) :
    t.isDelim d = false := by
  rw [isDelim, decide_eq_true_eq] at h
  rw [isDelim, h, decide_eq_false_iff_not]
  exact fun same => other (Option.some.inj same)

theorem isDelim_of_delim? {c d : Char} (h : t.delim? = some c) (other : c ≠ d) :
    t.isDelim d = false :=
  isDelim_of_other (by rw [isDelim, h, decide_eq_true_eq]) other

theorem slashless_cons : Slashless (t :: ts) ↔ t.isDelim '\\' = false ∧ Slashless ts :=
  List.forall_mem_cons

theorem slashless_append : Slashless (ts ++ us) ↔ Slashless ts ∧ Slashless us :=
  List.forall_mem_append

theorem slashless_of_significant (h : Slashless (significant ts)) : Slashless ts := by
  have trivia : Slashless (ts.takeWhile fun t => t.kind.isTrivia) := by
    refine fun t ht => isDelim_of_ne fun delim => ?_
    have trivia := List.mem_takeWhile_imp ht
    rw [delim] at trivia
    cases trivia
  have both := slashless_append.mpr ⟨trivia, h⟩
  rwa [significant_append] at both

theorem slashless_reverse : Slashless ts.reverse ↔ Slashless ts := by
  simp only [Slashless, List.mem_reverse]

theorem slashless_of_trim {s : Scope} (h : Slashless s.trim.tokens) : Slashless s.tokens :=
  slashless_of_significant (slashless_reverse.mp
    (slashless_of_significant (slashless_reverse.mp h)))

/-- Blocks are closed by tokens of the right kind, as far as they are closed. -/
def Mated (ts : List Token) : Prop :=
  ∀ front t back, ts = front ++ t :: back → t.kind.opensBlock = true →
    ∀ n c, t.inside = some n → back[n]? = some c → t.kind.closing = some c.kind

theorem mated_of_matched (h : Matched ts) : Mated ts := by
  intro front t back split opens n c inside found
  obtain ⟨inner, closer, rest, rfl, rfl, paired, -⟩ := h.of_split split opens inside
  rw [List.getElem?_append_right (Nat.le_refl _), Nat.sub_self, List.getElem?_cons_zero,
    Option.some.injEq] at found
  rwa [← found]

theorem Mated.middle {before after : List Token} (h : Mated (before ++ (ts ++ after))) :
    Mated ts := by
  intro front t back split opens n c inside found
  have whole : before ++ (ts ++ after) = (before ++ front) ++ t :: (back ++ after) := by
    rw [split]
    simp
  refine h _ _ _ whole opens n c inside ?_
  rwa [List.getElem?_append_left (List.getElem?_eq_some_iff.mp found).1]

theorem Mated.of_isPart {p s : Scope} (h : Mated s.tokens) (part : p.IsPart s) :
    Mated p.tokens := by
  obtain ⟨before, after, tokens, -⟩ := part
  rw [tokens] at h
  exact h.middle

theorem Mated.closer {s : Scope} {c : Token} (h : Mated (t :: s.tokens))
    (opens : t.kind.opensBlock = true) (closed : (s.enter t).closer = some c) :
    t.kind.closing = some c.kind := by
  unfold Scope.enter at closed
  split at closed
  · cases closed
  · rename_i n inside
    split at closed
    · cases closed
    · rename_i closer rest drop
      obtain rfl := Option.some.inj closed
      refine h [] t s.tokens rfl opens n closer inside ?_
      have at0 : (s.tokens.drop n)[0]? = s.tokens[n + 0]? := List.getElem?_drop
      rw [drop] at at0
      exact at0.symm

end Token

namespace Grammar

open Located Scope Token

variable {limit close : Nat} {s rest after : Scope} {t last colon : Token} {ts more : List Token}
variable {p : Simple} {n : Located} {ns : List Located}

/-! ### Simple selectors that can be matched -/

/-- How a simple selector that can be matched is read off the front of a scope. -/
inductive ReadsMatchable (t : Token) (rest : Scope) : Located → Scope → Prop
  | type (start : t.kind = .ident ∨ t.delim? = some '*') :
    ReadsMatchable t rest (typeSelector t rest).1 (typeSelector t rest).2
  | id (hash : t.kind = .hash) :
    ReadsMatchable t rest (leaf .idSelector (.name (String.ofList t.text.toList.tail)) t.span) rest
  | className {name : Token} {ts : List Token} (point : t.delim? = some '.')
      (tokens : rest.tokens = name :: ts) (ident : name.kind = .ident) :
    ReadsMatchable t rest (leaf .classSelector (.name name.text) ⟨t.start, name.stop⟩)
      ⟨ts, rest.next⟩
  | attr {c : Token} {detail : Detail} (square : t.kind = .leftSquare)
      (closed : (rest.enter t).closer = some c)
      (test : attributeTest c.start (rest.enter t).inner.tokens = .ok detail) :
    ReadsMatchable t rest (leaf .attributeSelector detail (rest.enter t).span) (rest.enter t).after

theorem pseudoNamed_unmatchable {kind : NodeKind} (pseudo : kind.isMatchable = false)
    (read : pseudoNamed limit kind colon s = .ok (p, after)) (made : p.finish limit = .ok n) :
    n.kind.isMatchable = false := by
  unfold pseudoNamed at read
  split at read
  · cases read
  · split at read
    · cases read
      cases made
      exact pseudo
    · dsimp only at read
      split at read
      · cases read
      · cases read
        rwa [finish_kind made]
    · cases read

theorem pseudoSelector_unmatchable (read : pseudoSelector limit t rest = .ok (p, after))
    (made : p.finish limit = .ok n) : n.kind.isMatchable = false := by
  unfold pseudoSelector at read
  split at read
  · split at read
    · exact pseudoNamed_unmatchable rfl read made
    · exact pseudoNamed_unmatchable rfl read made
  · exact pseudoNamed_unmatchable rfl read made

theorem simpleSelector_readsMatchable (read : simpleSelector limit t rest = .ok (p, after))
    (made : p.finish limit = .ok n) (simple : n.kind.isMatchable = true) :
    ReadsMatchable t rest n after := by
  have named (start : t.kind = .ident ∨ t.delim? = some '*')
      (read : Except.ok (ε := SyntaxError)
        (Simple.node (typeSelector t rest).1, (typeSelector t rest).2) = .ok (p, after)) :
      ReadsMatchable t rest n after := by
    cases read
    cases made
    exact .type start
  unfold simpleSelector at read
  split at read
  · rename_i ident
    exact named (.inl ident) read
  · rename_i hash
    cases read
    cases made
    exact .id hash
  · rename_i square
    unfold attributeSelector at read
    dsimp only at read
    split at read
    · cases read
    · rename_i c closed
      obtain ⟨detail, test, read⟩ := bind_eq_ok_iff.mp read
      cases read
      cases made
      exact .attr square closed test
  · rw [pseudoSelector_unmatchable read made] at simple
    cases simple
  · split at read
    · rename_i star
      exact named (.inr star) read
    · cases read
      cases made
      cases simple
    · rename_i point
      unfold classSelector at read
      split at read
      · cases read
      · rename_i name ts tokens
        split at read
        · rename_i ident
          cases read
          cases made
          exact .className point tokens ident
        · cases read
    · cases read
  · cases read

/-! ### No lone backslashes -/

theorem typeSelector_slashless (h : t.kind = .ident ∨ t.delim? = some '*')
    (later : Slashless (typeSelector t rest).2.tokens) : Slashless (t :: rest.tokens) := by
  have first : t.isDelim '\\' = false := by
    obtain ident | star := h
    · exact isDelim_of_kind ident (by decide)
    · exact isDelim_of_delim? star (by decide)
  unfold typeSelector at later
  dsimp only at later
  split at later
  · rename_i bar name more tokens
    split at later
    · rename_i qualified
      rw [Bool.and_eq_true, Bool.or_eq_true, decide_eq_true_eq] at qualified
      have named : name.isDelim '\\' = false := by
        obtain ident | star := qualified.2
        · exact isDelim_of_kind ident (by decide)
        · exact isDelim_of_other star (by decide)
      rw [tokens, slashless_cons, slashless_cons, slashless_cons]
      exact ⟨first, isDelim_of_other qualified.1 (by decide), named, later⟩
    · exact slashless_cons.mpr ⟨first, later⟩
  · exact slashless_cons.mpr ⟨first, later⟩

theorem attributeName_slashless {name : String} (read : attributeName close ts = .ok (name, more))
    (later : Slashless more) : Slashless ts := by
  unfold attributeName at read
  split at read
  · cases read
  · rename_i t us tokens
    refine slashless_of_significant ?_
    rw [tokens]
    split at read
    · cases read
    · rename_i ident
      have first : t.isDelim '\\' = false :=
        isDelim_of_kind (not_not.mp ident) (by decide)
      split at read
      · rename_i bar name rest
        split at read
        · rename_i qualified
          cases read
          rw [Bool.and_eq_true, decide_eq_true_eq] at qualified
          rw [slashless_cons, slashless_cons, slashless_cons]
          exact ⟨first, isDelim_of_other qualified.1 (by decide),
            isDelim_of_kind qualified.2 (by decide), later⟩
        · cases read
          exact slashless_cons.mpr ⟨first, later⟩
      · cases read
        exact slashless_cons.mpr ⟨first, later⟩

theorem attributeMatcher_slashless {op : Token} {matcher : String}
    (read : attributeMatcher op ts = .ok (matcher, more)) (later : Slashless more) :
    Slashless (op :: ts) := by
  unfold attributeMatcher at read
  split at read
  · rename_i equal
    cases read
    exact slashless_cons.mpr ⟨isDelim_of_delim? equal (by decide), later⟩
  · rename_i c _ mark
    split at read
    · split at read
      · rename_i written
        cases read
        rw [Bool.and_eq_true, List.contains_iff_mem] at written
        have other : c ≠ '\\' := by
          rintro rfl
          exact absurd written.1 (by decide)
        rw [slashless_cons, slashless_cons]
        exact ⟨isDelim_of_delim? mark other, isDelim_of_other written.2 (by decide), later⟩
      · cases read
    · cases read
  · cases read

theorem attributeValue_slashless {value : AttributeValue}
    (read : attributeValue close ts = .ok (value, more)) (later : Slashless more) :
    Slashless ts := by
  unfold attributeValue at read
  split at read
  · cases read
  · rename_i v us tokens
    refine slashless_of_significant ?_
    rw [tokens]
    split at read
    · rename_i kind
      cases read
      exact slashless_cons.mpr ⟨isDelim_of_kind kind (by decide), later⟩
    · rename_i kind
      cases read
      exact slashless_cons.mpr ⟨isDelim_of_kind kind (by decide), later⟩
    · cases read

theorem attributeFlags_slashless (later : Slashless (attributeFlags ts).2) : Slashless ts := by
  unfold attributeFlags at later
  split at later
  · rename_i f us tokens
    split at later
    · rename_i kind
      refine slashless_of_significant ?_
      rw [tokens]
      exact slashless_cons.mpr ⟨isDelim_of_kind kind (by decide), later⟩
    · exact later
  · exact later

theorem slashless_of_none (h : significant ts = []) : Slashless ts := by
  refine slashless_of_significant ?_
  rw [h]
  rintro _ ⟨⟩

/-- There is no lone backslash between the brackets of an attribute selector. -/
theorem attributeTest_slashless {detail : Detail} (read : attributeTest close ts = .ok detail) :
    Slashless ts := by
  unfold attributeTest at read
  obtain ⟨⟨name, more⟩, named, read⟩ := bind_eq_ok_iff.mp read
  refine attributeName_slashless named ?_
  dsimp only at read
  split at read
  · rename_i none
    exact slashless_of_none none
  · rename_i op us tokens
    obtain ⟨⟨matcher, more⟩, compares, read⟩ := bind_eq_ok_iff.mp read
    obtain ⟨⟨value, more'⟩, valued, read⟩ := bind_eq_ok_iff.mp read
    dsimp only at read valued
    refine slashless_of_significant ?_
    rw [tokens]
    refine attributeMatcher_slashless compares (attributeValue_slashless valued
      (attributeFlags_slashless ?_))
    split at read
    · rename_i none
      exact slashless_of_none none
    · cases read

/-- There is no lone backslash among the tokens of a simple selector that can be matched. -/
theorem ReadsMatchable.slashless (h : ReadsMatchable t rest n after)
    (mated : Mated (t :: rest.tokens)) (later : Slashless after.tokens) :
    Slashless (t :: rest.tokens) := by
  cases h with
  | type start => exact typeSelector_slashless start later
  | id hash => exact slashless_cons.mpr ⟨isDelim_of_kind hash (by decide), later⟩
  | className point tokens ident =>
    rw [tokens, slashless_cons, slashless_cons]
    exact ⟨isDelim_of_delim? point (by decide),
      isDelim_of_kind ident (by decide), later⟩
  | @attr c _ square closed test =>
    have closing := mated.closer (by rw [square]; rfl) closed
    rw [square, Kind.closing, Option.some.injEq] at closing
    obtain ⟨tokens, -, -⟩ := enter_closer t rest closed
    rw [slashless_cons, tokens, slashless_append, slashless_cons]
    exact ⟨isDelim_of_kind square (by decide), attributeTest_slashless test,
      isDelim_of_kind closing.symm (by decide), later⟩

theorem explicitCombinator_slashless {name : String}
    (read : explicitCombinator t rest = some (name, last, after))
    (later : Slashless after.tokens) : Slashless (t :: rest.tokens) := by
  have one {c : Char} (mark : t.delim? = some c) (other : c ≠ '\\')
      (later : Slashless rest.tokens) : Slashless (t :: rest.tokens) :=
    slashless_cons.mpr ⟨isDelim_of_delim? mark other, later⟩
  unfold explicitCombinator at read
  split at read
  · rename_i mark
    cases read
    exact one mark (by decide) later
  · rename_i mark
    cases read
    exact one mark (by decide) later
  · rename_i mark
    cases read
    exact one mark (by decide) later
  · rename_i mark
    split at read
    · rename_i bar more tokens
      split at read
      · rename_i second
        cases read
        refine one mark (by decide) ?_
        rw [tokens]
        exact slashless_cons.mpr ⟨isDelim_of_other second (by decide), later⟩
      · cases read
    · cases read
  · cases read

/-- A simple selector is no combinator. -/
theorem made_isSimpleSelector (read : simpleSelector limit t rest = .ok (p, after))
    (made : p.finish limit = .ok n) : n.kind.isSimpleSelector = true :=
  (finish_regular (simpleSelector_isRegular read) made
    fun _ _ _ argument _ _ _ => selectors_regular_all.1 argument).1

/-! ### Lists without lone backslashes -/

/-- A part of a selector that can be matched if there are compounds on its sides. -/
def Matches (n : Located) : Prop := n.kind.isMatchable = true ∨ n.kind = .combinator

/-- Reading a list of selectors that can be matched in `s` leaves no lone backslash. -/
def ListSlashless (limit : Nat) (s : Scope) : Prop :=
  ∀ ns, selectors limit s = .ok ns → Mated s.tokens →
    (∀ n ∈ ns, ∀ c ∈ n.children, Matches c) → Slashless s.tokens

/-- Reading parts that can be matched in `s` leaves no lone backslash. -/
def PartsSlashless (limit : Nat) (kind : Option NodeKind) (space : Option Token) (s : Scope) :
    Prop :=
  ∀ ns, selectorParts limit kind space s = .ok ns → Mated s.tokens →
    (∀ n ∈ ns, Matches n) → Slashless s.tokens

theorem selectors_slashless_all : (∀ s, ListSlashless limit s) ∧
    ∀ kind space s, PartsSlashless limit kind space s := by
  refine selectors_induction limit ?empty ?nonempty ?done ?space ?comment ?combinator ?failed
    ?simple
  case empty =>
    intro s hp ns h
    rw [selectors, if_pos hp] at h
    cases h
  case nonempty =>
    intro s hp parts later ns h mated simple
    rw [selectors_nonempty hp] at h
    obtain ⟨children, hc, h⟩ := bind_eq_ok_iff.mp h
    obtain ⟨more, hr, h⟩ := bind_eq_ok_iff.mp h
    cases h
    obtain ⟨first, others⟩ := List.forall_mem_cons.mp simple
    have part : (s.cut (· = .comma)).1.trim.IsPart s := (trim_isPart _).trans (cut_fst_isPart _ s)
    have front := slashless_of_trim (parts children hc (mated.of_isPart part) first)
    have whole : s.tokens = (s.cut (· = .comma)).1.tokens ++ (s.cut (· = .comma)).2.tokens :=
      (spanTop_append _ _).symm
    rw [whole, slashless_append]
    refine ⟨front, ?_⟩
    split at hr
    · rename_i none
      rw [none]
      rintro _ ⟨⟩
    · rename_i t ts ht
      have comma : t.kind = .comma := of_decide_eq_true (spanTop_head ht)
      rw [ht]
      exact slashless_cons.mpr ⟨isDelim_of_kind comma (by decide),
        later t ts ht more hr (mated.of_isPart (cut_rest_isPart ht)) others⟩
  case done =>
    intro kind space next ns h _ _
    rintro _ ⟨⟩
  case space =>
    intro kind space t ts next hk ih ns h mated simple
    rw [selectorParts_space hk] at h
    exact slashless_cons.mpr ⟨isDelim_of_kind hk (by decide),
      ih ns h (mated.of_isPart isPart_tail) simple⟩
  case comment =>
    intro kind space t ts next hk hc ih ns h mated simple
    rw [selectorParts_comment hk hc] at h
    exact slashless_cons.mpr ⟨isDelim_of_kind hc (by decide),
      ih ns h (mated.of_isPart isPart_tail) simple⟩
  case combinator =>
    intro kind space t ts next name last after hk hc hx ih ns h mated simple
    rw [selectorParts_combinator hk hc hx] at h
    obtain ⟨rest, hr, h⟩ := bind_eq_ok_iff.mp h
    cases h
    have part := (explicitCombinator_follows hx).isPart
    exact explicitCombinator_slashless hx
      (ih rest hr (mated.of_isPart part) (List.forall_mem_cons.mp simple).2)
  case failed =>
    intro kind space t ts next e hk hc hn hx ns h
    rw [selectorParts_simple hk hc hn, hx] at h
    cases h
  case simple =>
    intro kind space t ts next p after hk hc hn hx list parts ns h mated simple
    rw [selectorParts_simple hk hc hn, hx] at h
    obtain ⟨_, ⟨⟩, h⟩ := bind_eq_ok_iff.mp h
    obtain ⟨n, made, h⟩ := bind_eq_ok_iff.mp h
    obtain ⟨rest, hrest, h⟩ := bind_eq_ok_iff.mp h
    cases h
    obtain ⟨last, follows, -⟩ := simpleSelector_readOff hx
    obtain ⟨first, others⟩ := List.forall_mem_cons.mp (List.forall_mem_append.mp simple).2
    have later := parts n made rest hrest (mated.of_isPart follows.isPart) others
    have simple := first.resolve_right fun combinator => by
      have kind := made_isSimpleSelector hx made
      rw [combinator] at kind
      cases kind
    exact (simpleSelector_readsMatchable hx made simple).slashless mated later

end Grammar

/-! ### Parts made of portable tokens -/

namespace Token.Portable

variable {t bar name : Token}

theorem text_of_delim? {c : Char} (h : t.Portable) (mark : t.delim? = some c) :
    t.text = String.ofList [c] := by
  unfold delim? at mark
  split at mark
  · rename_i kind
    obtain ⟨d, text⟩ := h.delim kind
    rw [text, List.head?_cons, Option.some.injEq] at mark
    rw [← mark, ← text, String.ofList_toList]
  · cases mark

theorem text_of_isDelim {c : Char} (h : t.Portable) (mark : t.isDelim c = true) :
    t.text = String.ofList [c] :=
  h.text_of_delim? (of_decide_eq_true mark)

/-- The name that an identifier is. -/
theorem exists_name (h : t.Portable) (ident : t.kind = .ident) :
    ∃ n : Stylesheet.Portable.Name, n.text = t.text :=
  ⟨⟨t.text.toList, h.ident ident⟩, String.ofList_toList⟩

theorem exists_typeName (h : t.Portable) (start : t.kind = .ident ∨ t.delim? = some '*') :
    ∃ n : Stylesheet.Portable.TypeName, n.text = t.text := by
  obtain ident | star := start
  · obtain ⟨n, text⟩ := h.exists_name ident
    exact ⟨.named n, text⟩
  · exact ⟨.any, (h.text_of_delim? star).symm⟩

/-- The source of a name and its namespace. -/
theorem sourceText_qualified (ht : t.Portable) (hb : bar.Portable)
    (plain : t.kind.opensBlock = false) (mark : bar.isDelim '|' = true) :
    sourceText [t, bar, name] = t.text ++ "|" ++ name.text := by
  have kind : bar.kind.opensBlock = false := by
    rw [Plain.kind_of_delim? (of_decide_eq_true mark)]
    rfl
  have text : bar.text = "|" := hb.text_of_isDelim mark
  rw [← String.toList_inj, sourceText, String.toList_join]
  simp [pieces, ht.omitted plain, hb.omitted kind, text]

end Token.Portable

namespace Grammar

open Located Scope Token

open Portable (Part AttributeName Operand Name)

variable {limit close : Nat} {rest after : Scope} {t : Token} {ts more : List Token} {n : Located}

/-- All tokens are portable. -/
def AllPortable (ts : List Token) : Prop := ∀ t ∈ ts, t.Portable

theorem AllPortable.of_subset (h : AllPortable ts) (sub : more ⊆ ts) : AllPortable more :=
  fun t ht => h t (sub ht)

theorem attributeName_portable {name : String} (h : AllPortable ts)
    (read : attributeName close ts = .ok (name, more)) :
    (∃ a : AttributeName, a.text = name) ∧ AllPortable more := by
  unfold attributeName at read
  split at read
  · cases read
  · rename_i t us tokens
    have all : AllPortable (t :: us) := tokens ▸ h.of_subset (significant_subset ts)
    obtain ⟨first, later⟩ := List.forall_mem_cons.mp all
    split at read
    · cases read
    · rename_i ident
      have ident := not_not.mp ident
      obtain ⟨a, text⟩ := first.exists_name ident
      split at read
      · rename_i bar name rest
        split at read
        · rename_i qualified
          cases read
          rw [Bool.and_eq_true, decide_eq_true_eq] at qualified
          obtain ⟨mark, later⟩ := List.forall_mem_cons.mp later
          obtain ⟨second, later⟩ := List.forall_mem_cons.mp later
          obtain ⟨b, text'⟩ := second.exists_name qualified.2
          refine ⟨⟨⟨some a, b⟩, ?_⟩, later⟩
          rw [first.sourceText_qualified mark (by rw [ident]; rfl) qualified.1, ← text, ← text']
          rfl
        · cases read
          exact ⟨⟨⟨none, a⟩, text⟩, later⟩
      · cases read
        exact ⟨⟨⟨none, a⟩, text⟩, later⟩

theorem attributeMatcher_portable {op : Token} {matcher : String} (h : AllPortable ts)
    (read : attributeMatcher op ts = .ok (matcher, more)) :
    (∃ m : Matcher, m.operator = matcher) ∧ AllPortable more := by
  refine ⟨attributeMatcher_isOperator read, ?_⟩
  unfold attributeMatcher at read
  split at read
  · cases read
    exact h
  · split at read
    · split at read
      · cases read
        exact (List.forall_mem_cons.mp h).2
      · cases read
    · cases read
  · cases read

theorem attributeValue_portable {value : AttributeValue} (h : AllPortable ts)
    (read : attributeValue close ts = .ok (value, more)) :
    (∃ v : Operand, v.value = value) ∧ AllPortable more := by
  unfold attributeValue at read
  split at read
  · cases read
  · rename_i v us tokens
    have all : AllPortable (v :: us) := tokens ▸ h.of_subset (significant_subset ts)
    obtain ⟨first, later⟩ := List.forall_mem_cons.mp all
    split at read
    · rename_i kind
      cases read
      refine ⟨⟨.string ⟨_, first.string kind⟩, ?_⟩, later⟩
      rw [Operand.value, Plain.Content.text, String.ofList_toList]
    · rename_i kind
      cases read
      obtain ⟨a, text⟩ := first.exists_name kind
      exact ⟨⟨.identifier a, congrArg _ text⟩, later⟩
    · cases read

theorem attributeFlags_portable (h : AllPortable ts) :
    ∃ flag : Option Name, (attributeFlags ts).1 = flag.map Name.text := by
  unfold attributeFlags
  split
  · rename_i f us tokens
    have all : AllPortable (f :: us) := tokens ▸ h.of_subset (significant_subset ts)
    split
    · rename_i kind
      obtain ⟨a, text⟩ := (List.forall_mem_cons.mp all).1.exists_name kind
      exact ⟨some a, congrArg some text.symm⟩
    · exact ⟨none, rfl⟩
  · exact ⟨none, rfl⟩

theorem attributeTest_portable {detail : Detail} (h : AllPortable ts)
    (read : attributeTest close ts = .ok detail) :
    ∃ name test, detail = (Part.attr name test).detail := by
  unfold attributeTest at read
  obtain ⟨⟨name, more⟩, named, read⟩ := bind_eq_ok_iff.mp read
  obtain ⟨⟨a, rfl⟩, later⟩ := attributeName_portable h named
  dsimp only at read
  split at read
  · cases read
    exact ⟨a, none, rfl⟩
  · rename_i op us tokens
    have all : AllPortable (op :: us) := tokens ▸ later.of_subset (significant_subset _)
    obtain ⟨⟨matcher, more⟩, compares, read⟩ := bind_eq_ok_iff.mp read
    obtain ⟨⟨value, more'⟩, valued, read⟩ := bind_eq_ok_iff.mp read
    dsimp only at read valued
    obtain ⟨⟨m, rfl⟩, later⟩ := attributeMatcher_portable (List.forall_mem_cons.mp all).2 compares
    obtain ⟨⟨v, rfl⟩, later⟩ := attributeValue_portable later valued
    obtain ⟨flag, flags⟩ := attributeFlags_portable later
    rw [flags] at read
    split at read
    · cases read
      exact ⟨a, some ⟨m, v, flag⟩, rfl⟩
    · cases read

/-- A simple selector that can be matched is made of portable tokens. -/
theorem ReadsMatchable.exists_part (h : ReadsMatchable t rest n after)
    (portable : AllPortable (t :: rest.tokens)) : ∃ p : Part, n.strip = p.node := by
  obtain ⟨first, later⟩ := List.forall_mem_cons.mp portable
  cases h with
  | type start =>
    obtain ⟨a, text⟩ := first.exists_typeName start
    have plain : ∃ p : Part, (leaf .typeSelector (.name t.text) t.span).strip = p.node :=
      ⟨.type a, congrArg (fun text => Plain.node .typeSelector (.name text) []) text.symm⟩
    unfold typeSelector
    dsimp only
    split
    · rename_i bar name us tokens
      split
      · rename_i qualified
        rw [Bool.and_eq_true, Bool.or_eq_true, decide_eq_true_eq] at qualified
        rw [tokens] at later
        obtain ⟨mark, later⟩ := List.forall_mem_cons.mp later
        obtain ⟨second, -⟩ := List.forall_mem_cons.mp later
        obtain ⟨b, text'⟩ := second.exists_typeName (qualified.2.imp_right of_decide_eq_true)
        have leaves : t.kind.opensBlock = false := by
          obtain ident | star := start
          · rw [ident]
            rfl
          · rw [Plain.kind_of_delim? star]
            rfl
        refine ⟨.qualified a b, ?_⟩
        rw [first.sourceText_qualified mark leaves qualified.1, ← text, ← text']
        rfl
      · exact plain
    · exact plain
  | id hash =>
    obtain ⟨cs, text, fits⟩ := first.hash hash
    refine ⟨.id ⟨cs, fits⟩, ?_⟩
    rw [text]
    rfl
  | className point tokens ident =>
    rw [tokens] at later
    obtain ⟨a, text⟩ := (List.forall_mem_cons.mp later).1.exists_name ident
    exact ⟨.className a, congrArg (fun text => Plain.node .classSelector (.name text) []) text.symm⟩
  | attr square closed test =>
    have inner := AllPortable.of_subset later (enter_inner_isPart t rest).subset
    obtain ⟨name, asked, rfl⟩ := attributeTest_portable inner test
    exact ⟨.attr name asked, rfl⟩

/-! ### Lists made of portable tokens -/

/-- A simple selector is made of portable tokens if it can be matched, and a combinator holds no
other nodes. -/
def Made (n : Located) : Prop :=
  (n.kind.isMatchable = true → ∃ p : Part, n.strip = p.node) ∧
    (n.kind = .combinator → n.children = [])

theorem made_combinator (name : String) (span : Span) :
    Made (leaf .combinator (.name name) span) :=
  ⟨nofun, fun _ => rfl⟩

theorem descendant_made (kind : Option NodeKind) (space : Option Token) :
    ∀ n ∈ descendant kind space, Made n := by
  unfold descendant
  split
  · split
    · rintro _ ⟨⟩
    · exact List.forall_mem_singleton.mpr (made_combinator _ _)
  · rintro _ ⟨⟩

/-- Selectors that are read off portable tokens have parts that are made of them. -/
theorem selectors_made {s : Scope} {ns : List Located} (portable : AllPortable s.tokens)
    (h : selectors limit s = .ok ns) :
    ∀ n ∈ ns, n.kind = .selector ∧ n.detail = .none ∧ ∀ c ∈ n.children, Made c := by
  refine (selectors_forall (S := fun s => AllPortable s.tokens) (P := Made) limit ?part ?descendant
    ?combinator ?simple).1 s portable ns h
  case part => exact fun part portable => portable.of_subset part.subset
  case descendant => exact descendant_made
  case combinator => exact fun _ _ => made_combinator _ _
  case simple =>
    intro t ts next p after n portable read made _
    refine ⟨fun simple => ?_, fun combinator => ?_⟩
    · exact (simpleSelector_readsMatchable read made simple).exists_part portable
    · have kind := made_isSimpleSelector read made
      rw [combinator] at kind
      cases kind

end Grammar

/-! ### Selectors made of portable parts -/

namespace Portable

open Grammar (Made)

variable {ns rest : List Located} {c n : Located}

/-- The nodes of a compound are those of simple selectors with nothing between them. -/
theorem exists_tight (simple : ∀ n ∈ ns, n.kind.isMatchable = true) (made : ∀ n ∈ ns, Made n)
    (rest : List (Option Combinator × Part)) :
    ∃ rest', restNodes rest' = Plain.shapes ns ++ restNodes rest := by
  induction ns with
  | nil => exact ⟨rest, rfl⟩
  | cons n ns ih =>
    obtain ⟨sn, simple⟩ := List.forall_mem_cons.mp simple
    obtain ⟨mn, made⟩ := List.forall_mem_cons.mp made
    obtain ⟨rest', nodes⟩ := ih simple made
    obtain ⟨p, strip⟩ := mn.1 sn
    refine ⟨(none, p) :: rest', ?_⟩
    rw [restNodes_cons, nodes, ← strip]
    rfl

theorem exists_compound (nonempty : ns ≠ []) (simple : ∀ n ∈ ns, n.kind.isMatchable = true)
    (made : ∀ n ∈ ns, Made n) (rest : List (Option Combinator × Part)) :
    ∃ x : Selector, x.nodes = Plain.shapes ns ++ restNodes rest := by
  obtain ⟨n, ns, rfl⟩ := List.exists_cons_of_ne_nil nonempty
  obtain ⟨sn, simple⟩ := List.forall_mem_cons.mp simple
  obtain ⟨mn, made⟩ := List.forall_mem_cons.mp made
  obtain ⟨rest', nodes⟩ := exists_tight simple made rest
  obtain ⟨p, strip⟩ := mn.1 sn
  refine ⟨⟨p, rest'⟩, ?_⟩
  rw [Selector.nodes, nodes, ← strip]
  rfl

theorem exists_combinatorNode (joins : c.Joins) (made : Made c) :
    ∃ j : Combinator, c.strip = combinatorNode j := by
  obtain ⟨kind, detail, note, children⟩ := c
  obtain ⟨rfl, detail⟩ := joins
  obtain rfl : children = [] := made.2 rfl
  obtain rfl | rfl := detail
  · exact ⟨.descendant, rfl⟩
  · exact ⟨.child, rfl⟩

/-- Parts that can be matched and that are made of portable tokens are those of a selector. -/
theorem exists_nodes (h : Node.AreMatchable ns) (made : ∀ n ∈ ns, Made n) :
    ∃ x : Selector, x.nodes = Plain.shapes ns := by
  induction h with
  | compound nonempty simple =>
    obtain ⟨x, nodes⟩ := exists_compound nonempty simple made []
    exact ⟨x, nodes.trans (List.append_nil _)⟩
  | @joined ns rest c nonempty simple joins _ ih =>
    obtain ⟨first, later⟩ := List.forall_mem_append.mp made
    obtain ⟨mc, others⟩ := List.forall_mem_cons.mp later
    obtain ⟨y, after⟩ := ih others
    obtain ⟨j, strip⟩ := exists_combinatorNode joins mc
    obtain ⟨x, nodes⟩ := exists_compound nonempty simple first ((some j, y.first) :: y.rest)
    refine ⟨x, ?_⟩
    rw [nodes, restNodes_cons]
    simp only [Plain.shapes, List.map_append, List.map_cons, strip]
    exact congrArg (fun ms => _ ++ combinatorNode j :: ms) after

/-- Selectors whose parts can be matched and are made of portable tokens. -/
theorem exists_selectors
    (made : ∀ n ∈ ns, n.kind = .selector ∧ n.detail = .none ∧ ∀ c ∈ n.children, Made c)
    (able : ∀ n ∈ ns, Node.AreMatchable n.children) :
    ∃ xs : List Selector, Plain.shapes ns = xs.map Selector.node := by
  induction ns with
  | nil => exact ⟨[], rfl⟩
  | cons n ns ih =>
    obtain ⟨⟨kind, detail, parts⟩, made⟩ := List.forall_mem_cons.mp made
    obtain ⟨first, able⟩ := List.forall_mem_cons.mp able
    obtain ⟨x, nodes⟩ := exists_nodes first parts
    obtain ⟨xs, shapes⟩ := ih made able
    have strip : n.strip = x.node := by
      obtain ⟨_, _, _, _⟩ := n
      cases kind
      cases detail
      rw [Plain.strip_mk, Selector.node, nodes]
    exact ⟨x :: xs, congrArg₂ List.cons strip shapes⟩

end Portable

end Stylesheet
