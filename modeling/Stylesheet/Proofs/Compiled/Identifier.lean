import Stylesheet.Proofs.Compiled.Selector
import Stylesheet.Proofs.Spelling.Fragment

/-!
# Identifiers are matched as they are written

The name of a class or of an id, and the value of an attribute that is written as an identifier, are
the characters of the identifier's token: escapes in it are not resolved, whereas those in a string
are. So a selector matches the elements that have these very characters, and only if there is no
escape among them is this the name that was meant.
-/

namespace Stylesheet

namespace Token

open Text

/-! ### What identifiers mean -/

theorem escape_pos {cs : List Char} (h : cs ≠ []) : 0 < (escape cs).1 := by
  obtain ⟨c, cs, rfl⟩ := List.exists_cons_of_ne_nil h
  rw [escape]
  split
  · rename_i hex
    refine Nat.add_pos_left (List.length_pos_of_ne_nil ?_) _
    rw [List.take_succ_cons, List.takeWhile_cons_of_pos hex]
    exact List.cons_ne_nil _ _
  · exact Nat.one_pos

/-- A name is at least as long as what it means. -/
theorem length_name_le (cs : List Char) : (name cs).2.length ≤ (name cs).1 := by
  fun_induction name cs with
  | case1 | case2 | case5 => exact Nat.le_refl _
  | case3 cs _ used meant _ rest value named ih =>
    replace ih : value.length ≤ rest := by simpa only [named] using ih
    rw [List.length_cons]
    omega
  | case4 c cs _ _ rest value named ih =>
    replace ih : value.length ≤ rest := by simpa only [named] using ih
    rw [List.length_cons]
    omega

/-- A name means its text if and only if there are no escapes in it, and no U+0000. -/
theorem name_eq_iff {cs : List Char} (whole : (name cs).1 = cs.length) :
    (name cs).2 = cs ↔ '\\' ∉ cs ∧ '\x00' ∉ cs := by
  induction cs using name.induct with
  | case1 => simp [name]
  | case2 cs line =>
    rw [name, if_pos rfl, if_pos line] at whole
    cases whole
  | case3 cs line used meant escaped _ _ _ =>
    rw [name_escaped line] at whole ⊢
    refine ⟨fun same => ?_, fun plain => absurd List.mem_cons_self plain.1⟩
    -- what the escape stands for is shorter than the escape, unless the text ends after its mark
    obtain ⟨slash, same⟩ := List.cons.inj same
    have short := length_name_le (cs.drop (escape cs).1)
    rw [same] at short
    have none : ¬0 < (escape cs).1 := by
      rw [List.length_cons] at whole
      omega
    obtain rfl : cs = [] := not_imp_comm.mp escape_pos none
    exact absurd slash (by decide)
  | case4 c cs slash char _ _ _ ih =>
    rw [name_char slash char] at whole ⊢
    have rest : (name cs).1 = cs.length := by
      rw [List.length_cons] at whole
      omega
    rw [List.cons.injEq, plain_eq_iff, ih rest, List.mem_cons, List.mem_cons, not_or, not_or]
    constructor
    · rintro ⟨null, slashes, nulls⟩
      exact ⟨⟨Ne.symm slash, slashes⟩, Ne.symm null, nulls⟩
    · rintro ⟨⟨-, slashes⟩, null, nulls⟩
      exact ⟨Ne.symm null, slashes, nulls⟩
  | case5 c cs slash char =>
    rw [name_stop slash char] at whole
    cases whole

/-! ### Scanning identifiers -/

/-- No identifier starts with a digit. -/
theorem isDigit_of_isNameStart {c : Char} (h : isNameStart c = true) : c.isDigit = false := by
  simp only [isNameStart, Bool.or_eq_true, decide_eq_true_eq] at h
  obtain ((alpha | rfl) | zero) | wide := h
  · exact isDigit_of_isAlpha alpha
  · rfl
  all_goals
    rw [Char.isDigit, Bool.and_eq_false_iff, decide_eq_false_iff_not, decide_eq_false_iff_not,
      ge_iff_le, UInt32.le_iff_toNat_le, UInt32.le_iff_toNat_le]
    change ¬48 ≤ c.toNat ∨ ¬c.toNat ≤ 57
    omega

theorem isDigit_of_startsIdent {c : Char} {cs : List Char} (h : startsIdent (c :: cs) = true) :
    c.isDigit = false := by
  unfold startsIdent at h
  split at h
  · rename_i heq
    cases heq
    rfl
  · rename_i heq
    cases heq
    rfl
  · rename_i heq
    obtain ⟨rfl, -⟩ := List.cons.inj heq
    exact isDigit_of_isNameStart h
  · cases h

namespace Lexeme

/-- An identifier token is scanned where an identifier starts. -/
theorem scan_ident {c : Char} {cs : List Char} (h : (scan c cs).kind = .ident) :
    startsIdent (c :: cs) = true ∧ scan c cs = identLike (c :: cs) := by
  obtain ⟨-, scan⟩ | scan | identLike | other := scan_cases c cs
  · rw [scan] at h
    exact absurd (h ▸ kind_numeric_mem (c :: cs)) (by decide)
  · rw [scan] at h
    exact absurd (h ▸ kind_string_mem c cs) (by decide)
  · exact identLike
  · rw [h] at other
    exact absurd other (by decide)

/-- It ends with the name there. -/
theorem identLike_eq_name {cs : List Char} (h : (identLike cs).kind = .ident) :
    identLike cs = ⟨.ident, (name cs).1 - 1, none⟩ := by
  revert h
  unfold identLike
  dsimp only
  split
  · split
    · unfold url
      dsimp only
      split
      · exact nofun
      · exact nofun
      · split <;> exact nofun
    · exact nofun
  · exact fun _ => rfl

end Lexeme

namespace Word

variable {s rest : List Char}

/-- An identifier is the name that its text starts with. -/
theorem name_of_fits (h : (ident s).Fits rest) :
    startsIdent (s ++ rest) = true ∧ (name (s ++ rest)).1 = s.length := by
  obtain ⟨c, cs, text, scanned⟩ := h
  obtain rfl : s = c :: cs := text
  have kind := congrArg Lexeme.kind scanned
  obtain ⟨starts, identLike⟩ := Lexeme.scan_ident kind
  rw [identLike] at kind scanned
  rw [Lexeme.identLike_eq_name kind] at scanned
  have pos := name_pos (.inl starts)
  have more := congrArg Lexeme.more scanned
  refine ⟨starts, ?_⟩
  rw [List.cons_append, List.length_cons, ← Nat.sub_add_cancel pos]
  exact congrArg Nat.succ more

theorem ne_nil_of_fits (h : (ident s).Fits rest) : s ≠ [] := by
  obtain ⟨c, cs, text, -⟩ := h
  obtain rfl : s = c :: cs := text
  exact List.cons_ne_nil c cs

/-- What is an identifier is a hash behind its mark. -/
theorem fits_hash_of_ident (h : (ident s).Fits rest) : (hash s).Fits rest := by
  obtain ⟨starts, length⟩ := name_of_fits h
  obtain ⟨c, cs, rfl⟩ := List.exists_cons_of_ne_nil (ne_nil_of_fits h)
  refine ⟨'#', c :: cs, rfl, ?_⟩
  rw [List.cons_append] at starts length ⊢
  rw [Lexeme.scan_hash, if_pos (.inl starts), length]
  rfl

/-- A point in front of an identifier is no part of a number. -/
theorem fits_point_of_ident (h : (ident s).Fits rest) : (single .delim '.').Fits (s ++ rest) := by
  obtain ⟨starts, -⟩ := name_of_fits h
  obtain ⟨c, cs, rfl⟩ := List.exists_cons_of_ne_nil (ne_nil_of_fits h)
  have digits : Numeral.digits (c :: cs ++ rest) = 0 := by
    rw [List.cons_append, Numeral.digits,
      List.takeWhile_cons_of_neg (by rw [isDigit_of_startsIdent starts]; exact Bool.false_ne_true)]
    rfl
  refine fits_single (scan_point ?_)
  change ('.'.isDigit ||
    (decide ('.' = '.') && decide (Numeral.digits (c :: cs ++ rest) ≠ 0))) = false
  rw [digits]
  rfl

end Word

end Token

/-! ### Compiling a single test -/

section

variable {α β : Type} (f : α → β)

theorem SimpleSelector.ofNode_map (n : Node α) :
    SimpleSelector.ofNode (n.map f) = SimpleSelector.ofNode n := by
  rw [SimpleSelector.ofNode, SimpleSelector.ofNode, Node.map_kind, Node.map_detail]

theorem Selector.read_map (p : Selector.Partial) (n : Node α) : p.read (n.map f) = p.read n := by
  rw [Partial.read, Partial.read, Node.map_kind, Node.map_detail, SimpleSelector.ofNode_map]

theorem Selector.ofNode_map (i : Nat) (n : Node α) :
    Selector.ofNode i (n.map f) = Selector.ofNode i n := by
  simp only [Selector.ofNode, Node.map_children, List.foldl_map, read_map]

/-- What a list is compiled into depends on the shape of its node alone. -/
theorem SelectorList.ofNode_map (text : String) (n : Node α) (errors : List ParseError) :
    ofNode text (n.map f) errors = ofNode text n errors := by
  have selectors : ((n.map f).children.filter fun c => c.kind = .selector) =
      (n.children.filter fun c => c.kind = .selector).map (Node.map f) := by
    simp only [Node.map_children, List.filter_map, Function.comp_def, Node.map_kind]
  rw [ofNode, ofNode, selectors]
  refine congrArg _ (List.ext_getElem (by simp) fun i hi hj => ?_)
  simp [Selector.ofNode_map]

theorem SelectorList.ofNode_sameShape {n : Node α} {m : Node β} (h : n.SameShape m) (text : String)
    (errors : List ParseError) : ofNode text n errors = ofNode text m errors := by
  rw [← ofNode_map (fun _ => ()) text n, ← ofNode_map (fun _ => ()) text m]
  exact congrArg (ofNode text · errors) h

end

namespace SelectorList

open Token (Word Forest Firm)

/-- A list of one selector that is one test. -/
def single (text : String) (x : SimpleSelector) : SelectorList := ⟨text, [], [⟨0, [[x]], [], []⟩]⟩

/-- A text that is read as one simple selector is compiled into its test. -/
theorem ofText_forest {f : Forest} {kind : NodeKind} {detail : Detail} {x : SimpleSelector}
    (fit : Word.AllFit f.words []) (room : f.depth ≤ Token.maxDepth)
    (firm : Firm (f.words.map Word.kind)) (avoids : f.avoids (· = .comma))
    (read : ∀ limit, Plain.parts limit none none ⟨f.tokens 0, f.width⟩ =
      .ok [Plain.node kind detail []])
    (simple : kind ≠ .combinator)
    (compiled : SimpleSelector.ofNode (Plain.node kind detail []) = .ok x) :
    ofText (String.ofList (Word.textOf f.words)) =
      single (String.ofList (Word.textOf f.words)) x := by
  obtain ⟨d, hd, errors, shape⟩ := Plain.parseAs_forest fit room
    (Plain.readScope_selectors firm fun limit => Plain.selectors_single firm avoids (read limit))
    {} {}
  obtain ⟨d', hd', -, text⟩ := ofText_eq (String.ofList (Word.textOf f.words))
  obtain rfl : d = d' := Except.ok.inj (hd.symm.trans hd')
  rw [text, errors, ofNode_sameShape shape]
  have node : Selector.ofNode 0 (Plain.node .selector .none [Plain.node kind detail []]) =
      ⟨0, [[x]], [], []⟩ := by
    have children : [Plain.node kind detail []].foldl Selector.Partial.read {} =
        { current := [x] } := by
      have other : (Plain.node kind detail []).kind ≠ .combinator := simple
      rw [List.foldl_cons, List.foldl_nil, Selector.Partial.read, if_neg other, compiled]
      rfl
    rw [Selector.ofNode, Plain.node, children]
    rfl
  rw [single, ← node]
  rfl

/-- What is read is one simple selector if it is read from all tokens. -/
theorem parts_single {t : Token} {ts : List Token} {kind : NodeKind} {detail : Detail}
    {limit next : Nat} (solid : t.kind.isTrivia = false)
    (other : Grammar.explicitCombinator t ⟨ts, next⟩ = none)
    (found : ∃ span, Grammar.simpleSelector limit t ⟨ts, next⟩ =
      .ok (.node (Located.leaf kind detail span), ⟨[], next⟩)) :
    Plain.parts limit none none ⟨t :: ts, next⟩ = .ok [Plain.node kind detail []] := by
  rw [Plain.parts_leaf solid other found, Plain.parts_nil]
  rfl

section

variable {s n : List Char} {w : Word}

/-- The words of a class selector. -/
def classForest (s : List Char) : Forest := Plain.delim '.' (.leaf (.ident s) Word.plain_ident .nil)

/-- The words of an id selector. -/
def idForest (s : List Char) : Forest := .leaf (.hash s) Word.plain_hash .nil

/-- The words of an attribute selector that compares an attribute with a value. -/
def testWords (n : List Char) (w : Word) : List Word :=
  [.single .leftSquare '[', .ident n, .single .delim '=', w, .single .rightSquare ']']

/-- The words of a comparison of an attribute with a value. -/
def equalForest (n : List Char) (w : Word) (plain : w.kind.isBracket = false) : Forest :=
  .leaf (.ident n) Word.plain_ident (Plain.delim '=' (.leaf w plain .nil))

theorem ofText_className (h : (Word.ident s).Fits []) :
    ofText (String.ofList ('.' :: s)) =
      single (String.ofList ('.' :: s)) (.className (String.ofList s)) := by
  have text : Word.textOf (classForest s).words = '.' :: s :=
    congrArg ('.' :: ·) (List.append_nil s)
  have point : (Word.single .delim '.').Fits ((s ++ []) ++ []) := by
    rw [List.append_nil]
    exact Word.fits_point_of_ident h
  have read (limit : Nat) :
      Plain.parts limit none none ⟨(classForest s).tokens 0, (classForest s).width⟩ =
        .ok [Plain.node .classSelector (.name (String.ofList s)) []] := by
    refine parts_single rfl (Plain.explicitCombinator_of_delim Plain.delim?_single (by decide)) ?_
    simp only [Grammar.simpleSelector, Word.token_kind, Word.kind_single, Plain.delim?_single]
    exact ⟨_, rfl⟩
  rw [← text]
  refine ofText_forest ⟨point, h, trivial⟩ (Nat.zero_le _)
    (.append (.singleton rfl) (.singleton rfl)) rfl read (by decide) ?_
  simp [SimpleSelector.ofNode, SimpleSelector.ofName, Plain.node, Detail.name?,
    Word.ne_nil_of_fits h]

theorem ofText_id (h : (Word.ident s).Fits []) :
    ofText (String.ofList ('#' :: s)) =
      single (String.ofList ('#' :: s)) (.id (String.ofList s)) := by
  have text : Word.textOf (idForest s).words = '#' :: s :=
    congrArg ('#' :: ·) (List.append_nil s)
  have name : (String.ofList ('#' :: s)).toList.tail = s := by
    rw [String.toList_ofList, List.tail_cons]
  have read (limit : Nat) :
      Plain.parts limit none none ⟨(idForest s).tokens 0, (idForest s).width⟩ =
        .ok [Plain.node .idSelector (.name (String.ofList s)) []] := by
    refine parts_single rfl (Plain.explicitCombinator_of_kind nofun) ?_
    simp only [Grammar.simpleSelector, Word.token_kind, Word.token_text, Word.hash, name]
    exact ⟨_, rfl⟩
  rw [← text]
  refine ofText_forest ⟨Word.fits_hash_of_ident h, trivial⟩ (Nat.zero_le _)
    (.singleton rfl) rfl read (by decide) ?_
  simp [SimpleSelector.ofNode, SimpleSelector.ofName, Plain.node, Detail.name?,
    Word.ne_nil_of_fits h]

/-- The test of an attribute is read with the value that is read from its word. -/
theorem attributeTest_equals {plain : w.kind.isBracket = false} {value : AttributeValue}
    {close : Nat} (read : ∀ o, Grammar.attributeValue close [w.token o] = .ok (value, []))
    (o : Nat) : Grammar.attributeTest close ((equalForest n w plain).tokens o) =
      .ok (.attr (String.ofList n) (some "=") (some value) none) := by
  have matcher (p : Nat) (ts : List Token) :
      Grammar.attributeMatcher ((Word.single .delim '=').token p) ts = .ok ("=", ts) := by
    rw [Grammar.attributeMatcher, Plain.delim?_single]
    rfl
  have solid (p : Nat) (ts : List Token) :
      Token.significant ((Word.single .delim '=').token p :: ts) =
        (Word.single .delim '=').token p :: ts := rfl
  rw [equalForest, Plain.delim, Forest.tokens, Forest.tokens, Forest.tokens, Forest.tokens,
    Grammar.attributeTest, Plain.attributeName_plain rfl
      (by rw [List.head?_cons, Option.any_some, Plain.isDelim_single]; exact Bool.false_ne_true)]
  simp only [bind, Except.bind, solid, matcher, read]
  rfl

theorem ofText_test (plain : w.kind.isBracket = false) (value : AttributeValue)
    (fit : Word.AllFit (testWords n w) [])
    (read : ∀ close o, Grammar.attributeValue close [w.token o] = .ok (value, [])) :
    let text := String.ofList (Word.textOf (testWords n w))
    ofText text =
      single text (.attr (Text.lower (String.ofList n)) (some .equals) (some value.text) none) := by
  have parts (limit : Nat) :
      let f := Plain.squares (equalForest n w plain)
      Plain.parts limit none none ⟨f.tokens 0, f.width⟩ =
        .ok [Plain.node .attributeSelector (.attr (String.ofList n) (some "=") (some value) none)
          []] := by
    intro f
    refine parts_single rfl (Plain.explicitCombinator_of_kind nofun) ?_
    simp only [Grammar.simpleSelector, Word.token_kind, Word.kind_single]
    exact Plain.attributeSelector_closed (by rw [Forest.length_tokens])
      (attributeTest_equals (read _) _)
  have nonempty : n ≠ [] := Word.ne_nil_of_fits fit.2.1
  have operator : Matcher.ofOperator? "=" = some .equals := rfl
  refine ofText_forest (f := Plain.squares (equalForest n w plain)) fit
    (show 1 ≤ Token.maxDepth by decide) (Token.firm_block _) rfl parts
    (by decide) ?_
  simp [SimpleSelector.ofNode, Plain.node, nonempty, operator]

end

/-! ### What identifiers match -/

section

variable {root : Element} {text : String} {x : SimpleSelector} {p : Nat}

theorem selects_single : (single text x).Selects root p ↔
    ∃ e, root.nodes[p]? = some e ∧ e.isElement = true ∧ x.test e = true := by
  simp [Selects, single, Selector.supported, Selector.Matches, Selector.MatchesThrough,
    Selector.SatisfiedAt]

/-- A list of one test finds the elements that pass it. -/
theorem query_single (text : String) (x : SimpleSelector) (root : Element) (strict : Bool) :
    ∃ found, (single text x).query root { strict } = .ok found ∧
      ∀ p, p ∈ found ↔ ∃ e, root.nodes[p]? = some e ∧ e.isElement = true ∧ x.test e = true := by
  have within : ∀ l, (none : Option Nat) = some l → root.size ≤ l := nofun
  obtain ⟨index, built, nodes, parents⟩ := TreeIndex.build_eq_ok within
  have d : index.Describes root := ⟨nodes, parents⟩
  have indexed : SelectorList.index root { strict } = .ok index := by
    simp [SelectorList.index, built]
  have able : (single text x).supported = true := rfl
  have wellFormed : ∀ s ∈ (single text x).selectors, s.supported → s.WellFormed := by
    rintro s hs -
    obtain rfl := List.mem_singleton.mp hs
    exact ⟨rfl, by simp⟩
  refine ⟨index.elements.filter (index.isMatchOfAny (single text x)), ?_, fun p => ?_⟩
  · simp [query, checkStrict_supported able, indexed, bind, Except.bind]
  · rw [List.mem_filter, mem_elements_iff d, isMatchOfAny_iff d wellFormed, ← selects_single]
    exact and_iff_right_of_imp Selects.isElementAt

end

/-- What the query of a text finds in any tree: the elements with some property. -/
def Finds (text : List Char) (holds : Element → Prop) : Prop :=
  ∀ (root : Element) (strict : Bool), ∃ found,
    (ofText (String.ofList text)).query root { strict } = .ok found ∧
      ∀ p, p ∈ found ↔ ∃ e, root.nodes[p]? = some e ∧ e.isElement = true ∧ holds e

/-- Selectors with the identifier `s` match what `v` says: the elements that have the class `v`,
those that have the id `v`, and for any attribute the same elements as with a string whose value is
`v`. -/
structure MatchedAs (s v : List Char) : Prop where
  className : Finds ('.' :: s) fun e =>
    ∃ classes, e.valueOf? "class" = some classes ∧ String.ofList v ∈ Text.words classes
  id : Finds ('#' :: s) fun e => e.valueOf? "id" = some (String.ofList v)
  attr (n : List Char) (q : Word) (string : q.kind = .string)
    (value : q.value = some (String.ofList v))
    (named : Word.AllFit (testWords n (.ident s)) []) (quoted : Word.AllFit (testWords n q) [])
    (root : Element) (options : QueryOptions) :
    (ofText (String.ofList (Word.textOf (testWords n (.ident s))))).query root options =
      (ofText (String.ofList (Word.textOf (testWords n q)))).query root options

section

variable {s v : List Char}

theorem finds_of_single {text : List Char} {x : SimpleSelector} {holds : Element → Prop}
    (compiled : ofText (String.ofList text) = single (String.ofList text) x)
    (tests : ∀ e, x.test e = true ↔ holds e) : Finds text holds := by
  intro root strict
  obtain ⟨found, query, mem⟩ := query_single (String.ofList text) x root strict
  refine ⟨found, compiled ▸ query, fun p => (mem p).trans ?_⟩
  simp only [tests]

theorem finds_className (h : (Word.ident s).Fits []) : Finds ('.' :: s) fun e =>
    ∃ classes, e.valueOf? "class" = some classes ∧ String.ofList s ∈ Text.words classes :=
  finds_of_single (ofText_className h) fun e => by
    simp [SimpleSelector.test, Option.any_eq_true]

theorem finds_id (h : (Word.ident s).Fits []) :
    Finds ('#' :: s) fun e => e.valueOf? "id" = some (String.ofList s) :=
  finds_of_single (ofText_id h) fun e => by simp [SimpleSelector.test]

/-- Only one property of elements is what a text finds. -/
theorem Finds.unique {text : List Char} {holds holds' : Element → Prop} (h : Finds text holds)
    (h' : Finds text holds') {e : Element} (element : e.isElement = true) : holds e ↔ holds' e := by
  obtain ⟨found, query, mem⟩ := h e false
  obtain ⟨found', query', mem'⟩ := h' e false
  obtain rfl : found = found' := Except.ok.inj (query.symm.trans query')
  have first : e.nodes[0]? = some e := by
    cases e
    rfl
  simpa [first, element] using (mem 0).symm.trans (mem' 0)

/-- The value of an attribute that is written as an identifier is its text, and that of a string is
what it says. -/
theorem query_test_eq {n : List Char} {q : Word} (string : q.kind = .string)
    (value : q.value = some (String.ofList s)) (named : Word.AllFit (testWords n (.ident s)) [])
    (quoted : Word.AllFit (testWords n q) []) (root : Element) (options : QueryOptions) :
    (ofText (String.ofList (Word.textOf (testWords n (.ident s))))).query root options =
      (ofText (String.ofList (Word.textOf (testWords n q)))).query root options := by
  have plain : q.kind.isBracket = false := by
    rw [string]
    rfl
  have identifier := ofText_test Word.plain_ident (.identifier (String.ofList s)) named
    fun _ _ => rfl
  have read (close o : Nat) : Grammar.attributeValue close [q.token o] =
      .ok (.string (String.ofList s), []) := by
    have solid : Token.significant [q.token o] = [q.token o] :=
      List.dropWhile_cons_of_neg (by rw [Word.token_kind, string]; exact nofun)
    simp only [Grammar.attributeValue, solid, Word.token_kind, string]
    rw [Word.token, value]
    rfl
  rw [identifier, ofText_test plain _ quoted read]
  rfl

/-- Only its text is what the value of an identifier can be: an element whose id is any other value
is not found. -/
theorem MatchedAs.eq (h : (Word.ident s).Fits []) (matched : MatchedAs s v) : v = s := by
  let e : Element := ⟨true, none, [("id", String.ofList v)], []⟩
  have id : e.valueOf? "id" = some (String.ofList v) := by
    simp [e, Element.valueOf?, Text.sameName_refl]
  have same : e.valueOf? "id" = some (String.ofList s) :=
    (matched.id.unique (finds_id h) rfl).mp id
  exact String.ofList_injective (Option.some.inj (id.symm.trans same))

/-- Identifiers are matched as they are written: the value that one is matched as is its text,
escapes and all. So it is matched as what it means if and only if there are no escapes in it, and no
U+0000. -/
theorem matchedAs_iff (h : (Word.ident s).Fits []) :
    (∀ v, MatchedAs s v ↔ v = s) ∧
      (MatchedAs s (Token.name s).2 ↔ '\\' ∉ s ∧ '\x00' ∉ s) := by
  have written (v : List Char) : MatchedAs s v ↔ v = s := by
    constructor
    · exact MatchedAs.eq h
    · rintro rfl
      exact ⟨finds_className h, finds_id h, fun n q => query_test_eq⟩
  have whole : (Token.name s).1 = s.length := by
    have named := (Word.name_of_fits h).2
    rwa [List.append_nil] at named
  exact ⟨written, (written _).trans (Token.name_eq_iff whole)⟩

/-- A name without escapes is matched as what it means. -/
theorem matchedAs_note : (Word.ident ['n', 'o', 't', 'e']).Fits [] ∧
    MatchedAs ['n', 'o', 't', 'e'] (Token.name ['n', 'o', 't', 'e']).2 := by
  have fits : (Word.ident ['n', 'o', 't', 'e']).Fits [] := Word.fits_ident (by decide) rfl
  exact ⟨fits, (matchedAs_iff fits).2.mpr (by decide)⟩

/-- The name `b` is not matched if it is written as `\62`. -/
theorem not_matchedAs_escaped : (Word.ident ['\\', '6', '2']).Fits [] ∧
    (Token.name ['\\', '6', '2']).2 = ['b'] ∧ ¬MatchedAs ['\\', '6', '2'] ['b'] := by
  have fits : (Word.ident ['\\', '6', '2']).Fits [] := ⟨'\\', ['6', '2'], rfl, by decide +kernel⟩
  refine ⟨fits, by decide +kernel, fun matched => ?_⟩
  exact absurd (matched.eq fits) (by decide)

end

end SelectorList

end Stylesheet
