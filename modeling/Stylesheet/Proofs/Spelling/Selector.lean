import Stylesheet.Proofs.Spelling.Value
import Stylesheet.Selector

/-!
# Plain selectors

A plain selector is a sequence of compounds with one combinator between any two of them. A compound
is an optional type selector and then simple selectors, of which the functional pseudo-classes hold
lists of plain selectors again. All names are plain.

The words of a list of plain selectors make up its canonical text, they are scanned as written, and
the selectors that are read from their tokens are those of the list.
-/

namespace Stylesheet

namespace Plain

open Token (Word Forest Firm)

/-- A type selector: `*`, or a name that may have a namespace. -/
inductive TypeName where
  | universal
  | named (name : Name)
  | qualified (space name : Name)

/-- The value that an attribute is compared with. -/
inductive Operand where
  | identifier (name : Name)
  | string (content : Content)

/-- What is asked of the value of an attribute. -/
structure Test where
  matcher : Matcher
  operand : Operand
  flag : Option Name

/-- An attribute selector. -/
structure Attribute where
  name : Name
  test : Option Test

/-- What joins two compounds. -/
inductive Joiner where
  | descendant
  | child
  | next
  | subsequent
  | column
  deriving DecidableEq, Repr

mutual

/-- A simple selector other than a type selector. -/
inductive Simple where
  | id (name : Name)
  | className (name : Name)
  | attr (a : Attribute)
  | pseudoClass (name : Name)
  | pseudoElement (name : Name)
  | nesting
  | functional (name : Name) (takes : Grammar.takesSelectors name.text = true)
      (selectors : Selectors)

/-- Simple selectors one after the other. -/
inductive Simples where
  | none
  | some (first : Simple) (more : Simples)

/-- At least one simple selector, of which the first may be a type selector. -/
inductive Compound where
  | typed (name : TypeName) (more : Simples)
  | untyped (first : Simple) (more : Simples)

/-- At least one compound, with combinators between them. -/
inductive Selector where
  | last (compound : Compound)
  | join (compound : Compound) (joiner : Joiner) (rest : Selector)

/-- At least one selector. -/
inductive Selectors where
  | last (selector : Selector)
  | more (selector : Selector) (rest : Selectors)

end

/-! ### As nodes -/

/-- The name of a type selector. -/
def TypeName.text : TypeName → String
  | universal => "*"
  | named name => name.text
  | qualified space name => space.text ++ "|" ++ name.text

/-- The value as it is kept in a node. -/
def Operand.value : Operand → AttributeValue
  | identifier name => .identifier name.text
  | string content => .string content.text

/-- The detail of an attribute selector. -/
def Attribute.detail (a : Attribute) : Detail :=
  match a.test with
  | none => .attr a.name.text none none none
  | some t =>
    .attr a.name.text (some t.matcher.operator) (some t.operand.value) (t.flag.map Name.text)

/-- The combinator as written. -/
def Joiner.symbol : Joiner → String
  | descendant => " "
  | child => ">"
  | next => "+"
  | subsequent => "~"
  | column => "||"

/-- The node of a combinator. -/
def Joiner.node (j : Joiner) : Node Unit := Plain.node .combinator (.name j.symbol) []

mutual

/-- The node of a simple selector. -/
def Simple.node : Simple → Node Unit
  | .id name => Plain.node .idSelector (.name name.text) []
  | .className name => Plain.node .classSelector (.name name.text) []
  | .attr a => Plain.node .attributeSelector a.detail []
  | .pseudoClass name => Plain.node .pseudoClassSelector (.name name.text) []
  | .pseudoElement name => Plain.node .pseudoElementSelector (.name name.text) []
  | .nesting => Plain.node .nestingSelector .none []
  | .functional name _ selectors =>
    Plain.node .pseudoClassSelector (.name name.text)
      [Plain.node .selectorList .none selectors.nodes]

/-- The nodes of simple selectors. -/
def Simples.nodes : Simples → List (Node Unit)
  | .none => []
  | .some first more => first.node :: more.nodes

/-- The nodes of a compound. -/
def Compound.nodes : Compound → List (Node Unit)
  | .typed name more => Plain.node .typeSelector (.name name.text) [] :: more.nodes
  | .untyped first more => first.node :: more.nodes

/-- The nodes of the compounds and combinators of a selector. -/
def Selector.nodes : Selector → List (Node Unit)
  | .last compound => compound.nodes
  | .join compound joiner rest => compound.nodes ++ joiner.node :: rest.nodes

/-- The nodes of some selectors. -/
def Selectors.nodes : Selectors → List (Node Unit)
  | .last selector => [Plain.node .selector .none selector.nodes]
  | .more selector rest => Plain.node .selector .none selector.nodes :: rest.nodes

end

/-- The node of a list of selectors. -/
def Selectors.node (l : Selectors) : Node Unit := Plain.node .selectorList .none l.nodes

/-! ### As words -/

/-- A delimiter in front of other words. -/
def delim (c : Char) (rest : Forest) : Forest :=
  .leaf (.single .delim c) (Word.plain_single (by decide)) rest

/-- White space in front of other words. -/
def space (rest : Forest) : Forest :=
  .leaf (.single .whiteSpace ' ') (Word.plain_single (by decide)) rest

/-- The words of a type selector. -/
def TypeName.forest : TypeName → Forest
  | universal => delim '*' .nil
  | named name => name.before .nil
  | qualified space name => space.before (delim '|' (name.before .nil))

/-- The words of a matcher. -/
def matcherForest : Matcher → Forest
  | .equals => delim '=' .nil
  | .includes => delim '~' (delim '=' .nil)
  | .dashMatch => delim '|' (delim '=' .nil)
  | .startsWith => delim '^' (delim '=' .nil)
  | .endsWith => delim '$' (delim '=' .nil)
  | .contains => delim '*' (delim '=' .nil)

/-- The words of a value that an attribute is compared with. -/
def Operand.forest : Operand → Forest
  | identifier name => name.before .nil
  | string content => content.quoted

/-- The words of a flag. -/
def flagForest : Option Name → Forest
  | none => .nil
  | some name => space (name.before .nil)

/-- The words of what is asked of a value. -/
def Test.forest (t : Test) : Forest :=
  matcherForest t.matcher ++ (t.operand.forest ++ flagForest t.flag)

/-- The words of an attribute selector. -/
def Attribute.forest (a : Attribute) : Forest :=
  squares (a.name.before ((a.test.map Test.forest).getD .nil))

/-- The words of a combinator. -/
def Joiner.forest : Joiner → Forest
  | descendant => space .nil
  | child => delim '>' .nil
  | next => delim '+' .nil
  | subsequent => delim '~' .nil
  | column => delim '|' (delim '|' .nil)

mutual

/-- The words of a simple selector. -/
def Simple.forest : Simple → Forest
  | .id name => name.hashed
  | .className name => delim '.' (name.before .nil)
  | .attr a => a.forest
  | .pseudoClass name => colon (name.before .nil)
  | .pseudoElement name => colon (colon (name.before .nil))
  | .nesting => delim '&' .nil
  | .functional name _ selectors => colon (name.calling selectors.forest)

/-- The words of simple selectors. -/
def Simples.forest : Simples → Forest
  | .none => .nil
  | .some first more => first.forest ++ more.forest

/-- The words of a compound. -/
def Compound.forest : Compound → Forest
  | .typed name more => name.forest ++ more.forest
  | .untyped first more => first.forest ++ more.forest

/-- The words of a selector. -/
def Selector.forest : Selector → Forest
  | .last compound => compound.forest
  | .join compound joiner rest => compound.forest ++ (joiner.forest ++ rest.forest)

/-- The words of some selectors. -/
def Selectors.forest : Selectors → Forest
  | .last selector => selector.forest
  | .more selector rest =>
    selector.forest ++
      .leaf (.single .comma ',') (Word.plain_single (by decide)) rest.forest

end

/-! ### Writing -/

theorem TypeName.toList_text (t : TypeName) : t.text.toList = Word.textOf t.forest.words := by
  cases t <;>
    simp [text, forest, delim, Name.before, Name.text, Word.ident, Word.single]

theorem Operand.toList_value (v : Operand) :
    (Canonical.attributeValue v.value).toList = Word.textOf v.forest.words := by
  cases v <;>
    simp [value, forest, Canonical.attributeValue, Canonical.quoted, Name.before, Name.text,
      Content.text, Word.ident, Word.string]

theorem toList_operator (m : Matcher) :
    m.operator.toList = Word.textOf (matcherForest m).words := by
  cases m <;> rfl

theorem Attribute.toList_generate (a : Attribute) :
    (Plain.node .attributeSelector a.detail []).generate.toList =
      Word.textOf a.forest.words := by
  obtain ⟨name, test⟩ := a
  cases test with
  | none =>
    simp [detail, forest, generate_node, Canonical.compose, Canonical.attributeSelector,
      Name.before, Name.text, Word.ident, Word.single]
  | some t =>
    obtain ⟨matcher, operand, flag⟩ := t
    cases flag <;>
      simp [detail, forest, Test.forest, flagForest, space, generate_node, Canonical.compose,
        Canonical.attributeSelector, Name.before, Name.text, Word.ident, Word.single,
        toList_operator, Operand.toList_value]

theorem Joiner.toList_generate (j : Joiner) :
    j.node.generate.toList = Word.textOf j.forest.words := by
  cases j <;> rfl

/-- The canonical texts of some nodes with commas between them. -/
def commaSeparated (ns : List (Node Unit)) : List Char :=
  (Canonical.commaSeparated (Node.generateAll ns)).toList

theorem commaSeparated_singleton (n : Node Unit) :
    commaSeparated [n] = n.generate.toList := rfl

theorem commaSeparated_cons (n m : Node Unit) (ns : List (Node Unit)) :
    commaSeparated (n :: m :: ns) =
      n.generate.toList ++ ',' :: commaSeparated (m :: ns) := by
  simp only [commaSeparated, Canonical.commaSeparated, Node.generateAll_eq_map, List.map_cons,
    String.toList_intercalate, List.intercalate_cons_cons]
  simp

theorem written_append (ns ms : List (Node Unit)) :
    written (ns ++ ms) = written ns ++ written ms := List.flatMap_append

theorem toList_selector (ns : List (Node Unit)) :
    (Plain.node .selector .none ns).generate.toList = written ns := toList_plain ns

mutual

theorem Simple.toList_generate :
    ∀ x : Simple, x.node.generate.toList = Word.textOf x.forest.words
  | .id name | .className name | .pseudoClass name | .pseudoElement name => by
    simp [Simple.node, Simple.forest, generate_node, Canonical.compose, Canonical.pseudo,
      Node.generateAll, Detail.label?, Detail.name?, delim, colon, Name.before, Name.text,
      Word.ident, Word.hash, Word.single]
  | .nesting => rfl
  | .attr a => a.toList_generate
  | .functional name takes selectors => by
    have inner : (Plain.node .selectorList .none selectors.nodes).generate.toList =
        Word.textOf selectors.forest.words := Selectors.commaSeparated_nodes selectors
    have text : (Simple.functional name takes selectors).node.generate =
        ":" ++ (name.text ++ "(" ++ Canonical.plain (Node.generateAll
          [Plain.node .selectorList .none selectors.nodes]) ++ ")") := rfl
    rw [text]
    simp [toList_plain, inner, Simple.forest, colon, Name.text, Word.function, Word.single]

theorem Simples.written_nodes :
    ∀ xs : Simples, written xs.nodes = Word.textOf xs.forest.words
  | .none => rfl
  | .some first more => by
    rw [Simples.nodes, written_cons, Simple.toList_generate first, Simples.written_nodes more,
      Simples.forest, Forest.words_append, Word.textOf_append]

theorem Compound.written_nodes :
    ∀ c : Compound, written c.nodes = Word.textOf c.forest.words
  | .typed name more => by
    rw [Compound.nodes, written_cons, Simples.written_nodes more, Compound.forest,
      Forest.words_append, Word.textOf_append, ← name.toList_text]
    rfl
  | .untyped first more => by
    rw [Compound.nodes, written_cons, Simple.toList_generate first, Simples.written_nodes more,
      Compound.forest, Forest.words_append, Word.textOf_append]

theorem Selector.written_nodes :
    ∀ x : Selector, written x.nodes = Word.textOf x.forest.words
  | .last compound => Compound.written_nodes compound
  | .join compound joiner rest => by
    rw [Selector.nodes, written_append, written_cons, Compound.written_nodes compound,
      joiner.toList_generate, Selector.written_nodes rest, Selector.forest, Forest.words_append,
      Forest.words_append, Word.textOf_append, Word.textOf_append]

theorem Selectors.commaSeparated_nodes :
    ∀ l : Selectors, commaSeparated l.nodes = Word.textOf l.forest.words
  | .last selector => by
    rw [Selectors.nodes, commaSeparated_singleton, toList_selector,
      Selector.written_nodes selector, Selectors.forest]
  | .more selector rest => by
    have tail := Selectors.commaSeparated_nodes rest
    obtain ⟨m, ms, hm⟩ : ∃ m ms, rest.nodes = m :: ms := by
      cases rest <;> exact ⟨_, _, rfl⟩
    rw [hm] at tail
    rw [Selectors.nodes, hm, commaSeparated_cons, toList_selector,
      Selector.written_nodes selector, tail, Selectors.forest, Forest.words_append,
      Word.textOf_append]
    rfl

end

theorem Selectors.toList_generate (l : Selectors) :
    l.node.generate.toList = Word.textOf l.forest.words := l.commaSeparated_nodes

/-! ### Scanning -/

/-- A text goes on neither with a blank nor, after a plus sign, with a numeral. -/
def startsCompound (cs : List Char) : Bool :=
  cs.head?.all (fun d => !Text.isBlank d) && !Token.Numeral.starts ('+' :: cs)

theorem startsCompound_name (n : Name) (rest : List Char) : startsCompound (n.chars ++ rest) := by
  obtain ⟨d, ds, hn, alpha, -⟩ := Token.exists_of_isPlainName n.plain
  have point : d ≠ '.' := by
    rintro rfl
    revert alpha
    decide
  simp [hn, startsCompound, Token.isBlank_of_isAlpha alpha, Token.Numeral.starts,
    Token.Numeral.sign, Token.isDigit_of_isAlpha alpha, point]

/-- A point in front of a name starts no numeral, signed or not. -/
theorem starts_point (n : Name) (rest : List Char) :
    Token.Numeral.starts ('.' :: (n.chars ++ rest)) = false ∧
      Token.Numeral.starts ('+' :: '.' :: (n.chars ++ rest)) = false := by
  obtain ⟨d, ds, hn, alpha, -⟩ := Token.exists_of_isPlainName n.plain
  simp [hn, Token.Numeral.starts, Token.Numeral.sign, Token.digits_of_isAlpha alpha]

theorem TypeName.startsCompound (t : TypeName) (rest : List Char) :
    startsCompound (Word.textOf t.forest.words ++ rest) := by
  cases t with
  | universal => rfl
  | named n | qualified n _ =>
    simp only [forest, Name.before, Forest.words, Word.textOf_cons, Word.ident, List.append_assoc]
    exact startsCompound_name n _

theorem Simple.startsCompound (x : Simple) (rest : List Char) :
    startsCompound (Word.textOf x.forest.words ++ rest) := by
  cases x with
  | className n =>
    have point := (starts_point n rest).2
    simp only [Simple.forest, delim, Name.before, Forest.words, Word.textOf, Word.ident,
      Word.single, List.flatMap_cons, List.flatMap_nil, List.append_nil, List.cons_append,
      List.nil_append, Plain.startsCompound, point]
    rfl
  | id | attr | pseudoClass | pseudoElement | nesting | functional => rfl

theorem Compound.startsCompound (c : Compound) (rest : List Char) :
    startsCompound (Word.textOf c.forest.words ++ rest) := by
  cases c with
  | typed name more =>
    rw [Compound.forest, Forest.words_append, Word.textOf_append, List.append_assoc]
    exact name.startsCompound _
  | untyped first more =>
    rw [Compound.forest, Forest.words_append, Word.textOf_append, List.append_assoc]
    exact first.startsCompound _

theorem Selector.startsCompound (x : Selector) (rest : List Char) :
    startsCompound (Word.textOf x.forest.words ++ rest) := by
  cases x with
  | last compound => exact compound.startsCompound rest
  | join compound joiner more =>
    rw [Selector.forest, Forest.words_append, Word.textOf_append, List.append_assoc]
    exact compound.startsCompound _

theorem Joiner.fits (j : Joiner) {rest : List Char} (h : startsCompound rest) :
    Word.AllFit j.forest.words rest := by
  rw [Plain.startsCompound, Bool.and_eq_true, Bool.not_eq_true'] at h
  cases j with
  | descendant => exact ⟨Word.fits_single (Token.scan_space h.1), trivial⟩
  | child => exact ⟨Word.fits_single rfl, trivial⟩
  | next => exact ⟨Word.fits_single (Token.scan_sign h.2), trivial⟩
  | subsequent => exact ⟨Word.fits_single rfl, trivial⟩
  | column => exact ⟨Word.fits_single rfl, Word.fits_single rfl, trivial⟩

theorem Joiner.endsName (j : Joiner) (rest : List Char) :
    Token.endsName (Word.textOf j.forest.words ++ rest) := by
  cases j <;> rfl

theorem TypeName.fits (t : TypeName) {rest : List Char} (h : Token.endsName rest) :
    Word.AllFit t.forest.words rest := by
  cases t with
  | universal => exact ⟨Word.fits_single rfl, trivial⟩
  | named n => exact ⟨Word.fits_ident n.plain h, trivial⟩
  | qualified space n =>
    exact ⟨Word.fits_ident space.plain rfl, Word.fits_single rfl, Word.fits_ident n.plain h,
      trivial⟩

theorem matcher_fits (m : Matcher) (rest : List Char) :
    Word.AllFit (matcherForest m).words rest := by
  cases m with
  | equals => exact ⟨Word.fits_single rfl, trivial⟩
  | includes | dashMatch | startsWith | endsWith | contains =>
    exact ⟨Word.fits_single rfl, Word.fits_single rfl, trivial⟩

theorem Operand.fits (v : Operand) {rest : List Char} (h : Token.endsName rest) :
    Word.AllFit v.forest.words rest := by
  cases v with
  | identifier n => exact ⟨Word.fits_ident n.plain h, trivial⟩
  | string content => exact ⟨Word.fits_string content.nonzero, trivial⟩

/-- What is asked of a value is scanned as written in front of the closing bracket. -/
theorem Test.fits (t : Test) (rest : List Char) : Word.AllFit t.forest.words (']' :: rest) := by
  obtain ⟨matcher, operand, flag⟩ := t
  rw [Test.forest, Forest.words_append, Forest.words_append, Word.allFit_append,
    Word.allFit_append]
  cases flag with
  | none => exact ⟨matcher_fits _ _, operand.fits rfl, trivial⟩
  | some n =>
    obtain ⟨d, ds, hn, alpha, -⟩ := Token.exists_of_isPlainName n.plain
    have blank : (Word.textOf (n.before .nil).words ++ ']' :: rest).head?.all
        fun c => !Text.isBlank c := by
      simp [Name.before, Word.ident, hn, Token.isBlank_of_isAlpha alpha]
    exact ⟨matcher_fits _ _, operand.fits rfl, Word.fits_single (Token.scan_space blank),
      Word.fits_ident n.plain rfl, trivial⟩

theorem Attribute.fits (a : Attribute) (rest : List Char) : Word.AllFit a.forest.words rest := by
  obtain ⟨name, test⟩ := a
  refine ⟨Word.fits_single rfl, ?_⟩
  cases test with
  | none => exact ⟨Word.fits_ident name.plain rfl, Word.fits_single rfl, trivial⟩
  | some t =>
    have matcher (cs : List Char) :
        Token.endsName (Word.textOf t.forest.words ++ cs) := by
      obtain ⟨matcher, operand, flag⟩ := t
      cases matcher <;> rfl
    simp only [Name.before, Option.map_some, Option.getD_some, Forest.words_leaf,
      List.cons_append]
    refine ⟨Word.fits_ident name.plain ?_, Word.allFit_append.mpr
      ⟨t.fits rest, Word.fits_single rfl, trivial⟩⟩
    rw [Word.textOf_append, List.append_assoc]
    exact matcher _

theorem Simples.endsName {rest : List Char} (h : Token.endsName rest) (xs : Simples) :
    Token.endsName (Word.textOf xs.forest.words ++ rest) := by
  cases xs with
  | none => exact h
  | some first more => cases first <;> rfl

/-- A name whose functions take selectors is not `url`. -/
theorem Name.ne_url {n : Name} (takes : Grammar.takesSelectors n.text = true) :
    n.chars.map Char.toLower ≠ ['u', 'r', 'l'] := by
  intro url
  simp only [Grammar.takesSelectors, Text.sameName, Name.text, String.toList_ofList, url] at takes
  revert takes
  decide

mutual

theorem Simple.fits {rest : List Char} (h : Token.endsName rest) :
    ∀ x : Simple, Word.AllFit x.forest.words rest
  | .id n => ⟨Word.fits_hash n.plain (Token.stopsName_of_endsName h), trivial⟩
  | .className n => by
    have point := (starts_point n rest).1
    rw [Simple.forest, delim, Name.before, Forest.words_leaf, Forest.words_leaf, Forest.words_nil]
    refine ⟨Word.fits_single (Token.scan_point ?_), Word.fits_ident n.plain h, trivial⟩
    rwa [Word.textOf_cons, Word.textOf_nil, List.append_nil]
  | .attr a => a.fits rest
  | .pseudoClass n => ⟨Word.fits_single rfl, Word.fits_ident n.plain h, trivial⟩
  | .pseudoElement n =>
    ⟨Word.fits_single rfl, Word.fits_single rfl, Word.fits_ident n.plain h, trivial⟩
  | .nesting => ⟨Word.fits_single rfl, trivial⟩
  | .functional n takes selectors =>
    ⟨Word.fits_single rfl, Word.fits_function n.plain (Name.ne_url takes), Word.allFit_append.mpr
      ⟨Selectors.fits (by rfl) selectors, Word.fits_single rfl, trivial⟩⟩

theorem Simples.fits {rest : List Char} (h : Token.endsName rest) :
    ∀ xs : Simples, Word.AllFit xs.forest.words rest
  | .none => trivial
  | .some first more => by
    rw [Simples.forest, Forest.words_append, Word.allFit_append]
    exact ⟨Simple.fits (more.endsName h) first, Simples.fits h more⟩

theorem Compound.fits {rest : List Char} (h : Token.endsName rest) :
    ∀ c : Compound, Word.AllFit c.forest.words rest
  | .typed name more => by
    rw [Compound.forest, Forest.words_append, Word.allFit_append]
    exact ⟨name.fits (more.endsName h), Simples.fits h more⟩
  | .untyped first more => by
    rw [Compound.forest, Forest.words_append, Word.allFit_append]
    exact ⟨Simple.fits (more.endsName h) first, Simples.fits h more⟩

theorem Selector.fits {rest : List Char} (h : Token.endsName rest) :
    ∀ x : Selector, Word.AllFit x.forest.words rest
  | .last compound => Compound.fits h compound
  | .join compound joiner more => by
    rw [Selector.forest, Forest.words_append, Forest.words_append, Word.allFit_append,
      Word.allFit_append, Word.textOf_append, List.append_assoc]
    exact ⟨Compound.fits (joiner.endsName _) compound, joiner.fits (more.startsCompound rest),
      Selector.fits h more⟩

theorem Selectors.fits {rest : List Char} (h : Token.endsName rest) :
    ∀ l : Selectors, Word.AllFit l.forest.words rest
  | .last selector => Selector.fits h selector
  | .more selector more => by
    rw [Selectors.forest, Forest.words_append, Word.allFit_append]
    exact ⟨Selector.fits (by rfl) selector, Word.fits_single rfl, Selectors.fits h more⟩

end

/-! ### What stands in a selector -/

theorem TypeName.firm (t : TypeName) : Firm (t.forest.words.map Word.kind) := by
  cases t with
  | universal | named => exact .singleton rfl
  | qualified => exact Firm.join (.singleton rfl) (.singleton rfl) [.delim]

theorem Simple.firm (x : Simple) : Firm (x.forest.words.map Word.kind) := by
  cases x with
  | id | nesting => exact .singleton rfl
  | className | pseudoClass => exact Firm.append (.singleton rfl) (.singleton rfl)
  | pseudoElement => exact Firm.join (.singleton rfl) (.singleton rfl) [.colon]
  | attr => exact Token.firm_block _
  | functional => exact Firm.append (.singleton rfl) (Token.firm_block Word.paired_function)

theorem Simples.firm {ks : List Token.Kind} (h : Firm ks) :
    ∀ xs : Simples, Firm (ks ++ xs.forest.words.map Word.kind)
  | .none => by rwa [Simples.forest, Forest.words_nil, List.map_nil, List.append_nil]
  | .some first more => by
    rw [Simples.forest, Forest.words_append, List.map_append, ← List.append_assoc]
    exact Simples.firm (h.append first.firm) more

theorem Compound.firm (c : Compound) : Firm (c.forest.words.map Word.kind) := by
  cases c with
  | typed name more =>
    rw [Compound.forest, Forest.words_append, List.map_append]
    exact Simples.firm name.firm more
  | untyped first more =>
    rw [Compound.forest, Forest.words_append, List.map_append]
    exact Simples.firm first.firm more

theorem Selector.firm : ∀ x : Selector, Firm (x.forest.words.map Word.kind)
  | .last compound => compound.firm
  | .join compound joiner more => by
    rw [Selector.forest, Forest.words_append, Forest.words_append, List.map_append,
      List.map_append]
    exact compound.firm.join (Selector.firm more) _

theorem Selectors.firm : ∀ l : Selectors, Firm (l.forest.words.map Word.kind)
  | .last selector => selector.firm
  | .more selector rest => by
    rw [Selectors.forest, Forest.words_append, Forest.words_leaf, List.map_append, List.map_cons]
    exact selector.firm.join (Selectors.firm rest) [.comma]

section

variable {stop : Token.Kind → Bool}
  (h : ∀ k, k ≠ .leftCurly → k ≠ .semicolon → k ≠ .comma → stop k = false)

include h

theorem TypeName.avoids (t : TypeName) : t.forest.avoids stop := by
  cases t <;> simp [forest, delim, Name.before, Forest.avoids, h, Word.ident, Word.single]

theorem Simple.avoids (x : Simple) : x.forest.avoids stop := by
  cases x <;> simp [Simple.forest, Attribute.forest, delim, colon, squares, Name.before,
    Name.hashed, Name.calling, Forest.avoids, h, Word.ident, Word.single, Word.hash, Word.function]

theorem Simples.avoids : ∀ xs : Simples, xs.forest.avoids stop
  | .none => rfl
  | .some first more => by
    rw [Simples.forest, Forest.avoids_append, Simple.avoids h, Simples.avoids more]
    rfl

theorem Compound.avoids (c : Compound) : c.forest.avoids stop := by
  cases c with
  | typed name more =>
    rw [Compound.forest, Forest.avoids_append, TypeName.avoids h, Simples.avoids h]
    rfl
  | untyped first more =>
    rw [Compound.forest, Forest.avoids_append, Simple.avoids h, Simples.avoids h]
    rfl

/-- Outside all blocks, a selector has no comma. -/
theorem Selector.avoids : ∀ x : Selector, x.forest.avoids stop
  | .last compound => Compound.avoids h compound
  | .join compound joiner more => by
    have plain : joiner.forest.avoids stop := by
      cases joiner <;> simp [Joiner.forest, delim, space, Forest.avoids, h, Word.single]
    rw [Selector.forest, Forest.avoids_append, Forest.avoids_append, Compound.avoids h, plain,
      Selector.avoids more]
    rfl

end

/-- Outside all blocks, a list of selectors has neither a curly bracket nor a semicolon. -/
theorem Selectors.avoids {stop : Token.Kind → Bool}
    (h : ∀ k, k ≠ .leftCurly → k ≠ .semicolon → stop k = false) :
    ∀ l : Selectors, l.forest.avoids stop
  | .last selector => Selector.avoids (fun k hc hs _ => h k hc hs) selector
  | .more selector rest => by
    have comma : stop (Word.single .comma ',').kind = false := h _ nofun nofun
    rw [Selectors.forest, Forest.avoids_append, Selector.avoids fun k hc hs _ => h k hc hs,
      Forest.avoids, comma, Selectors.avoids h rest]
    rfl

end Plain

end Stylesheet
