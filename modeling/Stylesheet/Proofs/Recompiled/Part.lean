import Stylesheet.Proofs.Recompiled.Token

/-!
# Parts that keep their tokens

A part of a selector that can be matched is made of names, hashes and strings that are scanned as
they are in front of whatever ends them. So its text is scanned as the tokens that it was made of,
if nothing is written behind it. Only in front of the flag of an attribute the text has to be cut: the
blank that is written there may belong to an escape at the end of the value.
-/

namespace Stylesheet

/-- The text of a simple selector or a combinator, cut in front of the blank that a flag is written
behind. -/
def Node.partPieces {α : Type} (n : Node α) : List String :=
  match n.detail with
  | .attr name (some matcher) (some value) (some flags) =>
    ["[" ++ name ++ matcher ++ Canonical.attributeValue value, " " ++ flags ++ "]"]
  | _ => [n.generate]

namespace Portable

open Token (Word Forest Firm Closes Closing)

/-- A name that is scanned as a whole in front of what closes names. -/
structure Name where
  chars : List Char
  fits : (Word.ident chars).Fits [',']

/-- The name itself. -/
def Name.text (n : Name) : String := String.ofList n.chars

/-- A name behind a mark, and scanned with it. -/
structure Hash where
  chars : List Char
  fits : (Word.hash chars).Fits [',']

/-- The name itself. -/
def Hash.text (h : Hash) : String := String.ofList h.chars

/-- A name, or an asterisk. -/
inductive TypeName where
  | any
  | named (name : Name)

/-- The name of an attribute. -/
structure AttributeName where
  space : Option Name
  name : Name

/-- The value that an attribute is compared with. -/
inductive Operand where
  | identifier (name : Name)
  | string (content : Plain.Content)

/-- What is asked of the value of an attribute. -/
structure Test where
  matcher : Matcher
  operand : Operand
  flag : Option Name

/-- A simple selector that can be matched. -/
inductive Part where
  | type (name : TypeName)
  | qualified (space name : TypeName)
  | id (name : Hash)
  | className (name : Name)
  | attr (name : AttributeName) (test : Option Test)

/-! ### As nodes -/

/-- The name of a type. -/
def TypeName.text : TypeName → String
  | any => "*"
  | named name => name.text

/-- The name with its namespace. -/
def AttributeName.text (n : AttributeName) : String :=
  match n.space with
  | none => n.name.text
  | some space => space.text ++ "|" ++ n.name.text

/-- The value as it is kept in a node. -/
def Operand.value : Operand → AttributeValue
  | identifier name => .identifier name.text
  | string content => .string content.text

namespace Part

/-- The kind of a simple selector. -/
def kind : Part → NodeKind
  | type _ | qualified _ _ => .typeSelector
  | id _ => .idSelector
  | className _ => .classSelector
  | attr _ _ => .attributeSelector

/-- What the node of a simple selector holds. -/
def detail : Part → Detail
  | type name => .name name.text
  | qualified space name => .name (space.text ++ "|" ++ name.text)
  | id name => .name name.text
  | className name => .name name.text
  | attr name none => .attr name.text none none none
  | attr name (some t) =>
    .attr name.text (some t.matcher.operator) (some t.operand.value) (t.flag.map Name.text)

/-- The node of a simple selector. -/
def node (p : Part) : Node Unit := Plain.node p.kind p.detail []

end Part

/-! ### As words -/

/-- A name in front of other words. -/
def Name.before (n : Name) (rest : Forest) : Forest := .leaf (.ident n.chars) Word.plain_ident rest

/-- The name of a type as a word. -/
def TypeName.word : TypeName → Word
  | any => .single .delim '*'
  | named name => .ident name.chars

theorem TypeName.plain_word (t : TypeName) : t.word.kind.isBracket = false := by
  cases t <;> rfl

/-- The name of a type in front of other words. -/
def TypeName.before (t : TypeName) (rest : Forest) : Forest := .leaf t.word t.plain_word rest

/-- The name of an attribute in front of other words. -/
def AttributeName.before (n : AttributeName) (rest : Forest) : Forest :=
  match n.space with
  | none => n.name.before rest
  | some space => space.before (Plain.delim '|' (n.name.before rest))

theorem plain_content (c : Plain.Content) : (Word.string c.chars).kind.isBracket = false := rfl

/-- A value that an attribute is compared with in front of other words. -/
def Operand.before (rest : Forest) : Operand → Forest
  | identifier name => name.before rest
  | string content => .leaf (.string content.chars) (plain_content content) rest

/-- A flag behind a blank. -/
def flagForest : Option Name → Forest
  | none => .nil
  | some name => Plain.space (name.before .nil)

/-- The words of what is asked of a value. -/
def Test.forest (t : Test) : Forest :=
  Plain.matcherForest t.matcher ++ t.operand.before (flagForest t.flag)

/-- The words of a simple selector. -/
def Part.forest : Part → Forest
  | type name => name.before .nil
  | qualified space name => space.before (Plain.delim '|' (name.before .nil))
  | id name => .leaf (.hash name.chars) Word.plain_hash .nil
  | className name => Plain.delim '.' (name.before .nil)
  | attr name test => Plain.squares (name.before ((test.map Test.forest).getD .nil))

/-- The words of a simple selector, cut in front of a flag. -/
def Part.pieces : Part → List (List Word)
  | attr name (some ⟨matcher, operand, some flag⟩) =>
    [.single .leftSquare '[' ::
        (name.before (Plain.matcherForest matcher ++ operand.before .nil)).words,
      [.single .whiteSpace ' ', .ident flag.chars, .single .rightSquare ']']]
  | p => [p.forest.words]

/-! ### Writing -/

theorem Name.toList_text (n : Name) : n.text.toList = n.chars := String.toList_ofList

theorem TypeName.toList_text (t : TypeName) :
    t.text.toList = Word.textOf (t.before .nil).words := by
  cases t <;> simp [text, before, word, Name.toList_text, Word.ident, Word.single]

theorem AttributeName.toList_text (n : AttributeName) :
    n.text.toList = Word.textOf (n.before .nil).words := by
  obtain ⟨_ | space, name⟩ := n <;>
    simp [text, before, Plain.delim, Name.before, Name.toList_text, Word.ident, Word.single]

theorem Operand.toList_value (v : Operand) :
    (Canonical.attributeValue v.value).toList = Word.textOf (v.before .nil).words := by
  cases v <;>
    simp [value, before, Canonical.attributeValue, Canonical.quoted, Name.before, Name.toList_text,
      Plain.Content.text, Word.ident, Word.string]

theorem TypeName.words_before (t : TypeName) (rest : Forest) :
    (t.before rest).words = (t.before .nil).words ++ rest.words := rfl

theorem AttributeName.words_before (n : AttributeName) (rest : Forest) :
    (n.before rest).words = (n.before .nil).words ++ rest.words := by
  obtain ⟨_ | space, name⟩ := n <;> rfl

theorem Operand.words_before (v : Operand) (rest : Forest) :
    (v.before rest).words = (v.before .nil).words ++ rest.words := by
  cases v <;> rfl

/-- The words of an attribute selector. -/
theorem words_attr (name : AttributeName) (test : Option Test) :
    (Part.attr name test).forest.words = .single .leftSquare '[' ::
      ((name.before .nil).words ++ (((test.map Test.forest).getD .nil).words ++
        [.single .rightSquare ']'])) := by
  have block : (Part.attr name test).forest.words = .single .leftSquare '[' ::
      ((name.before ((test.map Test.forest).getD .nil)).words ++ [.single .rightSquare ']']) := rfl
  rw [block, name.words_before, List.append_assoc]

theorem Part.flatten_pieces (p : Part) : p.pieces.flatten = p.forest.words := by
  cases p with
  | attr name test =>
    obtain _ | ⟨matcher, operand, _ | flag⟩ := test
    · exact List.append_nil _
    · exact List.append_nil _
    · rw [words_attr, pieces, name.words_before, Forest.words_append]
      have flagged : (flagForest (some flag)).words =
          [.single .whiteSpace ' ', .ident flag.chars] := rfl
      have value := operand.words_before (flagForest (some flag))
      simp [Test.forest, value, flagged]
  | _ => exact List.append_nil _

theorem Test.words_forest (t : Test) :
    t.forest.words = (Plain.matcherForest t.matcher).words ++
      ((t.operand.before .nil).words ++ (flagForest t.flag).words) := by
  rw [forest, Forest.words_append, t.operand.words_before]

/-- The text of a simple selector is that of its words. -/
theorem Part.toList_generate (p : Part) :
    p.node.generate.toList = Word.textOf p.forest.words := by
  cases p with
  | type name => exact name.toList_text
  | qualified space name =>
    have text : (qualified space name).node.generate = space.text ++ "|" ++ name.text := rfl
    have words : (qualified space name).forest.words =
        (space.before .nil).words ++ (.single .delim '|' :: (name.before .nil).words) :=
      space.words_before _
    rw [text, words]
    simp [space.toList_text, name.toList_text, Word.single]
  | id name =>
    have text : (id name).node.generate = "#" ++ name.text := rfl
    simp [text, Hash.text, forest, Word.hash]
  | className name =>
    have text : (className name).node.generate = "." ++ name.text := rfl
    simp [text, name.toList_text, forest, Plain.delim, Name.before, Word.single, Word.ident]
  | attr name test =>
    obtain _ | ⟨matcher, operand, flag⟩ := test
    · have text : (attr name none).node.generate = "[" ++ name.text ++ "" ++ "]" := rfl
      simp [text, words_attr, name.toList_text, Word.single]
    · have text : (attr name (some ⟨matcher, operand, flag⟩)).node.generate =
          "[" ++ name.text ++ (matcher.operator ++ Canonical.attributeValue operand.value ++
            ((flag.map Name.text).map (" " ++ ·)).getD "") ++ "]" := rfl
      cases flag <;>
        simp [text, words_attr, Test.words_forest, name.toList_text, Plain.toList_operator,
          operand.toList_value, flagForest, Plain.space, Name.before, Name.toList_text, Word.single,
          Word.ident]

/-- The pieces of the text of a simple selector are those of its words. -/
theorem Part.partPieces_node (p : Part) :
    p.node.partPieces.map String.toList = p.pieces.map Word.textOf := by
  have whole (named : p.node.partPieces = [p.node.generate]) (words : p.pieces = [p.forest.words]) :
      p.node.partPieces.map String.toList = p.pieces.map Word.textOf := by
    rw [named, words, List.map_singleton, List.map_singleton, p.toList_generate]
  cases p with
  | type | qualified | id | className => exact whole rfl rfl
  | attr name test =>
    obtain _ | ⟨matcher, operand, _ | flag⟩ := test
    · exact whole rfl rfl
    · exact whole rfl rfl
    · have texts : (attr name (some ⟨matcher, operand, some flag⟩)).node.partPieces =
          ["[" ++ name.text ++ matcher.operator ++ Canonical.attributeValue operand.value,
            " " ++ flag.text ++ "]"] := rfl
      rw [texts, pieces, name.words_before, Forest.words_append]
      simp [name.toList_text, Plain.toList_operator, operand.toList_value, flag.toList_text,
        Word.single, Word.ident]

/-! ### Scanning -/

/-- What names end in front of, whether or not they are made of two hyphens. -/
structure Ends (rest : List Char) : Prop where
  closing : Closing rest
  paren : rest.head? ≠ some '('
  bracket : rest.head? ≠ some '>'

theorem ends_nil : Ends [] := ⟨by rintro _ ⟨⟩, nofun, nofun⟩

theorem ends_cons {c : Char} {rest : List Char} (h : Closes c ∧ c ≠ '(' ∧ c ≠ '>') :
    Ends (c :: rest) := by
  refine ⟨?_, fun paren => h.2.1 (Option.some.inj paren),
    fun bracket => h.2.2 (Option.some.inj bracket)⟩
  rintro _ ⟨⟩
  exact h.1

namespace Name

theorem chars_ne (n : Name) : n.chars ≠ ['-'] := by
  intro hyphen
  have fits := n.fits
  rw [hyphen] at fits
  obtain ⟨starts, -⟩ := Word.name_of_fits fits
  exact absurd starts (by decide)

/-- A name fits in front of all that ends it. -/
theorem fits_before (n : Name) {rest : List Char} (ends : Ends rest) :
    (Word.ident n.chars).Fits rest :=
  Word.fits_ident_before n.fits nofun n.chars_ne ends.closing ends.paren fun _ => ends.bracket

theorem exists_head (n : Name) :
    ∃ c cs, n.chars = c :: cs ∧ Text.isBlank c = false ∧ c.isDigit = false := by
  obtain ⟨c, cs, chars⟩ := List.exists_cons_of_ne_nil (Word.ne_nil_of_fits n.fits)
  obtain ⟨starts, -⟩ := Word.name_of_fits n.fits
  rw [chars, List.cons_append] at starts
  refine ⟨c, cs, chars, Bool.eq_false_iff.mpr fun blank => ?_, Token.isDigit_of_startsIdent starts⟩
  simp only [Text.isBlank, Text.isNewline, Bool.or_eq_true, decide_eq_true_eq] at blank
  obtain (rfl | rfl) | (rfl | rfl) | rfl := blank <;> cases starts

end Name

theorem Hash.fits_nil (h : Hash) : (Word.hash h.chars).Fits [] :=
  Token.fits_hash_before h.fits (List.cons_ne_nil _ _) ends_nil.closing

theorem TypeName.fits_before (t : TypeName) {rest : List Char} (ends : Ends rest) :
    Word.AllFit (t.before .nil).words rest := by
  cases t with
  | any => exact ⟨Word.fits_single rfl, trivial⟩
  | named name => exact ⟨name.fits_before ends, trivial⟩

theorem AttributeName.fits_before (n : AttributeName) {rest : List Char} (ends : Ends rest) :
    Word.AllFit (n.before .nil).words rest := by
  obtain ⟨_ | space, name⟩ := n
  · exact ⟨name.fits_before ends, trivial⟩
  · exact ⟨space.fits_before (ends_cons (by decide)), Word.fits_single rfl,
      name.fits_before ends, trivial⟩

theorem Operand.fits_before (v : Operand) {rest : List Char} (ends : Ends rest) :
    Word.AllFit (v.before .nil).words rest := by
  cases v with
  | identifier name => exact ⟨name.fits_before ends, trivial⟩
  | string content => exact ⟨Word.fits_string content.nonzero, trivial⟩

theorem ends_matcher (m : Matcher) (rest : List Char) :
    Ends (Word.textOf (Plain.matcherForest m).words ++ rest) := by
  cases m <;> exact ends_cons (by decide)

/-- A flag is scanned in front of the closing bracket. -/
theorem fits_flag (flag : Name) : Word.AllFit
    [.single .whiteSpace ' ', .ident flag.chars, .single .rightSquare ']'] [] := by
  obtain ⟨c, cs, chars, blank, -⟩ := flag.exists_head
  refine ⟨Word.fits_single (Token.scan_space ?_), flag.fits_before (ends_cons (by decide)),
    Word.fits_single rfl, trivial⟩
  simp [Word.ident, chars, blank]

/-- Each piece of a simple selector is scanned as its words. -/
theorem Part.fits_pieces (p : Part) : ∀ ws ∈ p.pieces, Word.AllFit ws [] := by
  cases p with
  | type name => exact List.forall_mem_singleton.mpr (name.fits_before ends_nil)
  | qualified space name =>
    refine List.forall_mem_singleton.mpr ?_
    rw [forest, space.words_before, Word.allFit_append]
    exact ⟨space.fits_before (ends_cons (by decide)), Word.fits_single rfl,
      name.fits_before ends_nil⟩
  | id name => exact List.forall_mem_singleton.mpr ⟨name.fits_nil, trivial⟩
  | className name =>
    obtain ⟨c, cs, chars, -, digit⟩ := name.exists_head
    refine List.forall_mem_singleton.mpr ⟨Word.fits_single (Token.scan_point ?_),
      name.fits_before ends_nil, trivial⟩
    simp [Name.before, Word.ident, chars, Token.Numeral.starts, Token.Numeral.sign,
      Token.Numeral.digits, digit]
  | attr name test =>
    obtain _ | ⟨matcher, operand, _ | flag⟩ := test
    · refine List.forall_mem_singleton.mpr ?_
      rw [words_attr]
      exact ⟨Word.fits_single rfl, Word.allFit_append.mpr
        ⟨name.fits_before (ends_cons (by decide)), Word.fits_single rfl, trivial⟩⟩
    · refine List.forall_mem_singleton.mpr ?_
      rw [words_attr]
      refine ⟨Word.fits_single rfl, ?_⟩
      simp only [Option.map_some, Option.getD_some, Test.words_forest, flagForest,
        Forest.words_nil, List.append_nil, List.append_assoc, Word.allFit_append,
        Word.textOf_append]
      exact ⟨name.fits_before (ends_matcher matcher _), Plain.matcher_fits matcher _,
        operand.fits_before (ends_cons (by decide)), Word.fits_single rfl, trivial⟩
    · refine List.forall_mem_cons.mpr ⟨⟨Word.fits_single rfl, ?_⟩,
        List.forall_mem_singleton.mpr (fits_flag flag)⟩
      rw [name.words_before, Forest.words_append, Word.allFit_append, Word.allFit_append,
        Word.textOf_append, List.append_assoc]
      exact ⟨name.fits_before (ends_matcher matcher _), Plain.matcher_fits matcher _,
        operand.fits_before ends_nil⟩

/-! ### Reading -/

section

open Grammar

variable {limit : Nat} {last : Option NodeKind} {gap : Option Token} {ts : List Token}
variable {o next : Nat}

theorem TypeName.isTrivia_word (t : TypeName) : t.word.kind.isTrivia = false := by
  cases t <;> rfl

theorem TypeName.stands (t : TypeName) (o : Nat) :
    (t.word.token o).kind = .ident ∨ (t.word.token o).delim? = some '*' := by
  cases t with
  | any => exact .inr Plain.delim?_single
  | named name => exact .inl rfl

/-- The name of a type may follow a namespace. -/
theorem TypeName.stands_qualified (t : TypeName) (o : Nat) :
    ((t.word.token o).kind = .ident || (t.word.token o).isDelim '*') = true := by
  obtain ident | star := t.stands o
  · rw [ident]
    rfl
  · rw [Token.isDelim, star]
    exact Bool.or_true _

theorem TypeName.isDelim_bar (t : TypeName) (o : Nat) : (t.word.token o).isDelim '|' = false := by
  obtain ident | star := t.stands o
  · rw [Token.isDelim, Token.delim?, ident]
    rfl
  · rw [Token.isDelim, star]
    rfl

theorem TypeName.explicitCombinator_eq (t : TypeName) (o : Nat) (s : Scope) :
    explicitCombinator (t.word.token o) s = none := by
  obtain ident | star := t.stands o
  · exact Plain.explicitCombinator_of_kind (by rw [ident]; decide)
  · exact Plain.explicitCombinator_of_delim star (by decide)

theorem TypeName.ofList_word (t : TypeName) : String.ofList t.word.text = t.text := by
  cases t <;> rfl

theorem Part.firm (p : Part) : Firm (p.forest.words.map Word.kind) := by
  cases p with
  | type name => exact .singleton name.isTrivia_word
  | qualified space name =>
    exact Firm.join (.singleton space.isTrivia_word) (.singleton name.isTrivia_word) [.delim]
  | id => exact .singleton rfl
  | className => exact Firm.append (.singleton rfl) (.singleton rfl)
  | attr => exact Token.firm_block _

/-- Outside all blocks, a simple selector has no comma. -/
theorem Part.avoids (p : Part) : p.forest.avoids (· = .comma) := by
  cases p with
  | type name => cases name <;> rfl
  | qualified space name => cases space <;> cases name <;> rfl
  | id | className | attr => rfl

theorem Part.depth_forest (p : Part) : p.forest.depth ≤ 1 := by
  cases p with
  | type | qualified | id | className => exact Nat.zero_le _
  | attr name test =>
    have flat : (name.before ((test.map Test.forest).getD .nil)).depth = 0 := by
      obtain ⟨_ | space, name⟩ := name <;> obtain _ | ⟨matcher, operand, flag⟩ := test
      · rfl
      · cases matcher <;> cases operand <;> cases flag <;> rfl
      · rfl
      · cases matcher <;> cases operand <;> cases flag <;> rfl
    have block : (attr name test).forest.depth =
        max ((name.before ((test.map Test.forest).getD .nil)).depth + 1) 0 := rfl
    rw [block, flat]
    exact Nat.le_refl _

/-- What starts with a simple selector makes no namespace of a name before it. -/
theorem Part.qualifies (p : Part) : Plain.qualifies (p.forest.tokens o ++ ts) = false := by
  cases p with
  | type name =>
    rw [forest, TypeName.before, Forest.tokens, List.cons_append, Plain.qualifies,
      List.head?_cons, Option.any_some, name.isDelim_bar, Bool.false_and]
  | qualified space name =>
    rw [forest, TypeName.before, Forest.tokens, List.cons_append, Plain.qualifies,
      List.head?_cons, Option.any_some, space.isDelim_bar, Bool.false_and]
  | className => simp [forest, Plain.delim, Plain.qualifies, Forest.tokens, Plain.isDelim_single]
  | id | attr => rfl

theorem AttributeName.before_eq (n : AttributeName) (rest : Forest) :
    n.before rest = n.before .nil ++ rest := by
  obtain ⟨_ | space, name⟩ := n <;> rfl

theorem Operand.before_eq (v : Operand) (rest : Forest) :
    v.before rest = v.before .nil ++ rest := by
  cases v <;> rfl

theorem attributeName_qualified {t bar name : Token} {close : Nat} (hk : t.kind = .ident)
    (hb : bar.isDelim '|' = true) (hn : name.kind = .ident) :
    attributeName close (t :: bar :: name :: ts) =
      .ok (Token.sourceText [t, bar, name], ts) := by
  have solid : Token.significant (t :: bar :: name :: ts) = t :: bar :: name :: ts :=
    List.dropWhile_cons_of_neg (by rw [hk]; exact Bool.false_ne_true)
  simp only [attributeName, solid, hk, hb, hn, ne_eq, not_true_eq_false, ↓reduceIte, decide_true,
    Bool.and_self]

/-- The name of an attribute is read with its namespace, and without one if none is to follow. -/
theorem AttributeName.read (n : AttributeName) (close : Nat)
    (h : ¬(ts.head?.any (·.isDelim '|') && ts.tail.head?.any (·.kind = .ident)) = true) :
    attributeName close ((n.before .nil).tokens o ++ ts) = .ok (n.text, ts) := by
  obtain ⟨_ | space, name⟩ := n
  · exact Plain.attributeName_plain rfl h
  · simp only [before, Name.before, Plain.delim, Forest.tokens, List.cons_append, List.nil_append]
    rw [attributeName_qualified rfl Plain.isDelim_single rfl, Plain.sourceText_qualified]
    rfl

theorem Operand.read (v : Operand) (close : Nat) :
    attributeValue close ((v.before .nil).tokens o ++ ts) = .ok (v.value, ts) := by
  cases v <;> rfl

theorem flag_read (flag : Option Name) :
    attributeFlags ((flagForest flag).tokens o) = (flag.map Name.text, []) := by
  cases flag <;> rfl

/-- What stands between the brackets is read as what it was made of. -/
theorem read_test (name : AttributeName) (test : Option Test) (close : Nat) :
    attributeTest close ((name.before ((test.map Test.forest).getD .nil)).tokens o) =
      .ok (Part.attr name test).detail := by
  rw [name.before_eq, Forest.tokens_append]
  cases test with
  | none =>
    rw [attributeTest, name.read close (by exact Bool.false_ne_true)]
    rfl
  | some t =>
    obtain ⟨matcher, operand, flag⟩ := t
    obtain ⟨op, more, front, kind, unqualified, read⟩ := Plain.attributeMatcher_read matcher
      (o + (name.before .nil).width)
      ((operand.before (flagForest flag)).tokens
        (o + (name.before .nil).width + (Plain.matcherForest matcher).width))
    have solid : Token.significant (op :: more) = op :: more :=
      List.dropWhile_cons_of_neg (by rw [kind]; exact Bool.false_ne_true)
    rw [Option.map_some, Option.getD_some, Test.forest, Forest.tokens_append, front, attributeTest,
      name.read close (by exact unqualified)]
    simp only [bind, Except.bind, solid, read, operand.before_eq (flagForest flag),
      Forest.tokens_append, operand.read, flag_read]
    rfl

/-- A simple selector is read as itself. -/
theorem Part.read (p : Part) (h : Plain.qualifies ts = false) :
    Plain.parts limit last gap ⟨p.forest.tokens o ++ ts, next⟩ =
      (Plain.parts limit (some p.kind) none ⟨ts, next⟩).map
        (Plain.shapes (descendant last gap) ++ p.node :: ·) := by
  cases p with
  | type name =>
    refine Plain.parts_leaf (by exact name.isTrivia_word) (name.explicitCombinator_eq o _) ?_
    rw [Plain.simpleSelector_type (name.stands o), Plain.typeSelector_plain (by exact h),
      Word.token_text, name.ofList_word]
    exact ⟨_, rfl⟩
  | qualified space name =>
    refine Plain.parts_leaf (by exact space.isTrivia_word) (space.explicitCombinator_eq o _) ?_
    rw [Plain.simpleSelector_type (space.stands o)]
    simp only [Plain.delim, TypeName.before, Forest.tokens, List.append_eq, List.cons_append,
      List.nil_append]
    rw [Plain.typeSelector_qualified Plain.isDelim_single (name.stands_qualified _),
      Plain.sourceText_qualified, space.ofList_word, name.ofList_word]
    exact ⟨_, rfl⟩
  | id name =>
    have chars : (String.ofList ('#' :: name.chars)).toList.tail = name.chars := by
      rw [String.toList_ofList, List.tail_cons]
    refine Plain.parts_leaf rfl (Plain.explicitCombinator_of_kind Token.Kind.noConfusion) ?_
    simp only [simpleSelector, Word.token_kind, Word.token_text, Word.hash, chars]
    exact ⟨_, rfl⟩
  | className name =>
    refine Plain.parts_leaf rfl
      (Plain.explicitCombinator_of_delim Plain.delim?_single (by decide)) ?_
    simp only [simpleSelector, Word.token_kind, Word.kind_single, Plain.delim?_single]
    exact ⟨_, rfl⟩
  | attr name test =>
    rw [forest, Plain.squares, Forest.tokens, List.cons_append, List.append_assoc,
      List.cons_append]
    refine Plain.parts_leaf rfl (Plain.explicitCombinator_of_kind Token.Kind.noConfusion) ?_
    exact Plain.attributeSelector_closed (by rw [Forest.length_tokens]) (read_test name test _)

end

end Portable

end Stylesheet
