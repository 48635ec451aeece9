import Stylesheet.Proofs.Canonical
import Stylesheet.Proofs.Grammar
import Stylesheet.Proofs.Spelling.Forest

/-!
# Plain values

A plain value is a sequence of components with white space, a comma or a slash between any two of
them. Its names are plain and its numerals have no exponent; strings and urls hold any text without
U+0000.

The words of a plain value make up its canonical text, they are scanned as written, and the
components that are read from their tokens are those of the value.
-/

namespace Stylesheet

namespace Plain

open Token (Word Forest Firm)

/-- A letter, and then letters, digits, hyphens and underscores. -/
structure Name where
  chars : List Char
  plain : Token.isPlainName chars = true

/-- The name itself. -/
def Name.text (n : Name) : String := String.ofList n.chars

/-- Any text without U+0000. -/
structure Content where
  chars : List Char
  nonzero : '\x00' ∉ chars

/-- The text itself. -/
def Content.text (c : Content) : String := String.ofList c.chars

/-- At least one letter. -/
structure Letters where
  chars : List Char
  nonempty : chars ≠ []
  letters : chars.all Char.isAlpha = true

/-- The letters as a text. -/
def Letters.text (l : Letters) : String := String.ofList l.chars

/-- What stands between two components. -/
inductive Joint where
  | space
  | comma
  | slash
  deriving DecidableEq, Repr

mutual

/-- A component of a plain value. -/
inductive Component where
  | identifier (name : Name)
  | number (numeral : Token.Numeral.Plain)
  | percentage (numeral : Token.Numeral.Plain)
  | dimension (numeral : Token.Numeral.Plain) (unit : Letters)
  | hash (name : Name)
  | string (content : Content)
  | url (content : Content)
  | function (name : Name) (other : name.chars.map Char.toLower ≠ ['u', 'r', 'l'])
      (arguments : Components)
  | parentheses (inner : Components)
  | brackets (inner : Components)

/-- No component, or a first one and more of them. -/
inductive Components where
  | none
  | some (first : Component) (more : More)

/-- Further components, each after a joint. -/
inductive More where
  | done
  | next (joint : Joint) (component : Component) (more : More)

end

/-! ### As nodes -/

/-- A node of a tree that was not read. -/
def node (kind : NodeKind) (detail : Detail) (children : List (Node Unit)) : Node Unit :=
  ⟨kind, detail, (), children⟩

/-- The numeral as a text. -/
def numeralText (n : Token.Numeral.Plain) : String := String.ofList n.chars

/-- The node of a joint. -/
def Joint.node : Joint → Node Unit
  | space => Plain.node .whiteSpace (.value " ") []
  | comma => Plain.node .operator (.value ",") []
  | slash => Plain.node .operator (.value "/") []

mutual

/-- The node of a component. -/
def Component.node : Component → Node Unit
  | .identifier name => Plain.node .identifier (.name name.text) []
  | .number n => Plain.node .number (.value (numeralText n)) []
  | .percentage n => Plain.node .percentage (.value (numeralText n)) []
  | .dimension n unit => Plain.node .dimension (.dimension (numeralText n) unit.text) []
  | .hash name => Plain.node .hash (.value name.text) []
  | .string content => Plain.node .string (.value content.text) []
  | .url content => Plain.node .url (.value content.text) []
  | .function name _ arguments => Plain.node .function (.name name.text) arguments.nodes
  | .parentheses inner => Plain.node .parentheses .none inner.nodes
  | .brackets inner => Plain.node .brackets .none inner.nodes

/-- The nodes of components and of the joints between them. -/
def Components.nodes : Components → List (Node Unit)
  | .none => []
  | .some first more => first.node :: more.nodes

/-- The nodes of further components and of the joints before them. -/
def More.nodes : More → List (Node Unit)
  | .done => []
  | .next joint component more => joint.node :: component.node :: more.nodes

end

/-! ### As words -/

/-- A name in front of other words. -/
def Name.before (n : Name) (rest : Forest) : Forest :=
  .leaf (.ident n.chars) Word.plain_ident rest

/-- A hash. -/
def Name.hashed (n : Name) : Forest := .leaf (.hash n.chars) Word.plain_hash .nil

/-- A function with a name. -/
def Name.calling (n : Name) (arguments : Forest) : Forest :=
  .block (.function n.chars) arguments (.single .rightParen ')') Word.paired_function .nil

/-- A string. -/
def Content.quoted (c : Content) : Forest := .leaf (.string c.chars) Word.plain_string .nil

/-- Square brackets. -/
def squares (inner : Forest) : Forest :=
  .block (.single .leftSquare '[') inner (.single .rightSquare ']')
    (Word.paired_single (by decide)) .nil

/-- A colon in front of other words. -/
def colon (rest : Forest) : Forest :=
  .leaf (.single .colon ':') (Word.plain_single (by decide)) rest

section

variable {n : Name} {c : Content} {inner rest : Forest}

@[simp] theorem words_before : (n.before rest).words = .ident n.chars :: rest.words := rfl

@[simp] theorem words_hashed : n.hashed.words = [.hash n.chars] := rfl

@[simp] theorem words_calling :
    (n.calling inner).words =
      .function n.chars :: (inner.words ++ [.single .rightParen ')']) := rfl

@[simp] theorem words_quoted : c.quoted.words = [.string c.chars] := rfl

@[simp] theorem words_squares :
    (squares inner).words =
      .single .leftSquare '[' :: (inner.words ++ [.single .rightSquare ']']) := rfl

@[simp] theorem words_colon : (colon rest).words = .single .colon ':' :: rest.words := rfl

end

/-- The word of a joint. -/
def Joint.word : Joint → Word
  | space => .single .whiteSpace ' '
  | comma => .single .comma ','
  | slash => .single .delim '/'

theorem Joint.word_plain (j : Joint) : j.word.kind.isBracket = false := by cases j <;> rfl

mutual

/-- The words of a component. -/
def Component.forest : Component → Forest
  | .identifier name => name.before .nil
  | .number n => .leaf (.number n) Word.plain_number .nil
  | .percentage n => .leaf (.percentage n) Word.plain_percentage .nil
  | .dimension n unit => .leaf (.dimension n unit.chars) Word.plain_dimension .nil
  | .hash name => name.hashed
  | .string content => content.quoted
  | .url content => .leaf (.url content.chars) Word.plain_url .nil
  | .function name _ arguments => name.calling arguments.forest
  | .parentheses inner =>
    .block (.single .leftParen '(') inner.forest (.single .rightParen ')')
      (Word.paired_single (by decide)) .nil
  | .brackets inner => squares inner.forest

/-- The words of components. -/
def Components.forest : Components → Forest
  | .none => .nil
  | .some first more => first.forest ++ more.forest

/-- The words of further components. -/
def More.forest : More → Forest
  | .done => .nil
  | .next joint component more =>
    .leaf joint.word joint.word_plain (component.forest ++ more.forest)

end

/-! ### Writing -/

/-- The characters that are generated from some nodes in order. -/
def written (ns : List (Node Unit)) : List Char := ns.flatMap fun n => n.generate.toList

theorem toList_plain (ns : List (Node Unit)) :
    (Canonical.plain (Node.generateAll ns)).toList = written ns := by
  rw [Canonical.plain, Node.generateAll_eq_map, List.map_map, String.toList_join,
    List.flatMap_map]
  rfl

theorem Joint.generate_node (j : Joint) : j.node.generate.toList = j.word.text := by
  cases j <;> rfl

@[simp] theorem written_nil : written [] = [] := rfl

@[simp] theorem written_cons (n : Node Unit) (ns : List (Node Unit)) :
    written (n :: ns) = n.generate.toList ++ written ns := List.flatMap_cons

/-- The canonical text of a node that is not read is made of those of its children. -/
theorem generate_node (kind : NodeKind) (detail : Detail) (children : List (Node Unit)) :
    (node kind detail children).generate =
      Canonical.compose kind detail (Node.generateAll children) := rfl

mutual

theorem Component.toList_generate :
    ∀ c : Component, c.node.generate.toList = Word.textOf c.forest.words
  | .identifier name => by
    simp [Component.node, Component.forest, generate_node, Canonical.compose, Detail.label?,
      Detail.name?, Name.text, Word.textOf, Word.ident]
  | .number n => by
    simp [Component.node, Component.forest, generate_node, Canonical.compose, Detail.value?,
      numeralText, Word.textOf, Word.number]
  | .percentage n => by
    simp [Component.node, Component.forest, generate_node, Canonical.compose, Detail.value?,
      numeralText, Word.textOf, Word.percentage]
  | .dimension n unit => by
    simp [Component.node, Component.forest, generate_node, Canonical.compose,
      numeralText, Letters.text, Word.textOf, Word.dimension]
  | .hash name => by
    simp [Component.node, Component.forest, generate_node, Canonical.compose, Detail.value?,
      Name.text, Word.textOf, Word.hash]
  | .string content => by
    simp [Component.node, Component.forest, generate_node, Canonical.compose, Detail.value?,
      Content.text, Word.textOf, Word.string, Canonical.quoted]
  | .url content => by
    simp [Component.node, Component.forest, generate_node, Canonical.compose, Detail.value?,
      Content.text, Word.textOf, Word.url, Canonical.url]
  | .function name _ arguments => by
    have inner := Components.written_nodes arguments
    simp [Component.node, Component.forest, generate_node, Canonical.compose, Detail.label?,
      Detail.name?, Name.text, toList_plain, inner, Word.textOf, Word.function,
      Word.single]
  | .parentheses inner => by
    have inside := Components.written_nodes inner
    simp [Component.node, Component.forest, generate_node, Canonical.compose, toList_plain,
      inside, Word.textOf, Word.single]
  | .brackets inner => by
    have inside := Components.written_nodes inner
    simp [Component.node, Component.forest, generate_node, Canonical.compose, toList_plain,
      inside, Word.textOf, Word.single]

theorem Components.written_nodes :
    ∀ cs : Components, written cs.nodes = Word.textOf cs.forest.words
  | .none => rfl
  | .some first more => by
    rw [Components.nodes, written_cons, Component.toList_generate first,
      More.written_nodes more, Components.forest, Forest.words_append, Word.textOf_append]

theorem More.written_nodes : ∀ m : More, written m.nodes = Word.textOf m.forest.words
  | .done => rfl
  | .next joint component more => by
    rw [More.nodes, written_cons, written_cons, Joint.generate_node,
      Component.toList_generate component, More.written_nodes more, More.forest, Forest.words,
      Word.textOf_cons, Forest.words_append, Word.textOf_append]

end

/-! ### Scanning -/

/-- A text starts with a character that neither goes on with a blank nor opens a comment after a
slash. -/
def startsComponent (cs : List Char) : Bool := cs.head?.any fun d => !Text.isBlank d && d ≠ '*'

theorem startsComponent_name (n : Name) (rest : List Char) :
    startsComponent (n.chars ++ rest) := by
  obtain ⟨d, ds, hn, alpha, -⟩ := Token.exists_of_isPlainName n.plain
  have star : d ≠ '*' := by
    rintro rfl
    revert alpha
    decide
  simp [hn, startsComponent, Token.isBlank_of_isAlpha alpha, star]

theorem startsComponent_numeral (n : Token.Numeral.Plain) (rest : List Char) :
    startsComponent (n.chars ++ rest) := by
  obtain ⟨d, ds, hn, blank, star⟩ := n.exists_head
  simp [hn, startsComponent, blank, star]

theorem Component.startsComponent (c : Component) (rest : List Char) :
    startsComponent (Word.textOf c.forest.words ++ rest) := by
  cases c with
  | identifier n | function n _ _ =>
    simp only [Component.forest, words_before, words_calling, Word.textOf_cons, Word.ident,
      Word.function, List.append_assoc]
    exact startsComponent_name n _
  | number n | percentage n | dimension n _ =>
    simp only [Component.forest, Forest.words, Word.textOf_cons, Word.number, Word.percentage,
      Word.dimension, List.append_assoc]
    exact startsComponent_numeral n _
  | hash | string | url | parentheses | brackets => rfl

theorem Joint.kind_ne_comment (j : Joint) : j.word.kind ≠ .comment := by cases j <;> exact nofun

theorem Joint.fits (j : Joint) {rest : List Char} (h : startsComponent rest) :
    j.word.Fits rest := by
  obtain _ | ⟨d, ds⟩ := rest
  · cases h
  simp only [startsComponent, List.head?_cons, Option.any_some, Bool.and_eq_true,
    decide_eq_true_eq] at h
  cases j with
  | space => exact Word.fits_single (Token.scan_space (by simpa using h.1))
  | comma => exact Word.fits_single rfl
  | slash => exact Word.fits_single (Token.scan_slash (by simpa using h.2))

theorem Joint.endsValue (j : Joint) (rest : List Char) :
    Token.endsValue (j.word.text ++ rest) = true := by
  cases j <;> rfl

mutual

theorem Component.fits {rest : List Char} (h : Token.endsValue rest) :
    ∀ c : Component, Word.AllFit c.forest.words rest
  | .identifier name =>
    Word.allFit_singleton.mpr (Word.fits_ident name.plain (Token.endsName_of_endsValue h))
  | .number n => Word.allFit_singleton.mpr (Word.fits_number n h)
  | .percentage n => Word.allFit_singleton.mpr (Word.fits_percentage n)
  | .dimension n unit =>
    Word.allFit_singleton.mpr (Word.fits_dimension n unit.nonempty unit.letters h)
  | .hash name => Word.allFit_singleton.mpr
      (Word.fits_hash name.plain (Token.stopsName_of_endsName (Token.endsName_of_endsValue h)))
  | .string content => Word.allFit_singleton.mpr (Word.fits_string content.nonzero)
  | .url content => Word.allFit_singleton.mpr (Word.fits_url content.nonzero)
  | .function name other arguments =>
    ⟨Word.fits_function name.plain other, Word.allFit_append.mpr
      ⟨Components.fits (by rfl) arguments, Word.fits_single rfl, trivial⟩⟩
  | .parentheses inner =>
    ⟨Word.fits_single rfl, Word.allFit_append.mpr
      ⟨Components.fits (by rfl) inner, Word.fits_single rfl, trivial⟩⟩
  | .brackets inner =>
    ⟨Word.fits_single rfl, Word.allFit_append.mpr
      ⟨Components.fits (by rfl) inner, Word.fits_single rfl, trivial⟩⟩

theorem Components.fits {rest : List Char} (h : Token.endsValue rest) :
    ∀ cs : Components, Word.AllFit cs.forest.words rest
  | .none => trivial
  | .some first more => by
    rw [Components.forest, Forest.words_append, Word.allFit_append]
    exact ⟨Component.fits (More.endsValue h more) first, More.fits h more⟩

theorem More.fits {rest : List Char} (h : Token.endsValue rest) :
    ∀ m : More, Word.AllFit m.forest.words rest
  | .done => trivial
  | .next joint component more => by
    rw [More.forest, Forest.words, Word.AllFit, Forest.words_append, Word.textOf_append,
      List.append_assoc, Word.allFit_append]
    exact ⟨joint.fits (component.startsComponent _),
      Component.fits (More.endsValue h more) component, More.fits h more⟩

theorem More.endsValue {rest : List Char} (h : Token.endsValue rest) :
    ∀ m : More, Token.endsValue (Word.textOf m.forest.words ++ rest)
  | .done => h
  | .next joint component more => by
    rw [More.forest, Forest.words, Word.textOf_cons, List.append_assoc]
    exact joint.endsValue _

end

/-! ### What stands in a value -/

theorem Component.firm (c : Component) : Firm (c.forest.words.map Word.kind) := by
  cases c with
  | function | parentheses | brackets => exact Token.firm_block _
  | _ => exact .singleton rfl

/-- Further components end firmly what they go on with. -/
theorem More.firm {ks : List Token.Kind} (h : Firm ks) :
    ∀ m : More, Firm (ks ++ m.forest.words.map Word.kind)
  | .done => by rwa [More.forest, Forest.words_nil, List.map_nil, List.append_nil]
  | .next joint component more => by
    rw [More.forest, Forest.words_leaf, Forest.words_append, List.map_cons, List.map_append,
      List.append_cons, ← List.append_assoc, List.append_assoc ks]
    exact More.firm (h.join component.firm _) more

theorem Components.firm {ks : List Token.Kind} (h : Firm ks) (cs : Components) :
    Firm (ks ++ cs.forest.words.map Word.kind) := by
  cases cs with
  | none => rwa [Components.forest, Forest.words_nil, List.map_nil, List.append_nil]
  | some first more =>
    rw [Components.forest, Forest.words_append, List.map_append, ← List.append_assoc]
    exact More.firm (h.append first.firm) more

theorem Components.tight (cs : Components) :
    Scope.Tight (cs.forest.words.map Word.kind) := by
  cases cs with
  | none => exact ⟨nofun, nofun⟩
  | some first more =>
    rw [Components.forest, Forest.words_append, List.map_append]
    exact (More.firm first.firm more).tight

section

variable {stop : Token.Kind → Bool}
  (h : ∀ k, k ≠ .leftCurly → k ≠ .semicolon → stop k = false)

include h

theorem Component.avoids (c : Component) : c.forest.avoids stop := by
  cases c <;> simp [Component.forest, Name.before, Name.hashed, Name.calling, Content.quoted,
    squares, Forest.avoids, h, Word.ident, Word.number, Word.percentage, Word.dimension, Word.hash,
    Word.string, Word.url, Word.function, Word.single]

theorem More.avoids : ∀ m : More, m.forest.avoids stop
  | .done => rfl
  | .next joint component more => by
    have plain : stop joint.word.kind = false := by
      cases joint <;> exact h _ (by decide) (by decide)
    rw [More.forest, Forest.avoids, plain, Forest.avoids_append, Component.avoids h,
      More.avoids more]
    rfl

/-- Outside all blocks, a value has neither a curly bracket nor a semicolon. -/
theorem Components.avoids (cs : Components) : cs.forest.avoids stop := by
  cases cs with
  | none => rfl
  | some first more =>
    rw [Components.forest, Forest.avoids_append, Component.avoids h, More.avoids h]
    rfl

end

/-! ### Reading -/

section

open Grammar

/-- What some nodes are up to their notes. -/
def shapes (ns : List Located) : List (Node Unit) := ns.map Node.strip

theorem strip_mk (kind : NodeKind) (detail : Detail) (span : Span) (ns : List Located) :
    Node.strip ⟨kind, detail, span, ns⟩ = node kind detail (shapes ns) := by
  rw [Node.strip, Node.map, Node.mapAll_eq_map]
  rfl

theorem tidy_shapes (ns : List Located) : tidy (shapes ns) = shapes (tidy ns) := tidy_map _ ns

theorem Component.isSeparator_node (c : Component) : isSeparator c.node = false := by
  cases c <;> rfl

theorem Component.kind_node (c : Component) : c.node.kind ≠ .whiteSpace := by
  cases c <;> exact nofun

theorem tidyAfter_component (gap : Bool) (c : Component) (ns : List (Node Unit)) :
    tidyAfter gap (c.node :: ns) = c.node :: tidyAfter true ns := by
  rw [tidyAfter, if_neg c.kind_node, c.isSeparator_node]
  rfl

/-- White space that joins two components is kept. -/
theorem More.tidy_nodes : ∀ m : More, tidyAfter true m.nodes = m.nodes
  | .done => rfl
  | .next joint component more => by
    have goesOn (ns : List (Node Unit)) : continues (component.node :: ns) = true := by
      rw [continues, List.dropWhile_cons_of_neg (by simpa using component.kind_node)]
      exact congrArg (!·) component.isSeparator_node
    rw [More.nodes, tidyAfter, goesOn, Bool.and_true, if_pos rfl, tidyAfter_component,
      tidyAfter_component, More.tidy_nodes more]
    split
    · rfl
    · rfl

theorem Components.tidy_nodes (cs : Components) : tidy cs.nodes = cs.nodes := by
  cases cs with
  | none => rfl
  | some first more => rw [Components.nodes, tidy, tidyAfter_component, More.tidy_nodes]

variable {o next : Nat} {ts : List Token}

/-- A word that opens no block is read as one component. -/
theorem components_leaf {w : Word} {plain : w.kind.isBracket = false} {n : Node Unit}
    (hc : w.kind ≠ .comment) (shape : (tokenNode (w.token o)).strip = n)
    (sound : tokenErrors (w.token o) = []) :
    (components ⟨(Forest.leaf w plain .nil).tokens o ++ ts, next⟩).map shapes =
      Parsed.cons ⟨n, []⟩ ((components ⟨ts, next⟩).map shapes) := by
  rw [Forest.tokens, Forest.tokens, List.singleton_append,
    components_token (by exact hc) (Token.Kind.opensBlock_of_plain plain), sound, ← shape]
  rfl

/-- A block is read as one component, made of what is read inside. -/
theorem components_closed {opener closer : Word} {inner : Forest}
    {paired : opener.kind.closing = some closer.kind} {ns : List (Node Unit)} {n : Node Unit}
    (hk : opener.kind ≠ .leftCurly)
    (inside : ∀ o next, (components ⟨inner.tokens o, next⟩).map shapes = ⟨ns, []⟩)
    (shape : ∀ b ms, b.opener.kind = opener.kind → b.opener.text = String.ofList opener.text →
      shapes ms = tidy ns → (blockNode b ms).strip = n) :
    (components ⟨(Forest.block opener inner closer paired .nil).tokens o ++ ts, next⟩).map shapes =
      Parsed.cons ⟨n, []⟩ ((components ⟨ts, next⟩).map shapes) := by
  rw [Forest.tokens, Forest.tokens, List.cons_append, List.append_assoc, List.singleton_append,
    components_block (by exact Token.Kind.opensBlock_of_closing paired) (by exact hk),
    Scope.enter_closed (by rw [Forest.length_tokens])]
  have value := congrArg Parsed.value (inside (o + opener.width) (o + opener.width + inner.width))
  have errors :=
    congrArg Parsed.errors (inside (o + opener.width) (o + opener.width + inner.width))
  simp only [Parsed.map_value, Parsed.map_errors] at value errors
  have tidied := (tidy_shapes _).symm.trans (congrArg tidy value)
  have shaped := shape ⟨{ opener.token o with inside := some inner.words.length },
    ⟨inner.tokens (o + opener.width), o + opener.width + inner.width⟩,
    some (closer.token (o + opener.width + inner.width)), ⟨ts, next⟩⟩ _ rfl rfl tidied
  rw [← shaped]
  simp only [Word.token_start, errors, Block.errors, List.append_nil]
  rfl

theorem Joint.strip_tokenNode (j : Joint) : (tokenNode (j.word.token o)).strip = j.node := by
  cases j <;> rfl

theorem Joint.tokenErrors (j : Joint) : tokenErrors (j.word.token o) = [] := by
  cases j <;> rfl

theorem strip_percentage (n : Token.Numeral.Plain) :
    (tokenNode ((Word.percentage n).token o)).strip = (Component.percentage n).node := by
  have front : (Word.percentage n).text.dropLast = n.chars := List.dropLast_concat
  simp only [tokenNode, Word.token_text, Word.token_kind, String.toList_ofList, front]
  rfl

theorem strip_dimension (n : Token.Numeral.Plain) (unit : Letters) :
    (tokenNode ((Word.dimension n unit.chars).token o)).strip =
      (Component.dimension n unit).node := by
  have ends : Token.Numeral.Ends unit.chars := by
    have ends : Token.Numeral.Ends (unit.chars ++ []) :=
      Token.ends_unit unit.nonempty unit.letters rfl
    rwa [List.append_nil] at ends
  have split : Token.Numeral.split (String.ofList (n.chars ++ unit.chars)) =
      (numeralText n, unit.text) := by
    rw [Token.Numeral.split, String.toList_ofList, Token.Numeral.length_append n ends,
      List.take_left, List.drop_left]
    rfl
  simp only [tokenNode, Word.token_text, Word.token_kind, Word.dimension, split]
  rfl

theorem strip_hash (name : Name) :
    (tokenNode ((Word.hash name.chars).token o)).strip = (Component.hash name).node := by
  simp only [tokenNode, Word.token_text, Word.token_kind, Word.hash, String.toList_ofList,
    List.tail_cons]
  rfl

theorem strip_function {name : Name} (other : name.chars.map Char.toLower ≠ ['u', 'r', 'l'])
    (arguments : Components) (b : Block) (ms : List Located)
    (hk : b.opener.kind = .function) (ht : b.opener.text = String.ofList (name.chars ++ ['(']))
    (inside : shapes ms = tidy arguments.nodes) :
    (blockNode b ms).strip = (Component.function name other arguments).node := by
  have called : functionName b.opener = name.text := by
    rw [functionName, ht, String.toList_ofList, List.dropLast_concat]
    rfl
  have notUrl : Text.sameName name.text "url" = false := by
    rw [Text.sameName, decide_eq_false_iff_not, Name.text, String.toList_ofList]
    exact other
  have made : blockNode b ms = ⟨.function, .name name.text, b.span, ms⟩ := by
    simp only [blockNode, hk, called, notUrl, Bool.false_eq_true, ↓reduceIte]
    split <;> rfl
  rw [made, strip_mk, inside, arguments.tidy_nodes]
  rfl

theorem strip_parentheses (inner : Components) (b : Block) (ms : List Located)
    (hk : b.opener.kind = .leftParen) (_ : b.opener.text = "(")
    (inside : shapes ms = tidy inner.nodes) :
    (blockNode b ms).strip = (Component.parentheses inner).node := by
  unfold blockNode
  rw [hk, strip_mk, inside, inner.tidy_nodes]
  rfl

theorem strip_brackets (inner : Components) (b : Block) (ms : List Located)
    (hk : b.opener.kind = .leftSquare) (_ : b.opener.text = "[")
    (inside : shapes ms = tidy inner.nodes) :
    (blockNode b ms).strip = (Component.brackets inner).node := by
  unfold blockNode
  rw [hk, strip_mk, inside, inner.tidy_nodes]
  rfl

mutual

/-- A component is read as itself. -/
theorem Component.read (o next : Nat) (ts : List Token) : ∀ c : Component,
    (components ⟨c.forest.tokens o ++ ts, next⟩).map shapes =
      Parsed.cons ⟨c.node, []⟩ ((components ⟨ts, next⟩).map shapes)
  | .identifier _ => components_leaf nofun rfl rfl
  | .number _ => components_leaf nofun rfl rfl
  | .percentage n => components_leaf nofun (strip_percentage n) rfl
  | .dimension n unit => components_leaf nofun (strip_dimension n unit) rfl
  | .hash name => components_leaf nofun (strip_hash name) rfl
  | .string _ => components_leaf nofun rfl rfl
  | .url _ => components_leaf nofun rfl rfl
  | .function _ other arguments =>
    components_closed nofun (fun p q => Components.read p q arguments)
      (strip_function other arguments)
  | .parentheses inner =>
    components_closed nofun (fun p q => Components.read p q inner) (strip_parentheses inner)
  | .brackets inner =>
    components_closed nofun (fun p q => Components.read p q inner) (strip_brackets inner)

theorem Components.read (o next : Nat) : ∀ cs : Components,
    (components ⟨cs.forest.tokens o, next⟩).map shapes = ⟨cs.nodes, []⟩
  | .none => by
    rw [Components.forest, Forest.tokens, components_nil]
    rfl
  | .some first more => by
    rw [Components.forest, Forest.tokens_append, Component.read _ _ _ first, More.read _ _ more]
    rfl

theorem More.read (o next : Nat) : ∀ m : More,
    (components ⟨m.forest.tokens o, next⟩).map shapes = ⟨m.nodes, []⟩
  | .done => by
    rw [More.forest, Forest.tokens, components_nil]
    rfl
  | .next joint component more => by
    rw [More.forest, ← Forest.nil_append (g := component.forest ++ more.forest),
      ← Forest.leaf_append, Forest.tokens_append,
      components_leaf joint.kind_ne_comment joint.strip_tokenNode joint.tokenErrors,
      Forest.tokens_append, Component.read _ _ _ component, More.read _ _ more]
    rfl

end

theorem Components.read_sequence (cs : Components) (o next : Nat) :
    (componentSequence ⟨cs.forest.tokens o, next⟩).map shapes = ⟨cs.nodes, []⟩ := by
  have read := cs.read o next
  simp only [Parsed.map, Parsed.mk.injEq] at read
  simp only [componentSequence, Parsed.map, ← tidy_shapes, read, cs.tidy_nodes]

end

end Plain

end Stylesheet
