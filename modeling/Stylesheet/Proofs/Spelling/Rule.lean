import Stylesheet.Proofs.Spelling.Declaration
import Stylesheet.Proofs.Spelling.ReadSelector

/-!
# Plain blocks

The items of a plain block are plain declarations and style rules with plain selectors and a plain
block again. A semicolon stands after a declaration that something follows.

A rule may start as a declaration does, as in `a:hover`. What tells them apart is which bracket or
semicolon comes first, so both are read as written, wherever they stand in the block.
-/

namespace Stylesheet

namespace Plain

open Token (Word Forest Firm)

/-- Items of a block. -/
inductive Items where
  | nil
  | declaration (d : Declaration) (rest : Items)
  | rule (selectors : Selectors) (block rest : Items)

/-! ### As nodes -/

/-- The node of a style rule, given the nodes in its block. -/
def ruleNode (selectors : Selectors) (items : List (Node Unit)) : Node Unit :=
  Plain.node .rule .none [selectors.node, Plain.node .block .none items]

/-- The nodes of some items. -/
def Items.nodes : Items → List (Node Unit)
  | nil => []
  | declaration d rest => d.node :: rest.nodes
  | rule selectors block rest => ruleNode selectors block.nodes :: rest.nodes

/-! ### As words -/

/-- A block in curly brackets, in front of other words. -/
def curly (inner rest : Forest) : Forest :=
  .block (.single .leftCurly '{') inner (.single .rightCurly '}') (Word.paired_single (by decide))
    rest

/-- A semicolon in front of other words. -/
def semicolon (rest : Forest) : Forest :=
  .leaf (.single .semicolon ';') (Word.plain_single (by decide)) rest

/-- The words after a declaration, given those of the items that follow it. -/
def Items.afterDeclaration (words : Forest) : Items → Forest
  | nil => .nil
  | declaration .. | rule .. => semicolon words

/-- The words of some items. -/
def Items.forest : Items → Forest
  | nil => .nil
  | declaration d rest => d.forest ++ afterDeclaration rest.forest rest
  | rule selectors block rest => selectors.forest ++ curly block.forest rest.forest

/-! ### Writing -/

/-- The canonical text of the items of a block. -/
def writtenItems (ns : List (Node Unit)) : List Char :=
  (Canonical.items (Node.generateAll ns)).toList

theorem toList_rule {selectors : Selectors} {items : List (Node Unit)} :
    (ruleNode selectors items).generate.toList =
      Word.textOf selectors.forest.words ++ '{' :: (writtenItems items ++ ['}']) := by
  have block : (Plain.node .block .none items).generate.toList =
      '{' :: (writtenItems items ++ ['}']) := by
    simp [generate_node, Canonical.compose, writtenItems]
  rw [ruleNode, generate_node, Canonical.compose, toList_plain, written_cons, written_cons,
    written_nil, selectors.toList_generate, block, List.append_nil]

theorem writtenItems_declaration (d : Declaration) (n : Node Unit) (ns : List (Node Unit)) :
    writtenItems (d.node :: n :: ns) =
      Word.textOf d.forest.words ++ ';' :: writtenItems (n :: ns) := by
  have text : Canonical.items (Node.generateAll (d.node :: n :: ns)) =
      d.node.generate ++ ";" ++ Canonical.items (Node.generateAll (n :: ns)) := rfl
  rw [writtenItems, text]
  simp [d.toList_generate, writtenItems]

theorem writtenItems_rule (selectors : Selectors) (items ns : List (Node Unit)) :
    writtenItems (ruleNode selectors items :: ns) =
      (ruleNode selectors items).generate.toList ++ writtenItems ns := by
  cases ns with
  | nil =>
    rw [writtenItems, Node.generateAll, Node.generateAll, Canonical.items]
    simp [writtenItems, Node.generateAll, Canonical.items]
  | cons n ns =>
    have text : Canonical.items (Node.generateAll (ruleNode selectors items :: n :: ns)) =
        (ruleNode selectors items).generate ++ "" ++
          Canonical.items (Node.generateAll (n :: ns)) := rfl
    rw [writtenItems, text]
    simp [writtenItems]

theorem textOf_curly (inner rest : Forest) :
    Word.textOf (curly inner rest).words =
      '{' :: (Word.textOf inner.words ++ '}' :: Word.textOf rest.words) := by
  simp [curly, Word.single]

/-- The words of some items make up their canonical text. -/
theorem Items.written_nodes (items : Items) :
    writtenItems items.nodes = Word.textOf items.forest.words := by
  induction items with
  | nil => rfl
  | declaration d rest ih =>
    rw [Items.nodes, Items.forest, Forest.words_append, Word.textOf_append]
    cases rest with
    | nil =>
      rw [afterDeclaration, Forest.words_nil, Word.textOf_nil, List.append_nil]
      exact d.toList_generate
    | declaration d' rest =>
      rw [Items.nodes, writtenItems_declaration, ← Items.nodes, ih]
      rfl
    | rule selectors block rest =>
      rw [Items.nodes, writtenItems_declaration, ← Items.nodes, ih]
      rfl
  | rule selectors block rest ihb ih =>
    rw [Items.nodes, writtenItems_rule, toList_rule, Items.forest, Forest.words_append,
      Word.textOf_append, textOf_curly, ihb, ih]
    simp

/-! ### Scanning -/

/-- Some items are scanned as written in front of anything that may follow a value. -/
theorem Items.fits {rest : List Char} (h : Token.endsValue rest) (items : Items) :
    Word.AllFit items.forest.words rest := by
  induction items generalizing rest with
  | nil => trivial
  | declaration d more ih =>
    rw [Items.forest, Forest.words_append, Word.allFit_append]
    cases more with
    | nil => exact ⟨d.fits h, trivial⟩
    | declaration | rule => exact ⟨d.fits (by rfl), Word.fits_single rfl, ih h⟩
  | rule selectors block more ihb ih =>
    rw [Items.forest, Forest.words_append, Word.allFit_append, curly, Forest.words_block]
    exact ⟨selectors.fits (by rfl), Word.fits_single rfl, Word.allFit_append.mpr
      ⟨ihb (by rfl), Word.fits_single rfl, ih h⟩⟩

/-! ### Where an item ends -/

section

open Grammar

variable {f inner rest : Forest} {stop : Token.Kind → Bool} {t d : Token} {ts ds : List Token}
variable {o next : Nat}

theorem endsPrelude_of_ne {k : Token.Kind} (hc : k ≠ .leftCurly) (hs : k ≠ .semicolon) :
    endsPrelude k = false := by
  rw [endsPrelude, decide_eq_false hc, decide_eq_false hs]
  rfl

/-- An item with a block, cut out at the bracket that opens it. -/
theorem take_curly (avoids : f.avoids stop) (found : stop .leftCurly = true) (inner rest : Forest)
    (o next : Nat) :
    ∃ b p q r, Item.take stop ⟨(f ++ curly inner rest).tokens o, next⟩ =
        ⟨⟨f.tokens o, o + f.width⟩, .block b, ⟨rest.tokens p, next⟩⟩ ∧
      b.inner = ⟨inner.tokens q, r⟩ ∧ b.errors = [] := by
  rw [Forest.tokens_append, curly, Forest.tokens, Item.take,
    Token.cut_tokens avoids (by exact found)]
  simp only [Word.token_kind, Word.kind_single, ↓reduceIte]
  rw [Scope.enter_closed (by rw [Forest.length_tokens])]
  exact ⟨⟨_, _, some _, _⟩, _, _, _, rfl, rfl, rfl⟩

/-- Trivia in front makes no difference to what a search at the top level finds. -/
theorem spanTop_significant (h : ∀ k : Token.Kind, k.isTrivia → stop k = false) :
    (Token.spanTop stop (Token.significant ts)).2 = (Token.spanTop stop ts).2 := by
  induction ts with
  | nil => rfl
  | cons t ts ih =>
    by_cases trivia : t.kind.isTrivia
    · have plain : t.kind.opensBlock = false := by
        cases hk : t.kind <;> first | rfl | (rw [hk] at trivia; cases trivia)
      rw [Token.spanTop_plain (h _ trivia) plain, ← ih, Token.significant,
        List.dropWhile_cons_of_pos (by exact trivia), ← Token.significant]
    · rw [Token.significant, List.dropWhile_cons_of_neg (by exact trivia)]

/-- An identifier starts no declaration if a block comes before the next semicolon. -/
theorem startsDeclaration_of_block (hk : t.kind = .ident) (custom : isCustomProperty t.text = false)
    (found : (Token.spanTop endsPrelude (t :: ts)).2 = d :: ds) (hd : d.kind = .leftCurly) :
    startsDeclaration t ⟨ts, next⟩ = false := by
  have trivia (k : Token.Kind) (h : k.isTrivia) : endsPrelude k = false := by
    cases k <;> first | rfl | cases h
  rw [Token.spanTop_plain (by rw [hk]; rfl) (by rw [hk]; rfl),
    ← spanTop_significant trivia] at found
  rw [startsDeclaration, Scope.trimStart]
  cases solid : Token.significant ts with
  | nil => rfl
  | cons colon us =>
    by_cases hc : colon.kind = .colon
    · rw [solid, Token.spanTop_plain (by rw [hc]; rfl) (by rw [hc]; rfl)] at found
      have cut : (Scope.cut endsPrelude ⟨us, next⟩).2.tokens = d :: ds := found
      have same : (fun k : Token.Kind => decide (k = .leftCurly) || decide (k = .semicolon)) =
        endsPrelude := rfl
      simp only [hc, custom, same, cut, hd, reduceCtorEq, decide_false, Bool.or_self,
        Bool.and_false]
    · simp only [hc, decide_false, Bool.false_and]

/-- A name and a colon start a declaration if no block comes before the next semicolon. -/
theorem startsDeclaration_of_colon {colon : Token} (hc : colon.kind = .colon)
    (found : ∀ d ds, (Token.spanTop endsPrelude ts).2 = d :: ds → d.kind = .semicolon) :
    startsDeclaration t ⟨colon :: ts, next⟩ = true := by
  have solid : Token.significant (colon :: ts) = colon :: ts :=
    List.dropWhile_cons_of_neg (by rw [hc]; exact Bool.false_ne_true)
  rw [startsDeclaration, Scope.trimStart, solid]
  simp only [hc, decide_true, Bool.true_and, Bool.or_eq_true]
  right
  split
  · rename_i stop us cut
    exact decide_eq_true (found stop us cut)
  · rfl

/-- The declaration in front of some items ends with its semicolon, or with the block. -/
theorem take_declaration (d : Declaration) (items : Items) (o next : Nat) :
    ∃ p q, (Item.take (· = .semicolon)
        ⟨(d.forest ++ items.afterDeclaration items.forest).tokens o, next⟩).prelude =
          ⟨d.forest.tokens o, p⟩ ∧
      (Item.take (· = .semicolon)
        ⟨(d.forest ++ items.afterDeclaration items.forest).tokens o, next⟩).after =
          ⟨items.forest.tokens q, next⟩ := by
  have avoids : d.forest.avoids (· = .semicolon) := d.avoids fun _ _ h => decide_eq_false h
  cases items with
  | nil =>
    rw [Items.afterDeclaration, Forest.append_nil, Item.take, Token.cut_tokens_all avoids]
    exact ⟨next, 0, rfl, rfl⟩
  | declaration | rule =>
    rw [Items.afterDeclaration, semicolon, Forest.tokens_append, Forest.tokens, Item.take,
      Token.cut_tokens avoids (by rfl)]
    exact ⟨_, _, rfl, rfl⟩

/-- A declaration is taken for one whatever items follow it. -/
theorem startsDeclaration_forest (d : Declaration) (items : Items) (o next : Nat) :
    ∃ t ts, (d.forest ++ items.afterDeclaration items.forest).tokens o = t :: ts ∧
      t.kind = .ident ∧ startsDeclaration t ⟨ts, next⟩ = true := by
  have avoids : (d.value.forest ++ Declaration.flag d.important).avoids endsPrelude := by
    have whole := d.avoids fun _ => endsPrelude_of_ne
    simp only [Declaration.forest, Name.before, colon, Forest.avoids, Bool.and_eq_true] at whole
    exact whole.2.2
  rw [Declaration.forest, Name.before, colon, Forest.leaf_append, Forest.leaf_append,
    Forest.tokens, Forest.tokens]
  refine ⟨_, _, rfl, rfl, startsDeclaration_of_colon rfl ?_⟩
  rw [Forest.tokens_append, Token.spanTop_tokens avoids]
  cases items with
  | nil =>
    rw [Items.afterDeclaration, Forest.tokens, Token.spanTop]
    intro d ds found
    cases found
  | declaration | rule =>
    rw [Items.afterDeclaration, semicolon, Forest.tokens, Token.spanTop_found (by rfl)]
    intro d ds found
    cases found
    rfl

/-- Tells whether some tokens start as a selector does. -/
def startsSelector (ts : List Token) : Bool :=
  ts.head?.any fun t =>
    [.ident, .hash, .delim, .colon, .leftSquare].contains t.kind && !isCustomProperty t.text

theorem startsSelector_cons
    (hk : [.ident, .hash, .delim, .colon, .leftSquare].contains t.kind = true)
    (custom : isCustomProperty t.text = false) : startsSelector (t :: ts) := by
  rw [startsSelector, List.head?_cons, Option.any_some, hk, custom]
  rfl

theorem not_custom_of_head {c : Char} (h : c ≠ '-') (cs : List Char) :
    isCustomProperty (String.ofList (c :: cs)) = false := by
  have front : ('-' == c) = false := beq_eq_false_iff_ne.mpr h.symm
  simp [isCustomProperty, String.toList_ofList, List.isPrefixOf, front]

theorem TypeName.startsSelector (t : TypeName) (o : Nat) (ts : List Token) :
    startsSelector (t.forest.tokens o ++ ts) := by
  cases t with
  | universal => exact startsSelector_cons rfl (not_custom_of_head (by decide) [])
  | named n | qualified n _ => exact startsSelector_cons rfl n.not_custom

theorem Simple.startsSelector (x : Simple) (o : Nat) (ts : List Token) :
    startsSelector (x.forest.tokens o ++ ts) := by
  cases x <;> exact startsSelector_cons rfl (not_custom_of_head (by decide) _)

theorem Compound.startsSelector (c : Compound) (o : Nat) (ts : List Token) :
    startsSelector (c.forest.tokens o ++ ts) := by
  cases c with
  | typed name more =>
    rw [Compound.forest, Forest.tokens_append, List.append_assoc]
    exact name.startsSelector o _
  | untyped first more =>
    rw [Compound.forest, Forest.tokens_append, List.append_assoc]
    exact first.startsSelector o _

theorem Selector.startsSelector (x : Selector) (o : Nat) (ts : List Token) :
    startsSelector (x.forest.tokens o ++ ts) := by
  cases x with
  | last compound => exact compound.startsSelector o ts
  | join compound joiner rest =>
    rw [Selector.forest, Forest.tokens_append, List.append_assoc]
    exact compound.startsSelector o _

theorem Selectors.startsSelector (l : Selectors) (o : Nat) (ts : List Token) :
    startsSelector (l.forest.tokens o ++ ts) := by
  cases l with
  | last selector => exact selector.startsSelector o ts
  | more selector rest =>
    rw [Selectors.forest, Forest.tokens_append, List.append_assoc]
    exact selector.startsSelector o _

/-- What is known of the first token of a rule. -/
theorem Selectors.exists_head (l : Selectors) (g : Forest) (o : Nat) :
    ∃ t ts, (l.forest ++ g).tokens o = t :: ts ∧ t.kind.isTrivia = false ∧
      t.kind ∉ [.semicolon, .atKeyword, .cdo, .cdc] ∧ isCustomProperty t.text = false := by
  have starts := l.startsSelector o (g.tokens (o + l.forest.width))
  rw [← Forest.tokens_append] at starts
  cases tokens : (l.forest ++ g).tokens o with
  | nil =>
    rw [tokens] at starts
    cases starts
  | cons t ts =>
    rw [tokens, Plain.startsSelector, List.head?_cons, Option.any_some, Bool.and_eq_true,
      Bool.not_eq_true'] at starts
    obtain ⟨kind, custom⟩ := starts
    refine ⟨t, ts, rfl, ?_, ?_, custom⟩
    · cases hk : t.kind <;> first | rfl | (rw [hk] at kind; cases kind)
    · intro other
      simp only [List.mem_cons, List.not_mem_nil, or_false] at other
      obtain h | h | h | h := other <;> rw [h] at kind <;> cases kind

/-- A rule is not taken for a declaration. -/
theorem startsDeclaration_rule (l : Selectors) (custom : isCustomProperty t.text = false)
    (front : (l.forest ++ curly inner rest).tokens o = t :: ts) (next : Nat) :
    ¬(t.kind = .ident && startsDeclaration t ⟨ts, next⟩) = true := by
  intro starts
  rw [Bool.and_eq_true, decide_eq_true_eq] at starts
  obtain ⟨d, ds, found, hd⟩ :
      ∃ d ds, (Token.spanTop endsPrelude (t :: ts)).2 = d :: ds ∧ d.kind = .leftCurly := by
    rw [← front, Forest.tokens_append, Token.spanTop_tokens (l.avoids fun _ => endsPrelude_of_ne),
      curly, Forest.tokens, Token.spanTop_found (by rfl)]
    exact ⟨_, _, rfl, rfl⟩
  rw [startsDeclaration_of_block starts.1 custom found hd] at starts
  cases starts.2

end

/-! ### Reading -/

section

open Grammar

variable {o next : Nat}

theorem rulePrelude_read (l : Selectors) (limit : Nat) :
    (rulePrelude false limit ⟨l.forest.tokens o, next⟩).map Node.strip = ⟨l.node, []⟩ := by
  have firm : Firm ((l.forest.tokens o).map Token.kind) := by
    rw [Forest.kinds_tokens]
    exact l.firm
  have read := l.read limit o next
  cases items : selectors limit ⟨l.forest.tokens o, next⟩ with
  | error e =>
    rw [items] at read
    cases read
  | ok ms =>
    rw [items] at read
    obtain shape : shapes ms = l.nodes := Except.ok.inj read
    simp only [rulePrelude, Scope.trim_of_tight firm.tight, firm.isEmpty, Bool.false_eq_true,
      ↓reduceIte, selectorList, items, bind, Except.bind, orRaw, Parsed.map, strip_mk, shape]
    rfl

theorem styleRule_read {prelude : Parsed Located} {b : Block} {items : Parsed (List Located)}
    {selectors : Selectors} {ns : List (Node Unit)} (start : Nat)
    (hp : prelude.map Node.strip = ⟨selectors.node, []⟩) (hi : items.map shapes = ⟨ns, []⟩)
    (closed : b.errors = []) :
    (styleRule start prelude (withBlock b items)).map Node.strip =
      ⟨ruleNode selectors ns, []⟩ := by
  simp only [Parsed.map, Parsed.mk.injEq] at hp hi
  simp only [styleRule, withBlock, Parsed.map, strip_mk, shapes, List.map_cons, List.map_nil, hp,
    ← hi.1, hi.2, closed, List.append_nil]
  rfl

theorem cons_shapes (item : Parsed Located) (rest : Parsed (List Located)) :
    (item.cons rest).map shapes = (item.map Node.strip).cons (rest.map shapes) := rfl

/-- Items are read as themselves, also if other items stand around them. -/
theorem Items.read (nested : Bool) (o next : Nat) (items : Items) :
    (blockItems nested ⟨items.forest.tokens o, next⟩).map shapes = ⟨items.nodes, []⟩ := by
  induction items generalizing nested o next with
  | nil =>
    rw [Items.forest, Forest.tokens, blockItems_nil]
    rfl
  | declaration d rest ih =>
    obtain ⟨t, ts, front, kind, starts⟩ := startsDeclaration_forest d rest o next
    obtain ⟨p, q, prelude, after⟩ := take_declaration d rest o next
    rw [Items.forest]
    rw [front] at prelude after ⊢
    rw [blockItems_declaration (by rw [kind]; exact nofun) (by rw [kind]; exact nofun)
      (by rw [kind, starts]; rfl), prelude, after, cons_shapes, d.read, ih]
    rfl
  | rule selectors block rest ihb ih =>
    obtain ⟨t, ts, front, trivia, kind, custom⟩ :=
      selectors.exists_head (curly block.forest rest.forest) o
    obtain ⟨b, p, q, r, item, inside, closed⟩ := take_curly
      (selectors.avoids fun _ => endsPrelude_of_ne) rfl block.forest rest.forest o next
    have starts := startsDeclaration_rule selectors custom front next
    simp only [List.mem_cons, List.not_mem_nil, or_false, not_or] at kind
    rw [Items.forest, front]
    rw [front] at item
    have items : (blockItems true b.inner).map shapes = ⟨block.nodes, []⟩ := by
      rw [inside]
      exact ihb true q r
    rw [blockItems_rule (by simp [trivia, kind]) kind.2.1 starts (congrArg Item.ending item), item,
      cons_shapes, styleRule_read t.start (rulePrelude_read selectors _) items closed, ih]
    rfl

end

end Plain

end Stylesheet
