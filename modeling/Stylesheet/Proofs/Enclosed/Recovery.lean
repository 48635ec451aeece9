import Stylesheet.Proofs.Enclosed.Rule

/-!
# Recovery at a semicolon

Whatever stands in a block up to a semicolon, what follows the semicolon is read as if nothing stood
before it, so long as the blocks in front are closed and no curly bracket opens outside of them. An
error in one declaration therefore spoils no other.
-/

namespace Stylesheet

open Token Grammar Plain

/-- Some statements are one: a text whose only semicolon outside its blocks is the last token, and that
has no curly bracket outside of them either. -/
structure TokenList.OneStatement (list : TokenList) : Prop extends list.Statements where
  single : (topLevel list.tokens).countP (fun t => t.kind = .semicolon) = 1
  flat : ∀ t ∈ topLevel list.tokens, t.kind ≠ .leftCurly

/-- What stands before the semicolon does not end an item. -/
theorem TokenList.OneStatement.exists_front {x : String} (h : (tokenize x).OneStatement) :
    ∃ (front : List Token) (semicolon : Token), (tokenize x).tokens = front ++ [semicolon] ∧
      semicolon.kind = .semicolon ∧ Token.Closed front ∧
        ∀ t ∈ topLevel front, endsPrelude t.kind = false := by
  obtain ⟨semicolon, last, kind⟩ := h.ends
  obtain ⟨front, split⟩ := List.getLast?_eq_some_iff.mp last
  have closed : Token.Closed front := by
    have whole := h.complete.tokens
    rw [split] at whole
    refine whole.of_concat fun k closing => ?_
    rw [kind] at closing
    cases k <;> cases closing
  have outside : topLevel (tokenize x).tokens = topLevel front ++ [semicolon] := by
    rw [split, topLevel_append closed, topLevel_leaf (by rw [kind]; rfl), topLevel_nil]
  refine ⟨front, semicolon, split, kind, closed, fun t ht => endsPrelude_of_ne ?_ ?_⟩
  · refine h.flat t ?_
    rw [outside]
    exact List.mem_append_left _ ht
  · have single := h.single
    rw [outside, List.countP_append, List.countP_singleton, kind] at single
    have none : (topLevel front).countP (fun t => t.kind = .semicolon) = 0 := by
      simpa using single
    simpa using List.countP_eq_zero.mp none t ht

/-- After a statement a declaration is read as itself, and the statement is one item at most. -/
theorem blockItems_recover {x : String} (h : (tokenize x).OneStatement) (d : Plain.Declaration)
    (next : Nat) :
    ∃ items last, (blockItems true ⟨(tokenize x).tokens ++ d.forest.tokens x.utf8ByteSize, next⟩).value =
        items ++ [last] ∧ items.length ≤ 1 ∧ last.strip = d.node := by
  obtain ⟨front, semicolon, split, kind, closed, none⟩ := h.exists_front
  have read := (Items.declaration d .nil).read true x.utf8ByteSize next
  have shape : shapes (blockItems true ⟨d.forest.tokens x.utf8ByteSize, next⟩).value = [d.node] := by
    rw [Items.forest, Items.afterDeclaration, Forest.append_nil] at read
    exact congrArg Parsed.value read
  obtain ⟨last, _, only, own, nil⟩ := List.map_eq_cons_iff.mp shape
  obtain rfl := List.map_eq_nil_iff.mp nil
  obtain ⟨items, few, resumed⟩ :=
    blockItems_resume (d.forest.tokens x.utf8ByteSize) closed none kind true next
  rw [split, List.append_assoc, List.singleton_append, resumed, only]
  exact ⟨items, last, rfl, few, own⟩

/-- Whatever stands before a semicolon, a plain declaration behind it is read as itself, and what
stands before is one item at most. -/
theorem parse_recovers {g : String} (h : (tokenize (g ++ ";")).OneStatement) (p v : Plain.Name)
    (options : ParseOptions) (clock : Clock) :
    ∃ d rule prelude block items last,
      parse ("a\x7b" ++ g ++ ";" ++ p.text ++ ":" ++ v.text ++ "\x7d")
        { options with budgets := {} } clock = .ok d ∧
      d.root.children = [rule] ∧ rule.kind = .rule ∧ rule.children = [prelude, block] ∧
      block.kind = .block ∧ block.children = items ++ [last] ∧ items.length ≤ 1 ∧
      last.SameShape (⟨.declaration, .declaration p.text false, (),
        [⟨.value, .none, (), [⟨.identifier, .name v.text, (), []⟩]⟩]⟩ : Node Unit) := by
  let declaration : Plain.Declaration := ⟨p, false, .some (.identifier v) .done⟩
  have text : "a\x7b" ++ g ++ ";" ++ p.text ++ ":" ++ v.text ++ "\x7d" =
      "a\x7b" ++ ((g ++ ";") ++ String.ofList (Word.textOf declaration.forest.words)) ++ "\x7d" := by
    have words : Word.textOf declaration.forest.words = p.chars ++ ':' :: v.chars := by
      simp [declaration, Declaration.forest, Declaration.flag, Components.forest, Component.forest,
        More.forest, Word.ident, Word.single]
    rw [words, ← String.toList_inj]
    simp [Name.text]
  obtain ⟨d, read⟩ :=
    exists_parse ("a\x7b" ++ g ++ ";" ++ p.text ++ ":" ++ v.text ++ "\x7d") options clock
  have shape := Document.treeOf_enclosed h.toStatements declaration.forest (declaration.fits rfl)
    (by exact Nat.zero_lt_succ 255) options.captureSpans
  obtain ⟨rule, prelude, block, -, only, kind, parts, -, items⟩ := exists_rule shape
  obtain ⟨before, last, value, few, own⟩ := blockItems_recover h declaration
    ((g ++ ";").utf8ByteSize + declaration.forest.width)
  obtain ⟨blockKind, children⟩ := of_strip_eq items
  rw [value, shapes, List.map_append, List.map_singleton] at children
  obtain ⟨items, rest, split, left, right⟩ := List.map_eq_append_iff.mp children
  obtain ⟨node, nothing, rfl, shape, none⟩ := List.map_eq_cons_iff.mp right
  obtain rfl := List.map_eq_nil_iff.mp none
  have length : items.length = before.length := by
    simpa using congrArg List.length left
  refine ⟨d, rule, prelude, block, items, node, read, ?_, kind, parts, blockKind, split, ?_, ?_⟩
  · rw [parse_root read, text]
    exact only
  · rw [length]
    exact few
  · rw [Node.SameShape, shape, own]
    rfl

/-- A property without a colon, a stray bracket, a bad string, and brackets with a semicolon in them. -/
theorem parse_recovers_garbage :
    ∃ d rule prelude block items last,
      parse "a\x7bb c)-->'d\ne[;\x7bf;\x7d]!;p:v\x7d" {} = .ok d ∧
      d.root.children = [rule] ∧ rule.kind = .rule ∧ rule.children = [prelude, block] ∧
      block.kind = .block ∧ block.children = items ++ [last] ∧ items.length ≤ 1 ∧
      last.SameShape (⟨.declaration, .declaration "p" false, (),
        [⟨.value, .none, (), [⟨.identifier, .name "v", (), []⟩]⟩]⟩ : Node Unit) := by
  have one : (tokenize ("b c)-->'d\ne[;\x7bf;\x7d]!" ++ ";")).OneStatement := by
    refine ⟨⟨?_, ?_, ⟨⟨.semicolon, ";", 19, none, none, ""⟩, ?_, rfl⟩, ?_⟩, ?_, ?_⟩ <;> decide +kernel
  have read := parse_recovers one ⟨['p'], by decide⟩ ⟨['v'], by decide⟩ {} {}
  have text : "a\x7b" ++ "b c)-->'d\ne[;\x7bf;\x7d]!" ++ ";" ++ Name.text ⟨['p'], by decide⟩ ++ ":" ++
      Name.text ⟨['v'], by decide⟩ ++ "\x7d" = "a\x7bb c)-->'d\ne[;\x7bf;\x7d]!;p:v\x7d" := by
    decide +kernel
  rw [text] at read
  exact read

end Stylesheet
