import Stylesheet.Proofs.Recompiled.Part
import Stylesheet.Proofs.Spelling.Sheet

/-!
# Selectors that are compiled again

The text of a list of selectors that can be matched is made of the texts of their parts, of blanks
and of `>`, and of commas, with nothing between them. If it is scanned as these texts are one by one,
it is read as the list again. Else something has grown together, as two types do that were written
with only a comment between them.
-/

namespace Stylesheet

open Token (lexemes)

/-! ### Texts set apart -/

namespace Node

variable {α : Type}

/-- The texts that the text of a list of selectors is made of. -/
def listPieces (list : Node α) : List String :=
  [","].intercalate (list.children.map fun s => s.children.flatMap partPieces)

/-- The text of a list of selectors is scanned as the texts that it is made of are one by one. -/
def SetApart (list : Node α) : Prop :=
  lexemes list.canonical.toList = list.listPieces.flatMap fun p => lexemes p.toList

instance (list : Node α) : Decidable list.SetApart :=
  inferInstanceAs (Decidable (lexemes _ = _))

section

variable {β : Type} {n : Node α} {m : Node β}

theorem partPieces_map (f : α → β) (n : Node α) : (n.map f).partPieces = n.partPieces := by
  rw [partPieces, map_detail, generate_map]
  rfl

theorem listPieces_map (f : α → β) (n : Node α) : (n.map f).listPieces = n.listPieces := by
  simp only [listPieces, map_children, List.map_map, Function.comp_def, List.flatMap_map,
    partPieces_map]

theorem SameShape.listPieces_eq (h : n.SameShape m) : n.listPieces = m.listPieces := by
  rw [← listPieces_map (fun _ => ()) n, ← listPieces_map (fun _ => ()) m]
  exact congrArg listPieces h

end

end Node

namespace Token.Word

variable {w : Word} {ws : List Word} {wss : List (List Word)} {rest : List Char}

theorem AllFit.nonempty (h : AllFit ws rest) : ∀ w ∈ ws, w.text ≠ [] := by
  induction ws with
  | nil => rintro _ ⟨⟩
  | cons w ws ih =>
    obtain ⟨⟨c, cs, text, -⟩, others⟩ := h
    exact List.forall_mem_cons.mpr ⟨by rw [text]; exact List.cons_ne_nil c cs, ih others⟩

/-- Words that are the lexemes of their text fit. -/
theorem allFit_of_lexemes (h : lexemes (textOf ws) = ws.map lexeme)
    (nonempty : ∀ w ∈ ws, w.text ≠ []) : AllFit ws [] := by
  induction ws with
  | nil => trivial
  | cons w ws ih =>
    obtain ⟨some, others⟩ := List.forall_mem_cons.mp nonempty
    obtain ⟨c, cs, text⟩ := List.exists_cons_of_ne_nil some
    rw [textOf_cons, text, List.cons_append, lexemes, List.map_cons] at h
    obtain ⟨first, later⟩ := List.cons.inj h
    have scan : Lexeme.scan c (cs ++ textOf ws) = ⟨w.kind, cs.length, w.value⟩ := by
      have scan := congrArg Prod.fst first
      rwa [lexeme, text] at scan
    rw [scan, List.drop_left] at later
    refine ⟨⟨c, cs, text, ?_⟩, ih later others⟩
    rw [List.append_nil]
    exact scan

/-- Words that fit one group after the other fit together if their text is scanned as the texts of
the groups are. -/
theorem allFit_flatten (fits : ∀ ws ∈ wss, AllFit ws [])
    (apart : lexemes (textOf wss.flatten) = wss.flatMap fun ws => lexemes (textOf ws)) :
    AllFit wss.flatten [] := by
  refine allFit_of_lexemes ?_ fun w hw => ?_
  · have each : ∀ ws ∈ wss, lexemes (textOf ws) = ws.map lexeme := fun ws hws => by
      have cut := (fits ws hws).lexemes_append
      rwa [List.append_nil, lexemes, List.append_nil] at cut
    rw [apart, List.flatMap_congr each, List.map_flatten, List.flatMap_def]
  · obtain ⟨ws, hws, hw⟩ := List.mem_flatten.mp hw
    exact (fits ws hws).nonempty w hw

end Token.Word

namespace Portable

open Token (Word Forest Firm)

open Grammar (selectors descendant explicitCombinator)

/-- Simple selectors with nothing, a blank or `>` between every two of them. -/
structure Selector where
  first : Part
  rest : List (Option Combinator × Part)

/-! ### As nodes -/

/-- The node of a combinator. -/
def combinatorNode (c : Combinator) : Node Unit := Plain.node .combinator (.name c.symbol) []

/-- The nodes of simple selectors and of what stands before them. -/
def restNodes (rest : List (Option Combinator × Part)) : List (Node Unit) :=
  rest.flatMap fun (c, p) => c.toList.map combinatorNode ++ [p.node]

namespace Selector

/-- The nodes of the parts of a selector. -/
def nodes (x : Selector) : List (Node Unit) := x.first.node :: restNodes x.rest

/-- The node of a selector. -/
def node (x : Selector) : Node Unit := Plain.node .selector .none x.nodes

end Selector

/-- The node of a list of selectors. -/
def listNode (xs : List Selector) : Node Unit :=
  Plain.node .selectorList .none (xs.map Selector.node)

/-! ### As words -/

/-- A combinator as a word. -/
def combinatorWord : Combinator → Word
  | .descendant => .single .whiteSpace ' '
  | .child => .single .delim '>'

theorem plain_comma : (Word.single .comma ',').kind.isBracket = false := rfl

theorem plain_combinator (c : Combinator) : (combinatorWord c).kind.isBracket = false := by
  cases c <;> rfl

/-- A combinator, if there is one, in front of other words. -/
def combined (c : Option Combinator) (rest : Forest) : Forest :=
  match c with
  | none => rest
  | some c => .leaf (combinatorWord c) (plain_combinator c) rest

/-- The words of simple selectors and of what stands before them. -/
def restForest : List (Option Combinator × Part) → Forest
  | [] => .nil
  | (c, p) :: rest => combined c (p.forest ++ restForest rest)

/-- The words of a selector. -/
def Selector.forest (x : Selector) : Forest := x.first.forest ++ restForest x.rest

/-- The words of selectors with commas between them. -/
def listForest (x : Selector) : List Selector → Forest
  | [] => x.forest
  | y :: ys =>
    x.forest ++ .leaf (.single .comma ',') plain_comma (listForest y ys)

/-- The words of simple selectors and of what stands before them, piece by piece. -/
def restPieces (rest : List (Option Combinator × Part)) : List (List Word) :=
  rest.flatMap fun (c, p) => c.toList.map (fun c => [combinatorWord c]) ++ p.pieces

/-- The words of a selector, piece by piece. -/
def Selector.pieces (x : Selector) : List (List Word) := x.first.pieces ++ restPieces x.rest

/-- The words of selectors with commas between them, piece by piece. -/
def listPieces (xs : List Selector) : List (List Word) :=
  [[Word.single .comma ',']].intercalate (xs.map Selector.pieces)

/-! ### Writing -/

theorem words_combined (c : Option Combinator) (rest : Forest) :
    (combined c rest).words = c.toList.map combinatorWord ++ rest.words := by
  cases c <;> rfl

theorem restPieces_cons (c : Option Combinator) (p : Part)
    (rest : List (Option Combinator × Part)) :
    restPieces ((c, p) :: rest) =
      c.toList.map (fun c => [combinatorWord c]) ++ (p.pieces ++ restPieces rest) := by
  rw [restPieces, List.flatMap_cons, List.append_assoc]
  rfl

theorem flatten_restPieces (rest : List (Option Combinator × Part)) :
    (restPieces rest).flatten = (restForest rest).words := by
  induction rest with
  | nil => rfl
  | cons r rest ih =>
    obtain ⟨c, p⟩ := r
    rw [restPieces_cons, List.flatten_append, List.flatten_append, ih, p.flatten_pieces, restForest,
      words_combined, Forest.words_append]
    cases c <;> rfl

theorem Selector.flatten_pieces (x : Selector) : x.pieces.flatten = x.forest.words := by
  rw [pieces, List.flatten_append, x.first.flatten_pieces, flatten_restPieces, forest,
    Forest.words_append]

theorem listPieces_cons (x y : Selector) (ys : List Selector) :
    listPieces (x :: y :: ys) =
      x.pieces ++ [Word.single .comma ','] :: listPieces (y :: ys) := by
  simp only [listPieces, List.map_cons, List.intercalate_cons_cons, List.append_assoc,
    List.singleton_append]

theorem flatten_listPieces (x : Selector) (xs : List Selector) :
    (listPieces (x :: xs)).flatten = (listForest x xs).words := by
  induction xs generalizing x with
  | nil => simp [listPieces, List.intercalate, x.flatten_pieces, listForest]
  | cons y ys ih =>
    rw [listPieces_cons, List.flatten_append, List.flatten_cons, x.flatten_pieces, ih, listForest,
      Forest.words_append, Forest.words_leaf]
    rfl

theorem fits_combinator (c : Combinator) : Word.AllFit [combinatorWord c] [] := by
  cases c <;> exact ⟨Word.fits_single rfl, trivial⟩

theorem restPieces_fit (rest : List (Option Combinator × Part)) :
    ∀ ws ∈ restPieces rest, Word.AllFit ws [] := by
  rw [restPieces, List.forall_mem_flatMap]
  rintro ⟨c, p⟩ -
  refine List.forall_mem_append.mpr ⟨?_, p.fits_pieces⟩
  rw [List.forall_mem_map]
  exact fun c _ => fits_combinator c

theorem Selector.fits_pieces (x : Selector) : ∀ ws ∈ x.pieces, Word.AllFit ws [] :=
  List.forall_mem_append.mpr ⟨x.first.fits_pieces, restPieces_fit x.rest⟩

/-- Each piece of a list is scanned as its words. -/
theorem listPieces_fit (x : Selector) (xs : List Selector) :
    ∀ ws ∈ listPieces (x :: xs), Word.AllFit ws [] := by
  induction xs generalizing x with
  | nil => simpa [listPieces, List.intercalate] using x.fits_pieces
  | cons y ys ih =>
    rw [listPieces_cons]
    exact List.forall_mem_append.mpr ⟨x.fits_pieces,
      List.forall_mem_cons.mpr ⟨⟨Word.fits_single rfl, trivial⟩, ih y⟩⟩

/-! ### Texts -/

theorem generate_combinator (c : Combinator) :
    (combinatorNode c).generate.toList = Word.textOf [combinatorWord c] := by
  cases c <;> rfl

theorem restNodes_cons (c : Option Combinator) (p : Part) (rest : List (Option Combinator × Part)) :
    restNodes ((c, p) :: rest) = c.toList.map combinatorNode ++ p.node :: restNodes rest := by
  rw [restNodes, List.flatMap_cons, List.append_assoc]
  rfl

theorem Part.padCustom_node (p : Part) : p.node.padCustom = p.node := by
  cases p with
  | type | qualified | id | className => rfl
  | attr name test => cases test <;> rfl

theorem written_restNodes (rest : List (Option Combinator × Part)) :
    Plain.written (restNodes rest) = Word.textOf (restForest rest).words := by
  induction rest with
  | nil => rfl
  | cons r rest ih =>
    obtain ⟨c, p⟩ := r
    rw [restNodes_cons, Plain.written_append, Plain.written_cons, ih, p.toList_generate, restForest,
      words_combined, Forest.words_append, Word.textOf_append, Word.textOf_append]
    cases c with
    | none => rfl
    | some c => exact congrArg (· ++ _) ((List.append_nil _).trans (generate_combinator c))

theorem Selector.toList_generate (x : Selector) :
    x.node.generate.toList = Word.textOf x.forest.words := by
  rw [node, Plain.toList_selector, nodes, Plain.written_cons, x.first.toList_generate,
    written_restNodes, forest, Forest.words_append, Word.textOf_append]

/-- The text of a list of selectors is that of its words. -/
theorem toList_generate (x : Selector) (xs : List Selector) :
    (listNode (x :: xs)).generate.toList = Word.textOf (listForest x xs).words := by
  change Plain.commaSeparated ((x :: xs).map Selector.node) = _
  induction xs generalizing x with
  | nil => exact (Plain.commaSeparated_singleton _).trans x.toList_generate
  | cons y ys ih =>
    rw [List.map_cons, List.map_cons, Plain.commaSeparated_cons, ← List.map_cons, ih,
      x.toList_generate, listForest, Forest.words_append, Forest.words_leaf, Word.textOf_append]
    rfl

theorem padCustom_restNodes (rest : List (Option Combinator × Part)) :
    (restNodes rest).map Node.padCustom = restNodes rest := by
  induction rest with
  | nil => rfl
  | cons r rest ih =>
    obtain ⟨c, p⟩ := r
    rw [restNodes_cons, List.map_append, List.map_cons, ih, p.padCustom_node]
    cases c <;> rfl

/-- No value of a custom property is to be padded in a list of selectors. -/
theorem canonical_listNode (xs : List Selector) :
    (listNode xs).canonical = (listNode xs).generate := by
  have each (x : Selector) : x.node.padCustom = x.node := by
    refine Plain.padCustom_node rfl ?_
    rw [Selector.nodes, List.map_cons, x.first.padCustom_node, padCustom_restNodes]
  rw [Node.canonical_eq, listNode, Plain.padCustom_node rfl]
  rw [List.map_map]
  exact List.map_congr_left fun x _ => each x

theorem partPieces_restNodes (rest : List (Option Combinator × Part)) :
    ((restNodes rest).flatMap Node.partPieces).map String.toList =
      (restPieces rest).map Word.textOf := by
  induction rest with
  | nil => rfl
  | cons r rest ih =>
    obtain ⟨c, p⟩ := r
    rw [restNodes_cons, List.flatMap_append, List.flatMap_cons, List.map_append, List.map_append,
      p.partPieces_node, ih, restPieces_cons, List.map_append, List.map_append]
    cases c with
    | none => rfl
    | some c => exact congrArg (· :: _) (generate_combinator c)

theorem partPieces_nodes (x : Selector) :
    (x.node.children.flatMap Node.partPieces).map String.toList = x.pieces.map Word.textOf := by
  have children : x.node.children = x.first.node :: restNodes x.rest := rfl
  rw [children, List.flatMap_cons, List.map_append, x.first.partPieces_node,
    partPieces_restNodes, Selector.pieces, List.map_append]

/-- The texts that the text of a list is made of are those of its pieces. -/
theorem listPieces_node (x : Selector) (xs : List Selector) :
    (listNode (x :: xs)).listPieces.map String.toList =
      (listPieces (x :: xs)).map Word.textOf := by
  change ([","].intercalate (((x :: xs).map Selector.node).map fun s =>
    s.children.flatMap Node.partPieces)).map String.toList = _
  induction xs generalizing x with
  | nil => simpa [listPieces, List.intercalate] using partPieces_nodes x
  | cons y ys ih =>
    specialize ih y
    rw [List.map_cons, List.map_cons] at ih
    rw [listPieces_cons, List.map_cons, List.map_cons, List.map_cons, List.map_cons,
      List.intercalate_cons_cons, List.map_append, List.map_append, ih, partPieces_nodes,
      List.map_append, List.map_cons, List.append_assoc]
    rfl

/-- If the text of a list is scanned as the texts that it is made of, it is scanned as the words of
the list. -/
theorem listForest_fits {x : Selector} {xs : List Selector}
    (apart : lexemes (listNode (x :: xs)).generate.toList =
      (listNode (x :: xs)).listPieces.flatMap fun p => lexemes p.toList) :
    Word.AllFit (listForest x xs).words [] := by
  have texts := congrArg (List.flatMap lexemes) (listPieces_node x xs)
  rw [List.flatMap_map, List.flatMap_map] at texts
  rw [toList_generate, texts] at apart
  rw [← flatten_listPieces] at apart ⊢
  exact Word.allFit_flatten (listPieces_fit x xs) apart

/-! ### Reading -/

section

variable {limit o next : Nat} {last : Option NodeKind} {gap : Option Token} {k : NodeKind}

theorem Part.kind_ne (p : Part) : p.kind ≠ .combinator := by
  cases p <;> exact nofun

theorem qualifies_restForest (rest : List (Option Combinator × Part)) :
    Plain.qualifies ((restForest rest).tokens o) = false := by
  obtain _ | ⟨⟨_ | c, p⟩, rest⟩ := rest
  · rfl
  · rw [restForest, combined, Forest.tokens_append]
    exact p.qualifies
  · rw [restForest, combined, Forest.tokens]
    cases c with
    | descendant => rfl
    | child =>
      rw [Plain.qualifies, List.head?_cons, Option.any_some, combinatorWord, Plain.isDelim_single]
      rfl

/-- What stands behind a simple selector is read as it was made. -/
theorem restForest_read (rest : List (Option Combinator × Part)) (hk : k ≠ .combinator) :
    Plain.parts limit (some k) none ⟨(restForest rest).tokens o, next⟩ = .ok (restNodes rest) := by
  induction rest generalizing k o with
  | nil => exact Plain.parts_nil
  | cons r rest ih =>
    obtain ⟨c, p⟩ := r
    have part (last : Option NodeKind) (gap : Option Token) (o : Nat) :
        Plain.parts limit last gap ⟨(p.forest ++ restForest rest).tokens o, next⟩ =
          .ok (Plain.shapes (descendant last gap) ++ p.node :: restNodes rest) := by
      rw [Forest.tokens_append, p.read (qualifies_restForest rest), ih p.kind_ne]
      rfl
    rw [restForest, restNodes_cons]
    cases c with
    | none => exact part _ _ _
    | some c =>
      rw [combined, Forest.tokens]
      cases c with
      | descendant =>
        rw [Plain.parts_space rfl, part, descendant, if_neg (by simpa using hk)]
        rfl
      | child =>
        have found (ts : List Token) :
            explicitCombinator ((Word.single .delim '>').token o) ⟨ts, next⟩ =
              some (">", (Word.single .delim '>').token o, ⟨ts, next⟩) := by
          rw [explicitCombinator, Plain.delim?_single]
          rfl
        rw [combinatorWord, Plain.parts_combinator rfl (found _), part]
        rfl

theorem Selector.read (x : Selector) :
    Plain.parts limit none none ⟨x.forest.tokens o, next⟩ = .ok x.nodes := by
  rw [forest, Forest.tokens_append, x.first.read (qualifies_restForest x.rest),
    restForest_read x.rest x.first.kind_ne]
  rfl

theorem restForest_firm {ks : List Token.Kind} (h : Firm ks)
    (rest : List (Option Combinator × Part)) :
    Firm (ks ++ (restForest rest).words.map Word.kind) := by
  induction rest generalizing ks with
  | nil => rwa [restForest, Forest.words_nil, List.map_nil, List.append_nil]
  | cons r rest ih =>
    obtain ⟨c, p⟩ := r
    rw [restForest, words_combined, Forest.words_append, List.map_append, List.map_append,
      ← List.append_assoc, ← List.append_assoc]
    refine ih ?_
    rw [List.append_assoc]
    exact h.join p.firm _

theorem Selector.firm (x : Selector) : Firm (x.forest.words.map Word.kind) := by
  rw [forest, Forest.words_append, List.map_append]
  exact restForest_firm x.first.firm x.rest

theorem listForest_firm (x : Selector) (xs : List Selector) :
    Firm ((listForest x xs).words.map Word.kind) := by
  induction xs generalizing x with
  | nil => exact x.firm
  | cons y ys ih =>
    rw [listForest, Forest.words_append, List.map_append, Forest.words_leaf, List.map_cons]
    exact x.firm.join (ih y) [.comma]

theorem restForest_avoids (rest : List (Option Combinator × Part)) :
    (restForest rest).avoids (· = .comma) := by
  induction rest with
  | nil => rfl
  | cons r rest ih =>
    obtain ⟨c, p⟩ := r
    have both : (p.forest ++ restForest rest).avoids (· = .comma) := by
      rw [Forest.avoids_append, p.avoids, ih]
      rfl
    rw [restForest]
    obtain _ | _ | _ := c
    · exact both
    · exact both
    · exact both

/-- Outside all blocks, a selector has no comma. -/
theorem Selector.avoids (x : Selector) : x.forest.avoids (· = .comma) := by
  rw [forest, Forest.avoids_append, x.first.avoids, restForest_avoids]
  rfl

theorem restForest_depth (rest : List (Option Combinator × Part)) :
    (restForest rest).depth ≤ 1 := by
  induction rest with
  | nil => exact Nat.zero_le _
  | cons r rest ih =>
    obtain ⟨c, p⟩ := r
    have both : (p.forest ++ restForest rest).depth ≤ 1 := by
      rw [Plain.depth_append]
      exact Nat.max_le.mpr ⟨p.depth_forest, ih⟩
    cases c <;> exact both

theorem listForest_depth (x : Selector) (xs : List Selector) : (listForest x xs).depth ≤ 1 := by
  have one (x : Selector) : x.forest.depth ≤ 1 := by
    rw [Selector.forest, Plain.depth_append]
    exact Nat.max_le.mpr ⟨x.first.depth_forest, restForest_depth x.rest⟩
  induction xs generalizing x with
  | nil => exact one x
  | cons y ys ih =>
    rw [listForest, Plain.depth_append]
    exact Nat.max_le.mpr ⟨one x, ih y⟩

/-- The selectors of a list are read one after the other. -/
theorem listForest_read (x : Selector) (xs : List Selector) :
    (selectors limit ⟨(listForest x xs).tokens o, next⟩).map Plain.shapes =
      .ok ((x :: xs).map Selector.node) := by
  induction xs generalizing x o with
  | nil => exact Plain.selectors_single x.firm x.avoids x.read
  | cons y ys ih =>
    rw [listForest, Forest.tokens_append, Forest.tokens]
    have cut := Token.cut_tokens x.avoids
      (show decide (((Word.single .comma ',').token (o + x.forest.width)).kind = .comma) from rfl)
      o next
    rw [Plain.selectors_first x.firm (congrArg Prod.fst (cut _)) x.read, cut]
    dsimp only
    rw [ih]
    rfl

end

end Portable

/-- A list of selectors whose parts are made of portable tokens is compiled from its text as from
its nodes, if it is set apart. -/
theorem SelectorList.ofText_generate {α : Type} {list : Node α} {x : Portable.Selector}
    {xs : List Portable.Selector} (shape : list.SameShape (Portable.listNode (x :: xs)))
    (apart : list.SetApart) : ofText list.canonical = ofNode list.canonical list [] := by
  rw [Node.SetApart, shape.canonical, shape.listPieces_eq, Portable.canonical_listNode] at apart
  have text : list.canonical =
      String.ofList (Token.Word.textOf (Portable.listForest x xs).words) := by
    rw [shape.canonical, Portable.canonical_listNode, ← Portable.toList_generate,
      String.ofList_toList]
  have depth := Portable.listForest_depth x xs
  obtain ⟨d, read, errors, same⟩ := Plain.parseAs_forest (Portable.listForest_fits apart)
    (Nat.le_trans depth (by decide))
    (Plain.readScope_selectors (Portable.listForest_firm x xs)
      fun _ => Portable.listForest_read x xs) {} {}
  rw [← text] at read
  obtain ⟨d', read', -, compiled⟩ := ofText_eq list.canonical
  obtain rfl : d = d' := Except.ok.inj (read.symm.trans read')
  rw [compiled, errors, ofNode_sameShape (same.trans shape.symm)]

end Stylesheet
