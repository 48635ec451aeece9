import Stylesheet.Proofs.Spelling.Value

/-!
# Plain declarations

A plain declaration has a plain property, so it is no custom property, and a plain value. It may be
important. Its tokens are read as the declaration, wherever it stands in a block.
-/

namespace Stylesheet

namespace Plain

open Token (Word Forest Firm)

/-- A declaration with a plain property and value. -/
structure Declaration where
  property : Name
  important : Bool
  value : Components

namespace Declaration

/-- The node of a declaration. -/
def node (d : Declaration) : Node Unit :=
  Plain.node .declaration (.declaration d.property.text d.important)
    [Plain.node .value .none d.value.nodes]

/-- The words that make a declaration important. -/
def flag : Bool → Forest
  | true =>
    .leaf (.single .delim '!') (Word.plain_single (by decide))
      (.leaf (.ident ['i', 'm', 'p', 'o', 'r', 't', 'a', 'n', 't']) Word.plain_ident .nil)
  | false => .nil

/-- The words of a declaration. -/
def forest (d : Declaration) : Forest :=
  d.property.before (colon (d.value.forest ++ flag d.important))

variable (d : Declaration) {o next : Nat}

theorem toList_generate : d.node.generate.toList = Word.textOf d.forest.words := by
  obtain ⟨property, important, components⟩ := d
  have value := components.written_nodes
  cases important with
  | false =>
    simp [node, forest, flag, generate_node, Canonical.compose, toList_plain, value, Name.text,
      Word.ident, Word.single]
  | true =>
    simp [node, forest, flag, generate_node, Canonical.compose, toList_plain, value, Name.text,
      Word.ident, Word.single]

/-- A declaration is scanned as written in front of anything that may follow a value. -/
theorem fits {rest : List Char} (h : Token.endsValue rest) :
    Word.AllFit d.forest.words rest := by
  have flagFits : Word.AllFit (flag d.important).words rest := by
    cases d.important with
    | false => trivial
    | true =>
      exact ⟨Word.fits_single rfl, Word.fits_ident rfl (Token.endsName_of_endsValue h), trivial⟩
  have valueFits : Token.endsValue (Word.textOf (flag d.important).words ++ rest) := by
    cases d.important with
    | false => exact h
    | true => rfl
  rw [forest, words_before, words_colon, Forest.words_append]
  exact ⟨Word.fits_ident d.property.plain rfl, Word.fits_single rfl,
    Word.allFit_append.mpr ⟨Components.fits valueFits d.value, flagFits⟩⟩

end Declaration

/-! ### What stands in a declaration -/

theorem Declaration.firm (d : Declaration) : Firm (d.forest.words.map Word.kind) := by
  have front : Firm [(Word.ident d.property.chars).kind, (Word.single .colon ':').kind] :=
    .append (.singleton rfl) (.singleton rfl)
  have value := d.value.firm front
  rw [Declaration.forest, words_before, words_colon, Forest.words_append, List.map_cons,
    List.map_cons, List.map_append]
  cases d.important with
  | false => rwa [Declaration.flag, Forest.words_nil, List.map_nil, List.append_nil]
  | true => exact value.append (.append (.singleton rfl) (.singleton rfl))

/-- Outside all blocks, a declaration has neither a curly bracket nor a semicolon. -/
theorem Declaration.avoids (d : Declaration) {stop : Token.Kind → Bool}
    (h : ∀ k, k ≠ .leftCurly → k ≠ .semicolon → stop k = false) : d.forest.avoids stop := by
  have flag : (Declaration.flag d.important).avoids stop := by
    cases d.important <;> simp [Declaration.flag, Forest.avoids, h, Word.ident]
  simp [Declaration.forest, Name.before, colon, Forest.avoids, h, Word.ident, Components.avoids h,
    flag]

/-- The exclamation mark before `important`. -/
def isBang (w : Word) : Bool := w.kind = .delim && w.text.head? = some '!'

mutual

theorem Component.no_bang : ∀ c : Component, ∀ w ∈ c.forest.words, isBang w = false
  | .identifier _ | .number _ | .percentage _ | .dimension _ _ | .hash _ | .string _ | .url _ => by
    simp only [Component.forest, words_before, words_hashed, words_quoted, Forest.words_leaf,
      Forest.words_nil, List.mem_singleton, forall_eq]
    rfl
  | .function _ _ inner | .parentheses inner | .brackets inner => by
    simp only [Component.forest, words_calling, words_squares, Forest.words_block,
      Forest.words_nil, List.forall_mem_cons, List.forall_mem_append]
    exact ⟨rfl, Components.no_bang inner, rfl, nofun⟩

theorem Components.no_bang : ∀ cs : Components, ∀ w ∈ cs.forest.words, isBang w = false
  | .none => nofun
  | .some first more => by
    rw [Components.forest, Forest.words_append, List.forall_mem_append]
    exact ⟨Component.no_bang first, More.no_bang more⟩

theorem More.no_bang : ∀ m : More, ∀ w ∈ m.forest.words, isBang w = false
  | .done => nofun
  | .next joint component more => by
    rw [More.forest, Forest.words_leaf, Forest.words_append, List.forall_mem_cons,
      List.forall_mem_append]
    exact ⟨by cases joint <;> rfl, Component.no_bang component, More.no_bang more⟩

end

/-! ### Reading -/

section

open Grammar

variable {o next : Nat}

/-- No token of a value is taken for the mark before `important`. -/
theorem Components.isDelim_bang (cs : Components) {t : Token} (h : t ∈ cs.forest.tokens o) :
    t.isDelim '!' = false := by
  obtain ⟨w, hw, kind, text⟩ := Forest.exists_word h
  have noBang := cs.no_bang w hw
  rw [Token.isDelim, Token.delim?, ← kind, ← text, String.toList_ofList]
  rw [isBang, Bool.and_eq_false_iff] at noBang
  by_cases delim : w.kind = .delim
  · simpa [delim] using noBang
  · simp [delim]

theorem splitImportant_plain (cs : Components) :
    splitImportant ⟨cs.forest.tokens o, next⟩ = (⟨cs.forest.tokens o, next⟩, false) := by
  rw [splitImportant]
  split
  · rename_i word before last
    split
    · split
      · rename_i bang rest hb
        have mem : bang ∈ cs.forest.tokens o := by
          have inBefore : bang ∈ before :=
            (List.dropWhile_suffix _).subset (hb ▸ List.mem_cons_self)
          exact List.mem_reverse.mp (last ▸ List.mem_cons_of_mem _ inBefore)
        rw [cs.isDelim_bang mem, if_neg Bool.false_ne_true]
      · rfl
    · rfl
  · rfl

theorem splitImportant_flag (cs : Components) (p : Nat) :
    splitImportant ⟨cs.forest.tokens o ++ (Declaration.flag true).tokens p, next⟩ =
      (⟨cs.forest.tokens o, p⟩, true) := by
  have trimmed : Scope.trim ⟨cs.forest.tokens o, p⟩ = ⟨cs.forest.tokens o, p⟩ :=
    Scope.trim_of_tight (by rw [Forest.kinds_tokens]; exact cs.tight)
  have named : Text.sameName (String.ofList ['i', 'm', 'p', 'o', 'r', 't', 'a', 'n', 't'])
      "important" = true := by decide
  have solid (ts : List Token) : Token.significant ((Word.single .delim '!').token p :: ts) =
      (Word.single .delim '!').token p :: ts :=
    List.dropWhile_cons_of_neg (by exact Bool.false_ne_true)
  have bang : ((Word.single .delim '!').token p).isDelim '!' = true := by
    simp [Token.isDelim, Token.delim?, Word.single]
  simp only [splitImportant, Declaration.flag, Forest.tokens, List.reverse_append,
    List.reverse_cons, List.reverse_nil, List.nil_append, List.cons_append, Word.token_kind,
    Word.token_text, Word.ident, named, solid, bang, decide_true, Bool.and_self, ↓reduceIte,
    List.reverse_reverse, Word.token_start, trimmed]

theorem splitImportant_value (d : Declaration) (o next : Nat) :
    ∃ q, splitImportant
        (Scope.trim ⟨(d.value.forest ++ Declaration.flag d.important).tokens o, next⟩) =
      (⟨d.value.forest.tokens o, q⟩, d.important) := by
  have tight : Scope.Tight
      ((d.value.forest ++ Declaration.flag d.important).words.map Word.kind) := by
    rw [Forest.words_append, List.map_append]
    cases d.important with
    | false =>
      rw [Declaration.flag, Forest.words_nil, List.map_nil, List.append_nil]
      exact d.value.tight
    | true =>
      have mark : Firm ((Declaration.flag true).words.map Word.kind) :=
        .append (.singleton rfl) (.singleton rfl)
      cases d.value with
      | none => exact mark.tight
      | some first more =>
        rw [Components.forest, Forest.words_append, List.map_append]
        exact ((More.firm first.firm more).append mark).tight
  rw [Scope.trim_of_tight (by rw [Forest.kinds_tokens]; exact tight), Forest.tokens_append]
  cases d.important with
  | false =>
    rw [Declaration.flag, Forest.tokens, List.append_nil]
    exact ⟨next, splitImportant_plain d.value⟩
  | true => exact ⟨_, splitImportant_flag d.value _⟩

theorem Components.read_value (cs : Components) (colon : Token) (o next : Nat) :
    (plainValue colon ⟨cs.forest.tokens o, next⟩).map Node.strip =
      ⟨Plain.node .value .none cs.nodes, []⟩ := by
  have read := cs.read_sequence o next
  simp only [Parsed.map, Parsed.mk.injEq] at read
  simp only [plainValue, Parsed.map, strip_mk, read]

/-- A plain property is no custom property. -/
theorem Name.not_custom (n : Name) : isCustomProperty n.text = false := by
  obtain ⟨c, cs, hn, alpha, -⟩ := Token.exists_of_isPlainName n.plain
  rw [isCustomProperty, Name.text, String.toList_ofList, hn, List.isPrefixOf, Bool.and_eq_false_iff]
  refine .inl ?_
  rw [beq_eq_false_iff_ne]
  rintro rfl
  revert alpha
  decide

/-- The tokens of a plain declaration are read as the declaration. -/
theorem Declaration.read (d : Declaration) (o next : Nat) :
    (declaration ⟨d.forest.tokens o, next⟩).map Node.strip = ⟨d.node, []⟩ := by
  have trimmed : Scope.trim ⟨d.forest.tokens o, next⟩ = ⟨d.forest.tokens o, next⟩ :=
    Scope.trim_of_tight (by rw [Forest.kinds_tokens]; exact d.firm.tight)
  rw [Declaration.forest, Name.before, colon, Forest.tokens, Forest.tokens] at trimmed ⊢
  obtain ⟨q, split⟩ := splitImportant_value d
    (o + (Word.ident d.property.chars).width + (Word.single .colon ':').width) next
  rw [declaration_plain rfl rfl d.property.not_custom trimmed, split]
  have value := d.value.read_value
    ((Word.single .colon ':').token (o + (Word.ident d.property.chars).width))
    (o + (Word.ident d.property.chars).width + (Word.single .colon ':').width) q
  simp only [Parsed.map, Parsed.mk.injEq] at value ⊢
  simp only [strip_mk, shapes, List.map_cons, List.map_nil, value]
  exact ⟨rfl, trivial⟩

end

end Plain

end Stylesheet
