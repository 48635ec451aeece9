import Stylesheet.Grammar.Rule
import Stylesheet.Proofs.Grammar
import Stylesheet.Proofs.Shift.Scope

/-!
# Shifted values and declarations

The components of a shifted scope are the components of the scope, shifted, and so are the preludes
and declarations made of them, with their errors.
-/

namespace Stylesheet.Grammar

open Located

variable {k : Nat} {s : Scope} {t : Token}

@[simp] theorem tidy_shift (ns : List Located) :
    tidy (ns.map (Located.shift k)) = (tidy ns).map (Located.shift k) :=
  tidy_map _ ns

@[simp] theorem tokenNode_shift : tokenNode (t.shift k) = (tokenNode t).shift k := by
  simp only [tokenNode, Token.kind_shift, Token.text_shift, Token.value_shift, Token.span_shift]
  split <;> simp

@[simp] theorem tokenErrors_shift :
    tokenErrors (t.shift k) = (tokenErrors t).map (.shift k) := by
  simp only [tokenErrors, Token.kind_shift, Token.start_shift]
  split <;> rfl

@[simp] theorem functionName_shift : functionName (t.shift k) = functionName t := rfl

@[simp] theorem blockNode_shift (b : Block) (ns : List Located) :
    blockNode (b.shift k) (ns.map (Located.shift k)) = (blockNode b ns).shift k := by
  unfold blockNode
  simp only [Block.opener_shift, Token.kind_shift, Block.span_shift, Block.tokens_shift,
    Token.sourceText_shift, functionName_shift]
  split
  · simp
  · simp
  · simp
  · rcases ns with - | ⟨⟨kind, detail, span, children⟩, - | ⟨n, ns⟩⟩
    · simp
    · cases Text.sameName (functionName b.opener) "url" <;> cases kind <;> simp
    · simp

/-- Components are read alike wherever they stand. -/
@[simp] theorem components_shift (s : Scope) :
    components (s.shift k) = (components s).shiftAll k := by
  fun_induction components s with
  | case1 s hs =>
    obtain ⟨tokens, next⟩ := s
    obtain rfl : tokens = [] := hs
    exact components_nil
  | case2 s t ts hs hk ih =>
    obtain ⟨tokens, next⟩ := s
    obtain rfl : tokens = t :: ts := hs
    rw [Scope.shift_cons, components_comment (by exact hk)]
    exact ih
  | case3 =>
    rename_i s t ts hs hk ho b inner node ih1 ih2
    obtain ⟨tokens, next⟩ := s
    obtain rfl : tokens = t :: ts := hs
    have enter := Scope.enter_shift_mk (k := k) t ts next
    rw [Scope.shift_cons, Parsed.shiftAll_cons, ← ih2]
    by_cases curly : t.kind = .leftCurly
    · have nothing : inner = ⟨[], []⟩ := if_pos curly
      have same : (blockNode b []).shift k = blockNode (b.shift k) [] := (blockNode_shift b []).symm
      rw [components_curly (by exact curly), enter]
      simp [node, nothing, Parsed.shift, tidy, tidyAfter, same, b]
    · have content : inner = components b.inner := if_neg curly
      rw [components_block (by exact ho) (by exact curly), enter]
      simp only [b] at ih1
      simp [node, content, Parsed.shift, b, ih1]
  | case4 s t ts hs hk ho ih =>
    obtain ⟨tokens, next⟩ := s
    obtain rfl : tokens = t :: ts := hs
    rw [Scope.shift_cons, components_token (by exact hk) (by simpa using ho), Parsed.shiftAll_cons,
      tokenNode_shift, tokenErrors_shift]
    exact congrArg _ ih

@[simp] theorem componentSequence_shift (s : Scope) :
    componentSequence (s.shift k) = (componentSequence s).shiftAll k := by
  simp [componentSequence, Parsed.map, Parsed.shiftAll]

@[simp] theorem sequenceNode_shift (kind : NodeKind) (s : Scope) :
    sequenceNode kind (s.shift k) = (sequenceNode kind s).shift k := by
  simp [sequenceNode, Parsed.map, Parsed.shift]

theorem mediaQueries_shift (s : Scope) :
    mediaQueries (s.shift k) = (mediaQueries s).shiftAll k := by
  have step (s : Scope)
      (later : laterQueries ((s.cut (· = .comma)).2.shift k) =
        (laterQueries (s.cut (· = .comma)).2).shiftAll k) :
      mediaQueries (s.shift k) = (mediaQueries s).shiftAll k := by
    rw [mediaQueries_eq, mediaQueries_eq, Scope.cut_shift]
    simp only [Scope.trim_shift, Scope.tokens_shift, List.isEmpty_map, later, sequenceNode_shift]
    split
    · rfl
    · exact Parsed.shiftAll_cons.symm
  induction s using mediaQueries.induct
  all_goals
    rename_i s cut part hp ih
    have later : laterQueries (cut.2.shift k) = (laterQueries cut.2).shiftAll k := by
      rw [laterQueries, laterQueries, Scope.tokens_shift]
      cases tail : cut.2.tokens with
      | nil => rfl
      | cons t ts => exact ih t ts tail
    rw [mediaQueries_eq, mediaQueries_eq, Scope.cut_shift, Scope.trim_shift, sequenceNode_shift,
      Scope.tokens_shift, List.isEmpty_map, later]
  · rw [if_pos hp, if_pos hp]
  · rw [if_neg hp, if_neg hp, Parsed.shiftAll_cons]

@[simp] theorem mediaQueryList_shift (s : Scope) :
    mediaQueryList (s.shift k) = (mediaQueryList s).shift k := by
  simp [mediaQueryList, Parsed.map, Parsed.shift, mediaQueries_shift]

@[simp] theorem atRulePrelude_shift (name : String) (s : Scope) :
    atRulePrelude name (s.shift k) = (atRulePrelude name s).shift k := by
  simp only [atRulePrelude]
  split <;> simp [Parsed.map, Parsed.shift]

@[simp] theorem splitImportant_shift (value : Scope) :
    splitImportant (value.shift k) =
      ((splitImportant value).1.shift k, (splitImportant value).2) := by
  rw [splitImportant, splitImportant, Scope.tokens_shift, ← List.map_reverse]
  cases value.tokens.reverse with
  | nil => rfl
  | cons word before =>
    simp only [List.map_cons]
    by_cases named : (word.kind = .ident && Text.sameName word.text "important") = true
    · rw [if_pos (by exact named), if_pos named, Token.significant_shift]
      cases Token.significant before with
      | nil => rfl
      | cons bang before =>
        simp only [List.map_cons]
        by_cases flagged : bang.isDelim '!' = true
        · rw [if_pos (by exact flagged), if_pos flagged, ← List.map_reverse]
          exact congrArg (·, true) (Scope.trim_shift (s := ⟨before.reverse, bang.start⟩))
        · rw [if_neg (by exact flagged), if_neg flagged]
    · rw [if_neg (by exact named), if_neg named]

@[simp] theorem customValue_shift (colon : Token) (after : List Token) (value : Scope) :
    customValue (colon.shift k) (after.map (Token.shift k)) (value.shift k) =
      (customValue colon after value).shift k := by
  have text : Token.sourceText
      (((after.map (Token.shift k)).takeWhile fun t => t.kind.isTrivia) ++
        value.tokens.map (Token.shift k)) =
      Token.sourceText ((after.takeWhile fun t => t.kind.isTrivia) ++ value.tokens) := by
    rw [List.takeWhile_map, ← List.map_append]
    exact Token.sourceText_shift
  simp [customValue, text, Span.shift]

@[simp] theorem plainValue_shift (colon : Token) (value : Scope) :
    plainValue (colon.shift k) (value.shift k) = (plainValue colon value).shift k := by
  cases empty : value.tokens.isEmpty <;>
    simp [plainValue, Parsed.map, Parsed.shift, Span.shift, empty]

/-- Declarations are read alike wherever they stand. -/
@[simp] theorem declaration_shift (s : Scope) :
    declaration (s.shift k) = (declaration s).shift k := by
  have failed (s : Scope) (fault : Fault) (offset : Nat) :
      (⟨raw (s.shift k), [⟨fault, offset + k⟩]⟩ : Parsed Located) =
        Parsed.shift k ⟨raw s, [⟨fault, offset⟩]⟩ := by
    rw [raw_shift]
    rfl
  rw [declaration, declaration, Scope.trim_shift]
  generalize s.trim = s
  obtain ⟨tokens, next⟩ := s
  cases tokens with
  | nil => exact failed _ _ _
  | cons t ts =>
    simp only [Scope.tokens_shift, List.map_cons]
    by_cases ident : t.kind ≠ .ident
    · rw [if_pos (by exact ident), if_pos ident]
      exact failed _ _ _
    · rw [if_neg (by exact ident), if_neg ident, Token.significant_shift]
      cases Token.significant ts with
      | nil => exact failed _ _ _
      | cons colon after =>
        simp only [List.map_cons]
        by_cases hc : colon.kind ≠ .colon
        · rw [if_pos (by exact hc), if_pos hc]
          exact failed _ _ _
        · rw [if_neg (by exact hc), if_neg hc]
          have value : Scope.trim ⟨after.map (Token.shift k), next + k⟩ =
              (Scope.trim ⟨after, next⟩).shift k :=
            Scope.trim_shift (s := ⟨after, next⟩)
          rw [Scope.next_shift, value, splitImportant_shift, Scope.span_shift, customValue_shift,
            plainValue_shift, Token.text_shift]
          split <;> simp [Parsed.map, Parsed.shift]

@[simp] theorem startsDeclaration_shift (rest : Scope) :
    startsDeclaration (t.shift k) (rest.shift k) = startsDeclaration t rest := by
  rw [startsDeclaration, startsDeclaration, Scope.trimStart_shift, Scope.tokens_shift]
  cases rest.trimStart.tokens with
  | nil => rfl
  | cons colon ts =>
    simp only [List.map_cons]
    rw [Scope.next_shift, ← Scope.shift_mk, Scope.cut_shift, Scope.tokens_shift]
    cases (Scope.cut (fun k => k = .leftCurly || k = .semicolon) ⟨ts, rest.next⟩).2.tokens with
    | nil => rfl
    | cons stop after => rfl

end Stylesheet.Grammar
