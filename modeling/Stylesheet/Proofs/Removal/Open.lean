import Stylesheet.Proofs.Concat.Document
import Stylesheet.Proofs.Removal.Item

/-!
# Blocks that are never closed

Where a block is not closed, it takes up all that follows it, and so does the item that it belongs
to. That item is an error. So a style sheet without errors has no block that is left open.
-/

namespace Stylesheet

namespace Token

variable {ts us : List Token} {t : Token}

/-- Behind closed tokens a block begins that does not end. -/
def Open (ts : List Token) : Prop :=
  ∃ front opener back, ts = front ++ opener :: back ∧ Closed front ∧
    opener.kind.opensBlock = true ∧ opener.inside = none

theorem Open.of_leaf (h : Open (t :: ts)) (plain : t.kind.opensBlock = false) : Open ts := by
  obtain ⟨front, opener, back, split, closed, opens, none⟩ := h
  cases front with
  | nil =>
    obtain ⟨rfl, -⟩ := List.cons.inj split
    rw [opens] at plain
    cases plain
  | cons u front =>
    obtain ⟨rfl, rfl⟩ := List.cons.inj split
    exact ⟨front, opener, back, rfl, closed.of_leaf plain, opens, none⟩

/-- A search at the top level that does not stop at an open block goes past all that follows. -/
theorem spanTop_open {stop : Kind → Bool} (other : stop t.kind = false)
    (opens : t.kind.opensBlock = true) (none : t.inside = none) :
    spanTop stop (t :: ts) = (t :: ts, []) := by
  have more : t.more ts = ts.length := by rw [Token.more, opens, none]; rfl
  rw [spanTop, other, if_neg Bool.false_ne_true, more, List.drop_length, List.take_length, spanTop]
  exact congrArg (fun us => (t :: us, [])) (List.append_nil ts)

/-- Every opening token of closed tokens is paired. -/
theorem Closed.inside_isSome (h : Closed ts) :
    ∀ t ∈ ts, t.kind.opensBlock = true → t.inside.isSome = true := by
  induction h with
  | nil => rintro _ ⟨⟩
  | leaf plain _ ih =>
    refine List.forall_mem_cons.mpr ⟨fun opens => ?_, ih⟩
    rw [opens] at plain
    cases plain
  | block paired inside _ _ ihContent ihRest =>
    refine List.forall_mem_cons.mpr ⟨fun _ => by rw [inside]; rfl, List.forall_mem_append.mpr
      ⟨ihContent, List.forall_mem_cons.mpr ⟨fun opens => ?_, ihRest⟩⟩⟩
    rw [Kind.closing_ne_opensBlock paired] at opens
    cases opens

end Token

open Token

/-- Where nothing is left out, a block stays open unless all are closed. -/
theorem tokenize_closed_or_open {x : String} (full : (tokenize x).truncated = []) :
    (tokenize x).Closed ∨ Token.Open (tokenize x).tokens := by
  have sound := TokenList.stateOf_sound full
  have tokens := TokenList.tokens_eq full
  rw [Nesting.soFar, sound.deep] at tokens
  obtain nothing | ⟨inner, b, blocks⟩ := List.eq_nil_or_concat (TokenList.stateOf x).blocks
  · rw [nothing] at tokens
    refine .inl ⟨full, Closed.inside_isSome ?_⟩
    rw [tokens]
    exact sound.outer
  · rw [List.concat_eq_append] at blocks
    obtain ⟨opens, none, -⟩ := sound.blocks b (by rw [blocks]; simp)
    rw [blocks] at tokens
    refine .inr ⟨(TokenList.stateOf x).outer.reverse, b.opener,
      (inner.flatMap OpenBlock.abandon ++ b.content).reverse, ?_, sound.outer, opens, none⟩
    rw [tokens]
    simp [OpenBlock.abandon]

namespace Grammar

variable {stop : Kind → Bool} {ts : List Token} {s : Scope} {t : Token}
variable {top keyframes nested : Bool}

/-- An item that is cut out in front of an open block ends before it, or takes it up. -/
theorem Item.take_open (next : Nat) (only : ∀ k, stop k = true → endsPrelude k = true) (h : Token.Open ts) :
    (Item.take stop ⟨ts, next⟩).ending = .missing ∨
      (∃ b, (Item.take stop ⟨ts, next⟩).ending = .block b ∧ b.closer = none) ∨
        Token.Open (Item.take stop ⟨ts, next⟩).after.tokens := by
  obtain ⟨front, opener, back, rfl, closed, opens, none⟩ := h
  cases Item.view only closed with
  | missing passes =>
    cases found : stop opener.kind with
    | true =>
      have curly : opener.kind = .leftCurly := by
        have ends := only _ found
        rw [endsPrelude, Bool.or_eq_true, decide_eq_true_eq, decide_eq_true_eq] at ends
        refine ends.resolve_right fun semicolon => ?_
        rw [semicolon] at opens
        cases opens
      have block : Scope.enter opener ⟨back, next⟩ = ⟨opener, ⟨back, next⟩, .none, ⟨[], next⟩⟩ := by
        rw [Scope.enter, none]
      refine .inr (.inl ⟨⟨opener, ⟨back, next⟩, .none, ⟨[], next⟩⟩, ?_, rfl⟩)
      rw [Item.take, Item.cut_found passes found]
      dsimp only
      rw [if_pos curly, block]
    | false =>
      refine .inl ?_
      rw [Item.take, Scope.cut, passes, spanTop_open found opens none]
  | semicolon split passes closed found semicolon rest =>
    subst split
    rw [List.append_assoc, List.cons_append, Item.take_semicolon passes found semicolon]
    exact .inr (.inr ⟨_, opener, back, rfl, rest, opens, none⟩)
  | block split passes closed found curly closes inside content rest =>
    subst split
    rw [List.append_assoc, List.cons_append, List.append_assoc, List.cons_append,
      Item.take_closed passes found curly inside]
    exact .inr (.inr ⟨_, opener, back, rfl, rest, opens, none⟩)

theorem cons_errors_ne {p : Parsed Located} {q : Parsed (List Located)}
    (h : p.errors ≠ [] ∨ q.errors ≠ []) : (p.cons q).errors ≠ [] := by
  intro none
  obtain ⟨here, later⟩ := List.append_eq_nil_iff.mp none
  exact h.elim (· here) (· later)

theorem withBlock_open {b : Block} (h : b.closer = none) (items : Parsed (List Located)) :
    (withBlock b items).errors ≠ [] := by
  rw [withBlock, Block.errors, h]
  exact List.append_ne_nil_of_right_ne_nil _ (List.cons_ne_nil _ [])

theorem atRule_missing (h : (Item.take endsPrelude s).ending = .missing) :
    (atRule nested t s).errors ≠ [] := by
  rw [atRule_unblocked (by rw [h]; rintro _ ⟨⟩)]
  generalize Item.take endsPrelude s = item at h ⊢
  obtain ⟨prelude, _, after⟩ := item
  cases h
  rw [atRuleOf_missing]
  exact List.append_ne_nil_of_right_ne_nil _ (List.cons_ne_nil _ [])

theorem atRule_open {b : Block} (h : (Item.take endsPrelude s).ending = .block b)
    (none : b.closer = none) : (atRule nested t s).errors ≠ [] := by
  rw [atRule_block h]
  generalize Item.take endsPrelude s = item at h ⊢
  obtain ⟨prelude, _, after⟩ := item
  cases h
  rw [atRuleOf_block]
  exact List.append_ne_nil_of_right_ne_nil _ (withBlock_open none _)

/-- What is read where a block stays open has errors. -/
theorem ruleList_open (top keyframes nested : Bool) (s : Scope) :
    Token.Open s.tokens → (ruleList top keyframes nested s).errors ≠ [] := by
  refine (@items_induction (fun _ _ _ => True)
    (fun top keyframes nested s => Token.Open s.tokens →
      (ruleList top keyframes nested s).errors ≠ []) (fun _ _ => True) ?atRule
    ?rulesEnd ?rulesSkip ?rulesAtRule ?rulesRule ?rulesRest ?itemsEnd ?itemsSkip ?itemsAtRule
    ?itemsDeclaration ?itemsRule ?itemsLoose).2.1 top keyframes nested s
  case rulesEnd =>
    rintro top keyframes nested next ⟨front, opener, back, nothing, -⟩
    exact absurd nothing.symm (List.append_ne_nil_of_right_ne_nil front (List.cons_ne_nil opener back))
  case rulesSkip =>
    intro top keyframes nested t ts next hk ih h
    rw [ruleList_skip hk]
    exact ih (h.of_leaf (skipped_plain hk))
  case rulesAtRule =>
    intro top keyframes nested t ts next hk ha _ ih h
    rw [ruleList_atRule hk ha]
    refine cons_errors_ne ?_
    obtain missing | ⟨b, hb, none⟩ | later :=
      Item.take_open next (fun _ ends => ends) (h.of_leaf (by rw [ha]; rfl))
    · exact .inl (atRule_missing missing)
    · exact .inl (atRule_open hb none)
    · exact .inr (ih later)
  case rulesRule =>
    intro top keyframes nested t ts next b hk ha hb _ ih h
    rw [ruleList_rule hk ha hb]
    refine cons_errors_ne ?_
    obtain missing | ⟨b', hb', none⟩ | later := Item.take_open next curly_ends h
    · rw [missing] at hb
      cases hb
    · obtain rfl : b = b' := Ending.block.inj (hb.symm.trans hb')
      exact .inl (List.append_ne_nil_of_right_ne_nil _ (withBlock_open none _))
    · exact .inr (ih later)
  case rulesRest =>
    intro top keyframes nested t ts next hk ha hno _
    rw [ruleList_rest hk ha hno]
    exact List.cons_ne_nil _ []
  all_goals intros; trivial

end Grammar

/-- The blocks of a style sheet without errors are closed. -/
theorem closed_of_errors {text : String} {spans : Bool}
    (h : (Document.treeOf spans .stylesheet (tokenize text)).errors = []) :
    (tokenize text).Closed := by
  have full : (tokenize text).truncated = [] :=
    List.map_eq_nil_iff.mp (List.append_eq_nil_iff.mp h).1
  rw [Document.treeOf_errors full] at h
  exact (tokenize_closed_or_open full).resolve_right fun opened =>
    Grammar.ruleList_open true false false _ opened h

end Stylesheet
