import Stylesheet.Proofs.Concat.Tokens
import Stylesheet.Proofs.Placement.Document
import Stylesheet.Proofs.Placement.Error
import Stylesheet.Proofs.Reported.Position

/-!
# Errors are reported where they are found

Whatever a text is read as, each error is found where the text can be cut: at an end of a token, at
the end of a scope, or behind the opening of a block that is nested too deeply. So the span of a
reported error holds the byte at this place, or none at the end of the text, and its line and column
are those of the place.
-/

namespace Stylesheet

/-! ### Blocks that are left out -/

namespace Token

open Text (width)

namespace Nesting

variable {source : String} {s : Nesting} {front cs : List Char} {x : Lexeme × List Char}

/-- A block that a step leaves out is opened by what stands where it is read. -/
theorem Reads.truncated_step (reads : s.Reads front) (stands : Text.Stands source (width front) x.2)
    (h : ∀ n ∈ s.truncated, (⟨n⟩ : String.Pos.Raw).IsValid source) :
    ∀ n ∈ (s.step x).truncated, (⟨n⟩ : String.Pos.Raw).IsValid source := by
  have stop : (⟨(s.next x).stop⟩ : String.Pos.Raw).IsValid source := by
    have reached := stands.isValid_right
    rw [← reads.offset] at reached
    exact reached
  obtain same | more := truncated_step_cases s x
  · exact same ▸ h
  · exact more ▸ List.forall_mem_cons.mpr ⟨stop, h⟩

/-- Blocks are left out only where the text can be cut. -/
theorem Reads.truncated_foldl (reads : s.Reads front) (split : source.toList = front ++ cs)
    (h : ∀ n ∈ s.truncated, (⟨n⟩ : String.Pos.Raw).IsValid source) :
    ∀ n ∈ ((lexemes cs).foldl Nesting.step s).truncated,
      (⟨n⟩ : String.Pos.Raw).IsValid source := by
  fun_induction lexemes cs generalizing s front
  case case1 => exact h
  case case2 c cs x ih =>
    have cut : c :: cs = (c :: cs.take x.more) ++ cs.drop x.more := by
      rw [List.cons_append, List.take_append_drop]
    rw [cut] at split
    refine ih (reads.step (x, c :: cs.take x.more)) (by rw [split, List.append_assoc]) ?_
    exact reads.truncated_step ⟨front, _, split, rfl⟩ h

end Nesting

theorem tokenize_truncated (source : String) :
    ∀ n ∈ (tokenize source).truncated, (⟨n⟩ : String.Pos.Raw).IsValid source := by
  intro n hn
  refine Nesting.reads_empty.truncated_foldl (List.nil_append _).symm ?_ n (List.mem_reverse.mp hn)
  rintro _ ⟨⟩

end Token

/-! ### Single items -/

namespace Grammar

open Located Scope

variable {source : String} {s : Scope} {t : Token}

/-- The errors of an item are found within its scope, of which the rest remains. -/
structure OneFound (source : String) (s : Scope) (item : Parsed Located × Scope) : Prop where
  found : FoundBy source s.next item.1.errors
  after : item.2.IsPart s

theorem rawRest_found (fault : Fault) (h : s.LiesIn source) :
    OneFound source s (rawRest fault s) where
  found := foundBy_singleton h.isEdge_start
  after := isPart_of_suffix List.nil_suffix

theorem qualifiedRule_found (h : s.LiesIn source) : OneFound source s (qualifiedRule s) := by
  unfold qualifiedRule
  dsimp only
  split
  · rename_i b hb
    have items := items_found_all.2.2 true b.inner ((item_inner_isPart hb).liesIn h)
    exact ⟨styleRule_found h hb items, item_after_isPart _ s⟩
  · exact ⟨foundBy_singleton h.isEdge_stop, isPart_of_suffix List.nil_suffix⟩

theorem singleAtRule_found {ts : List Token} {next : Nat} (h : LiesIn source ⟨t :: ts, next⟩) :
    OneFound source ⟨t :: ts, next⟩ (singleAtRule t ⟨ts, next⟩) where
  found := items_found_all.1 false t ⟨ts, next⟩ h
  after := (item_after_isPart endsPrelude ⟨ts, next⟩).trans isPart_tail

/-- What follows an item and should not is found behind it. -/
theorem OneFound.noMore {item : Parsed Located × Scope} (h : OneFound source s item)
    (lies : s.LiesIn source) : FoundBy source s.next (noMore item).errors := by
  have part := (trimStart_isPart item.2).trans h.after
  refine h.found.append ?_
  split
  · exact foundBy_nil
  · exact foundBy_singleton ((part.liesIn lies).isEdge_start.mono (part.next_le lies))

/-- An at-rule where its keyword comes first, and else another item. -/
theorem atRuleOr_found {other none : Parsed Located × Scope} (h : s.LiesIn source)
    (hother : OneFound source s other) (hnone : OneFound source s none) :
    OneFound source s (match s.tokens with
      | t :: ts => if t.kind = .atKeyword then singleAtRule t ⟨ts, s.next⟩ else other
      | [] => none) := by
  obtain ⟨tokens, next⟩ := s
  cases tokens with
  | nil => exact hnone
  | cons t ts =>
    dsimp only
    split
    · exact singleAtRule_found h
    · exact hother

theorem oneAtRule_found (h : s.LiesIn source) : FoundBy source s.next (oneAtRule s).errors := by
  have part := trimStart_isPart s
  have lies := part.liesIn h
  have rest := rawRest_found .atRuleExpected lies
  exact foundBy_part part h ((atRuleOr_found lies rest rest).noMore lies)

theorem oneRule_found (h : s.LiesIn source) : FoundBy source s.next (oneRule s).errors := by
  have part := trimStart_isPart s
  have lies := part.liesIn h
  have rest := rawRest_found .ruleExpected lies
  exact foundBy_part part h ((atRuleOr_found lies (qualifiedRule_found lies) rest).noMore lies)

theorem oneDeclaration_found (h : s.LiesIn source) :
    FoundBy source s.next (oneDeclaration s).errors := by
  have part := trim_isPart s
  have lies := part.liesIn h
  have prelude := item_prelude_isPart (· = .semicolon) s.trim
  refine foundBy_part part h (OneFound.noMore ?_ lies)
  exact ⟨foundBy_part prelude lies (declaration_found (prelude.liesIn lies)), item_after_isPart _ _⟩

/-! ### Whole texts -/

/-- Whatever the tokens of a text are read as, errors are found in the text. -/
theorem readScope_found (context : Context) {list : TokenList}
    (h : Token.Run source 0 list.tokens list.size) :
    FoundBy source list.size (readScope context list).errors := by
  have lies : (wholeScope list).LiesIn source := by
    have hstart : (wholeScope list).start = 0 := h.startOf_eq
    rw [LiesIn, hstart]
    exact h
  have part := trim_isPart (wholeScope list)
  have trimmed := part.liesIn lies
  have selectors := selectors_fail_all lies.isEdge_stop
  have items := items_found_all.2.2 false (wholeScope list) lies
  unfold readScope
  cases context with
  | stylesheet => exact items_found_all.2.1 true false false (wholeScope list) lies
  | atrule => exact oneAtRule_found lies
  | rule => exact oneRule_found lies
  | atrulePrelude => exact foundBy_part part lies (sequenceNode_found _ trimmed)
  | mediaQueryList => exact foundBy_part part lies (mediaQueryList_found trimmed)
  | mediaQuery => exact foundBy_part part lies (sequenceNode_found _ trimmed)
  | condition => exact foundBy_part part lies (sequenceNode_found _ trimmed)
  | selectorList =>
    have fails := selectors.1 _ trimmed (part.next_le lies)
    exact orRaw_found (fails.bind fun _ _ => failsBy_ok _)
  | selector =>
    have fails := selectors.2 none none _ trimmed (part.next_le lies)
    dsimp only
    split
    · exact foundBy_singleton (trimmed.isEdge_next.mono (part.next_le lies))
    · exact orRaw_found (fails.bind fun _ _ => failsBy_ok _)
  | block => exact items
  | declarationList => exact items
  | declaration => exact oneDeclaration_found lies
  | value => exact foundBy_part part lies (sequenceNode_found _ trimmed)

/-- So are the blocks that are nested too deeply. -/
theorem read_found (context : Context) (text : String) :
    FoundBy text text.utf8ByteSize (read context (tokenize text)).errors := by
  obtain ⟨run, size⟩ := tokenize_run text
  have found := readScope_found context run
  rw [size] at found
  refine FoundBy.append ?_ found
  intro e he
  obtain ⟨n, hn, rfl⟩ := List.mem_map.mp he
  have valid := Token.tokenize_truncated text n hn
  exact ⟨valid, valid.le_utf8ByteSize⟩

end Grammar

/-! ### Reported errors -/

open Text (width)

/-- The error was found where the text can be cut, it spans the byte there, and it is at the line and
column of this place. -/
def ParseError.LocatedIn (text : String) (e : ParseError) : Prop :=
  ∃ front back, text.toList = front ++ back ∧
    e.span = ⟨width front, min (width front + 1) text.utf8ByteSize⟩ ∧ e.position = .behind front

theorem ParseError.ofSyntax_locatedIn {text : String} {e : SyntaxError}
    (h : IsEdge text text.utf8ByteSize e.offset) :
    (ofSyntax (.ofString text) e).LocatedIn text := by
  obtain ⟨front, back, split, place⟩ := Text.stands_nil_iff.mpr h.1
  have within : min e.offset text.utf8ByteSize = width front := by
    rw [place, Nat.min_eq_left h.2]
  refine ⟨front, back, split, ?_, Text.LineIndex.position_behind split within⟩
  rw [ofSyntax, Text.LineIndex.size_ofString, within, place]

theorem Document.errors_located {text : String} {kind : DocumentKind} {context : Context}
    {options : ParseOptions} {clock : Clock} {d : Document}
    (h : readWithin text kind context options clock = .ok d) :
    ∀ e ∈ d.errors, e.LocatedIn text := by
  rw [readWithin_errors h]
  intro e he
  obtain ⟨found, mem, rfl⟩ := List.mem_map.mp he
  exact ParseError.ofSyntax_locatedIn (Grammar.read_found context text found mem)

/-- Without limits every text has a document. However a text is read, each reported error stands at
its place, and the line index finds the line and the column of every place where the text can be cut;
offsets beyond the text are its end. -/
theorem parseAs_located (text : String) (context : Context) (options : ParseOptions)
    (clock : Clock) :
    (∃ d, parseAs text context { options with budgets := {} } clock = .ok d) ∧
      (∀ d, parse text options clock = .ok d ∨ parseAs text context options clock = .ok d ∨
          (∃ name, parseFragment text name options clock = .ok d) →
        ∀ e ∈ d.errors, e.LocatedIn text) ∧
      ∀ offset, (⟨offset⟩ : String.Pos.Raw).IsValid text ∨ text.utf8ByteSize ≤ offset →
        ∃ front back, text.toList = front ++ back ∧ width front = min offset text.utf8ByteSize ∧
          (Text.LineIndex.ofString text).position offset = .behind front := by
  refine ⟨?_, ?_, ?_⟩
  · exact exists_parseAs text context options clock
  · rintro d (h | h | ⟨name, h⟩)
    · exact Document.errors_located (Failure.ofBudget_eq_ok_iff.mp h)
    · exact Document.errors_located (Failure.ofBudget_eq_ok_iff.mp h)
    · rw [parseFragment] at h
      split at h
      · exact Document.errors_located (Failure.ofBudget_eq_ok_iff.mp h)
      · cases h
  · intro offset place
    have valid : (⟨min offset text.utf8ByteSize⟩ : String.Pos.Raw).IsValid text := by
      obtain valid | beyond := place
      · rwa [Nat.min_eq_left valid.le_utf8ByteSize]
      · rw [Nat.min_eq_right beyond]
        exact String.Pos.Raw.isValid_rawEndPos
    obtain ⟨front, back, split, stop⟩ := Text.stands_nil_iff.mpr valid
    exact ⟨front, back, split, stop, Text.LineIndex.position_behind split stop.symm⟩

/-- Columns count a wide character once, and spans count its bytes. -/
example :
    (Document.locate "a\x7b\n  \u00e9 red\n\x7d"
        (Grammar.read .stylesheet (tokenize "a\x7b\n  \u00e9 red\n\x7d")).errors).map
      (fun e => (e.fault, e.span, e.position)) = [(.colonExpected, ⟨8, 9⟩, ⟨2, 5⟩)] := by
  decide +kernel

end Stylesheet
