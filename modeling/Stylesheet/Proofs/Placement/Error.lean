import Stylesheet.Proofs.Placement.Rule

/-!
# Errors are placed

An error is found at a token of the scope that is being read, or at an end of that scope. So every
error stands where the text can be cut, and no further than where its scope ends.
-/

namespace Stylesheet

/-- The text can be cut at an offset, which is not beyond `hi`. -/
def IsEdge (source : String) (hi n : Nat) : Prop :=
  (⟨n⟩ : String.Pos.Raw).IsValid source ∧ n ≤ hi

/-- All errors were found at such offsets. -/
def FoundBy (source : String) (hi : Nat) (es : List SyntaxError) : Prop :=
  ∀ e ∈ es, IsEdge source hi e.offset

variable {source : String} {hi hi' n : Nat} {es fs : List SyntaxError}

theorem IsEdge.mono (h : IsEdge source hi n) (le : hi ≤ hi') : IsEdge source hi' n :=
  ⟨h.1, Nat.le_trans h.2 le⟩

theorem foundBy_nil : FoundBy source hi [] := by
  rintro _ ⟨⟩

theorem foundBy_singleton {fault : Fault} (h : IsEdge source hi n) :
    FoundBy source hi [⟨fault, n⟩] := by
  intro e he
  obtain rfl := List.mem_singleton.mp he
  exact h

namespace FoundBy

theorem append (h : FoundBy source hi es) (h' : FoundBy source hi fs) :
    FoundBy source hi (es ++ fs) := by
  intro e he
  obtain he | he := List.mem_append.mp he
  · exact h e he
  · exact h' e he

theorem mono (h : FoundBy source hi es) (le : hi ≤ hi') : FoundBy source hi' es :=
  fun e he => (h e he).mono le

end FoundBy

namespace Scope.LiesIn

variable {s : Scope} {t : Token} (h : s.LiesIn source)
include h

theorem isEdge_next : IsEdge source s.next s.next := ⟨Token.Run.edge_right h, Nat.le_refl _⟩

theorem isEdge_stop : IsEdge source s.next s.stop := ⟨h.edge_stop, h.stop_le_next⟩

theorem isEdge_start : IsEdge source s.next s.start := ⟨h.edge_start, h.start_le_next⟩

theorem isEdge_token_stop (ht : t ∈ s.tokens) : IsEdge source s.next t.stop :=
  ⟨(h.token_span ht).edge_stop, h.endsBy_next t ht⟩

theorem isEdge_token_start (ht : t ∈ s.tokens) : IsEdge source s.next t.start :=
  ⟨(h.token_span ht).edge_start, Nat.le_trans t.start_le_stop (h.endsBy_next t ht)⟩

end Scope.LiesIn

namespace Grammar

open Located Scope

variable {s rest after p : Scope} {t : Token} {limit : Nat}

/-- What is found in a part of a scope is found in the scope. -/
theorem foundBy_part (part : p.IsPart s) (h : s.LiesIn source) (found : FoundBy source p.next es) :
    FoundBy source s.next es :=
  found.mono (part.next_le h)

/-! ### Values -/

theorem tokenErrors_found (h : s.LiesIn source) (ht : t ∈ s.tokens) :
    FoundBy source s.next (tokenErrors t) := by
  rw [tokenErrors]
  split
  · exact foundBy_singleton (h.isEdge_token_start ht)
  · exact foundBy_singleton (h.isEdge_token_start ht)
  · exact foundBy_nil

/-- A block that is not closed is reported where it ends. -/
theorem enter_errors_found (h : LiesIn source ⟨t :: s.tokens, s.next⟩) :
    FoundBy source s.next (s.enter t).errors := by
  obtain ⟨last, hlast, stop⟩ := enter_stop_mem t s
  rw [Block.errors]
  split
  · exact foundBy_nil
  · refine foundBy_singleton ?_
    rw [stop]
    exact h.isEdge_token_stop hlast

theorem components_found (h : s.LiesIn source) : FoundBy source s.next (components s).errors := by
  fun_induction components s with
  | case1 => exact foundBy_nil
  | case2 s t ts hs hk ih =>
    obtain ⟨tokens, next⟩ := s
    obtain rfl : tokens = t :: ts := hs
    exact ih (isPart_tail.liesIn h)
  | case3 =>
    rename_i s t ts hs _ _ b inner node ih1 ih2
    obtain ⟨tokens, next⟩ := s
    obtain rfl : tokens = t :: ts := hs
    have hinner : b.inner.IsPart ⟨t :: ts, next⟩ := (enter_inner_isPart t _).trans isPart_tail
    have hafter : b.after.IsPart ⟨t :: ts, next⟩ := (enter_after_isPart t _).trans isPart_tail
    have content : FoundBy source next inner.errors := by
      unfold inner
      split
      · exact foundBy_nil
      · exact foundBy_part hinner h (ih1 (hinner.liesIn h))
    exact (content.append (enter_errors_found (s := ⟨ts, next⟩) h)).append
      (foundBy_part hafter h (ih2 (hafter.liesIn h)))
  | case4 s t ts hs hk ho ih =>
    obtain ⟨tokens, next⟩ := s
    obtain rfl : tokens = t :: ts := hs
    exact (tokenErrors_found h List.mem_cons_self).append (ih (isPart_tail.liesIn h))

theorem sequenceNode_found (kind : NodeKind) (h : s.LiesIn source) :
    FoundBy source s.next (sequenceNode kind s).errors :=
  components_found h

theorem mediaQueries_found (h : s.LiesIn source) :
    FoundBy source s.next (mediaQueries s).errors := by
  fun_induction mediaQueries s
  all_goals
    rename_i s cut part rest hp ih
    have later : FoundBy source s.next rest.errors := by
      unfold rest
      split
      · exact foundBy_nil
      · rename_i t ts ht
        exact ih t ts ht ((cut_rest_isPart ht).liesIn h)
  · exact later
  · have query : part.IsPart s := (trim_isPart _).trans (cut_fst_isPart _ s)
    exact (foundBy_part query h (sequenceNode_found .mediaQuery (query.liesIn h))).append later

theorem mediaQueryList_found (h : s.LiesIn source) :
    FoundBy source s.next (mediaQueryList s).errors :=
  mediaQueries_found h

theorem atRulePrelude_found (name : String) (h : s.LiesIn source) :
    FoundBy source s.next (atRulePrelude name s).errors := by
  rw [atRulePrelude]
  dsimp only
  split
  · exact mediaQueryList_found h
  · exact mediaQueryList_found h
  · exact sequenceNode_found .condition h
  · exact sequenceNode_found .condition h
  · exact sequenceNode_found .atrulePrelude h

/-! ### Declarations -/

theorem declaration_found (h : s.LiesIn source) :
    FoundBy source s.next (declaration s).errors := by
  have part := trim_isPart s
  refine foundBy_part part h ?_
  have lies := part.liesIn h
  rw [declaration]
  dsimp only
  generalize s.trim = s at *
  split
  · exact foundBy_singleton lies.isEdge_next
  · rename_i t ts hs
    have ht : t ∈ s.tokens := hs ▸ List.mem_cons_self
    split
    · exact foundBy_singleton (lies.isEdge_token_start ht)
    · split
      · exact foundBy_singleton lies.isEdge_next
      · rename_i colon after hc
        have follows := follows_significant hs hc
        split
        · exact foundBy_singleton (lies.isEdge_token_start follows.mem)
        · rw [Parsed.map_errors]
          split
          · exact foundBy_nil
          · have value := (splitImportant_isPart (trim ⟨after, s.next⟩)).trans
              ((trim_isPart _).trans follows.isPart)
            exact foundBy_part value lies (components_found (value.liesIn lies))

/-! ### Selectors -/

/-- If reading a selector or a part of one fails, the error was found at such an offset. -/
def FailsBy {α : Type} (source : String) (hi : Nat) (r : SelectorResult α) : Prop :=
  ∀ e, r = .error e → IsEdge source hi e.offset

section

variable {α β : Type} {r : SelectorResult α} {f : α → SelectorResult β} {fault : Fault}

theorem failsBy_ok (a : α) : FailsBy source hi (.ok a : SelectorResult α) := by
  rintro _ ⟨⟩

theorem failsBy_error (h : IsEdge source hi n) :
    FailsBy source hi (.error ⟨fault, n⟩ : SelectorResult α) := by
  rintro _ ⟨⟩
  exact h

theorem FailsBy.bind (h : FailsBy source hi r) (next : ∀ a, r = .ok a → FailsBy source hi (f a)) :
    FailsBy source hi (r >>= f) := by
  cases r with
  | error e =>
    rintro _ ⟨⟩
    exact h e rfl
  | ok a => exact next a rfl

end

/-- Tokens that start at such offsets. -/
def StartBy (source : String) (hi : Nat) (ts : List Token) : Prop :=
  ∀ t ∈ ts, IsEdge source hi t.start

section

variable {ts us more : List Token} {close : Nat}

theorem StartBy.of_subset (h : StartBy source hi ts) (sub : us ⊆ ts) : StartBy source hi us :=
  fun t ht => h t (sub ht)

theorem significant_subset (ts : List Token) : Token.significant ts ⊆ ts :=
  (List.dropWhile_suffix _).subset

theorem attributeName_fails (starts : StartBy source hi ts) (closes : IsEdge source hi close) :
    FailsBy source hi (attributeName close ts) ∧
      ∀ name more, attributeName close ts = .ok (name, more) → StartBy source hi more := by
  have rest := starts.of_subset (significant_subset ts)
  rw [attributeName]
  split
  · exact ⟨failsBy_error closes, by rintro _ _ ⟨⟩⟩
  · rename_i t more ht
    rw [ht] at rest
    obtain ⟨first, later⟩ := List.forall_mem_cons.mp rest
    split
    · exact ⟨failsBy_error first, by rintro _ _ ⟨⟩⟩
    · split
      · split
        · refine ⟨failsBy_ok _, ?_⟩
          rintro _ _ ⟨⟩
          exact (List.forall_mem_cons.mp (List.forall_mem_cons.mp later).2).2
        · refine ⟨failsBy_ok _, ?_⟩
          rintro _ _ ⟨⟩
          exact later
      · refine ⟨failsBy_ok _, ?_⟩
        rintro _ _ ⟨⟩
        exact later

theorem attributeMatcher_fails {op : Token} (first : IsEdge source hi op.start)
    (starts : StartBy source hi ts) :
    FailsBy source hi (attributeMatcher op ts) ∧
      ∀ name more, attributeMatcher op ts = .ok (name, more) → StartBy source hi more := by
  rw [attributeMatcher]
  split
  · refine ⟨failsBy_ok _, ?_⟩
    rintro _ _ ⟨⟩
    exact starts
  · split
    · split
      · refine ⟨failsBy_ok _, ?_⟩
        rintro _ _ ⟨⟩
        exact (List.forall_mem_cons.mp starts).2
      · exact ⟨failsBy_error first, by rintro _ _ ⟨⟩⟩
    · exact ⟨failsBy_error first, by rintro _ _ ⟨⟩⟩
  · exact ⟨failsBy_error first, by rintro _ _ ⟨⟩⟩

theorem attributeValue_fails (starts : StartBy source hi ts) (closes : IsEdge source hi close) :
    FailsBy source hi (attributeValue close ts) ∧
      ∀ value more, attributeValue close ts = .ok (value, more) → StartBy source hi more := by
  have rest := starts.of_subset (significant_subset ts)
  rw [attributeValue]
  split
  · exact ⟨failsBy_error closes, by rintro _ _ ⟨⟩⟩
  · rename_i v more hv
    rw [hv] at rest
    obtain ⟨first, later⟩ := List.forall_mem_cons.mp rest
    split
    · refine ⟨failsBy_ok _, ?_⟩
      rintro _ _ ⟨⟩
      exact later
    · refine ⟨failsBy_ok _, ?_⟩
      rintro _ _ ⟨⟩
      exact later
    · exact ⟨failsBy_error first, by rintro _ _ ⟨⟩⟩

theorem attributeFlags_starts (starts : StartBy source hi ts) :
    StartBy source hi (attributeFlags ts).2 := by
  have rest := starts.of_subset (significant_subset ts)
  rw [attributeFlags]
  split
  · rename_i f more hf
    rw [hf] at rest
    split
    · exact (List.forall_mem_cons.mp rest).2
    · exact starts
  · exact starts

theorem attributeTest_fails (starts : StartBy source hi ts) (closes : IsEdge source hi close) :
    FailsBy source hi (attributeTest close ts) := by
  obtain ⟨nameFails, afterName⟩ := attributeName_fails starts closes
  refine nameFails.bind ?_
  rintro ⟨name, more⟩ hname
  have rest := (afterName name more hname).of_subset (significant_subset more)
  dsimp only
  split
  · exact failsBy_ok _
  · rename_i op more' hop
    rw [hop] at rest
    obtain ⟨first, later⟩ := List.forall_mem_cons.mp rest
    obtain ⟨matcherFails, afterMatcher⟩ := attributeMatcher_fails first later
    refine matcherFails.bind ?_
    rintro ⟨matcher, more⟩ hmatcher
    obtain ⟨valueFails, afterValue⟩ := attributeValue_fails (afterMatcher matcher more hmatcher)
      closes
    refine valueFails.bind ?_
    rintro ⟨value, more⟩ hvalue
    have last := (attributeFlags_starts (afterValue value more hvalue)).of_subset
      (significant_subset _)
    dsimp only
    split
    · exact failsBy_ok _
    · rename_i extra _ hextra
      rw [hextra] at last
      exact failsBy_error (List.forall_mem_cons.mp last).1

end

theorem startBy_tokens (part : p.IsPart s) (h : s.LiesIn source) (le : s.next ≤ hi) :
    StartBy source hi p.tokens :=
  fun _ ht => (h.isEdge_token_start (part.subset ht)).mono le

section

variable (h : rest.LiesIn source) (le : rest.next ≤ hi) (limited : IsEdge source hi limit)
include h le limited

theorem attributeSelector_fails : FailsBy source hi (attributeSelector limit t rest) := by
  unfold attributeSelector
  dsimp only
  split
  · exact failsBy_error limited
  · rename_i c hc
    obtain ⟨ht, -, -⟩ := enter_closer t rest hc
    have closes : IsEdge source hi c.start := by
      refine (h.isEdge_token_start ?_).mono le
      rw [ht]
      exact List.mem_append_right _ List.mem_cons_self
    have starts := startBy_tokens (enter_inner_isPart t rest) h le
    exact (attributeTest_fails starts closes).bind fun _ _ => failsBy_ok _

theorem pseudoNamed_fails (kind : NodeKind) (colon : Token) :
    FailsBy source hi (pseudoNamed limit kind colon rest) := by
  unfold pseudoNamed
  split
  · exact failsBy_error (h.isEdge_next.mono le)
  · rename_i t ts hs
    split
    · exact failsBy_ok _
    · dsimp only
      split
      · exact failsBy_error limited
      · exact failsBy_ok _
    · exact failsBy_error ((h.isEdge_token_start (hs ▸ List.mem_cons_self)).mono le)

theorem pseudoSelector_fails : FailsBy source hi (pseudoSelector limit t rest) := by
  unfold pseudoSelector
  split
  · rename_i second ts hs
    have tail : IsPart ⟨ts, rest.next⟩ rest := isPart_rest hs
    split
    · exact pseudoNamed_fails (tail.liesIn h) le limited _ _
    · exact pseudoNamed_fails h le limited _ _
  · exact pseudoNamed_fails h le limited _ _

omit limited in
theorem classSelector_fails : FailsBy source hi (classSelector t rest) := by
  unfold classSelector
  split
  · exact failsBy_error (h.isEdge_next.mono le)
  · rename_i name ts hs
    split
    · exact failsBy_ok _
    · exact failsBy_error ((h.isEdge_token_start (hs ▸ List.mem_cons_self)).mono le)

end

theorem simpleSelector_fails (h : LiesIn source ⟨t :: rest.tokens, rest.next⟩)
    (le : rest.next ≤ hi) (limited : IsEdge source hi limit) :
    FailsBy source hi (simpleSelector limit t rest) := by
  have first : IsEdge source rest.next t.start :=
    h.isEdge_token_start (s := ⟨t :: rest.tokens, rest.next⟩) List.mem_cons_self
  have tail : IsPart rest ⟨t :: rest.tokens, rest.next⟩ := isPart_tail
  have lies := tail.liesIn h
  unfold simpleSelector
  split
  · exact failsBy_ok _
  · exact failsBy_ok _
  · exact attributeSelector_fails lies le limited
  · exact pseudoSelector_fails lies le limited
  · split
    · exact failsBy_ok _
    · exact failsBy_ok _
    · exact classSelector_fails lies le
    · exact failsBy_error (first.mono le)
  · exact failsBy_error (first.mono le)

/-- Reading a list of selectors in a scope that ends by `hi` fails no further than there. -/
def ListFails (source : String) (hi limit : Nat) (s : Scope) : Prop :=
  s.LiesIn source → s.next ≤ hi → FailsBy source hi (selectors limit s)

/-- Reading the parts of a selector fails no further than there. -/
def PartsFail (source : String) (hi limit : Nat) (kind : Option NodeKind) (space : Option Token)
    (s : Scope) : Prop :=
  s.LiesIn source → s.next ≤ hi → FailsBy source hi (selectorParts limit kind space s)

/-- The argument of a pseudo selector fails no further than the list of selectors in it. -/
theorem finish_fails {simple : Simple} {last : Token} (spans : simple.Spans t rest last)
    (h : rest.LiesIn source) (le : rest.next ≤ hi)
    (list : ∀ kind name span argument, simple = .functional kind name span argument →
      (kind = .pseudoClassSelector && takesSelectors name) = true →
        argument.tokens.isEmpty = false → ListFails source hi limit argument) :
    FailsBy source hi (simple.finish limit) := by
  cases spans with
  | node kind detail => exact failsBy_ok _
  | @functional kind name argument inner part within closed =>
    have whole := part.trans within
    have lies := whole.liesIn h
    rw [Simple.finish]
    refine FailsBy.bind ?_ fun _ _ => failsBy_ok _
    rw [argumentNode]
    split
    · rename_i takes
      split
      · exact failsBy_error ((lies.isEdge_start.mono (whole.next_le h)).mono le)
      · rename_i he
        exact (list _ _ _ _ rfl takes (by simpa using he) lies
          (Nat.le_trans (whole.next_le h) le)).bind fun _ _ => failsBy_ok _
    · exact failsBy_ok _

theorem selectors_fail_all (limited : IsEdge source hi limit) :
    (∀ s, ListFails source hi limit s) ∧
      ∀ kind space s, PartsFail source hi limit kind space s := by
  refine selectors_induction limit ?empty ?nonempty ?done ?space ?comment ?combinator ?failed
    ?simple
  case empty =>
    intro s hp h le
    have part := (trim_isPart _).trans (cut_fst_isPart (· = .comma) s)
    rw [selectors, if_pos hp]
    exact failsBy_error (((part.liesIn h).isEdge_start.mono (part.next_le h)).mono le)
  case nonempty =>
    intro s hp parts rest h le
    have part := (trim_isPart _).trans (cut_fst_isPart (· = .comma) s)
    rw [selectors_nonempty hp]
    refine (parts (part.liesIn h) (Nat.le_trans (part.next_le h) le)).bind fun children _ => ?_
    refine FailsBy.bind ?_ fun _ _ => failsBy_ok _
    split
    · exact failsBy_ok _
    · rename_i t ts ht
      exact rest t ts ht ((cut_rest_isPart ht).liesIn h) le
  case done =>
    intro kind space next h le
    rw [selectorParts]
    exact failsBy_ok _
  case space =>
    intro kind space t ts next hk ih h le
    rw [selectorParts_space hk]
    exact ih (isPart_tail.liesIn h) le
  case comment =>
    intro kind space t ts next hk hc ih h le
    rw [selectorParts_comment hk hc]
    exact ih (isPart_tail.liesIn h) le
  case combinator =>
    intro kind space t ts next name last after hk hc hx ih h le
    have part := (explicitCombinator_follows hx).isPart
    rw [selectorParts_combinator hk hc hx]
    exact (ih (part.liesIn h) (Nat.le_trans (part.next_le h) le)).bind fun _ _ => failsBy_ok _
  case failed =>
    intro kind space t ts next e hk hc hn hx h le
    have fails : FailsBy source hi (simpleSelector limit t ⟨ts, next⟩) :=
      simpleSelector_fails h le limited
    rw [selectorParts_simple hk hc hn]
    refine fails.bind ?_
    rw [hx]
    rintro _ ⟨⟩
  case simple =>
    intro kind space t ts next simple after hk hc hn hx list parts h le
    obtain ⟨last, follows, spans⟩ := simpleSelector_readOff hx
    have part := follows.isPart
    rw [selectorParts_simple hk hc hn, hx]
    refine (finish_fails spans (isPart_tail.liesIn h) le list).bind fun n hfinish => ?_
    exact (parts n hfinish (part.liesIn h) (Nat.le_trans (part.next_le h) le)).bind
      fun _ _ => failsBy_ok _

theorem orRaw_found {r : SelectorResult Located} (h : FailsBy source hi r) :
    FoundBy source hi (orRaw s r).errors := by
  cases r with
  | ok n => exact foundBy_nil
  | error e => exact foundBy_singleton (h e rfl)

/-! ### Rules -/

theorem rulePrelude_found {keyframes : Bool} (h : s.LiesIn source) (le : s.next ≤ hi)
    (limited : IsEdge source hi limit) :
    FoundBy source hi (rulePrelude keyframes limit s).errors := by
  have part := trim_isPart s
  have lies := part.liesIn h
  have le' := Nat.le_trans (part.next_le h) le
  rw [rulePrelude]
  split
  · exact foundBy_singleton (lies.isEdge_next.mono le')
  · split
    · exact foundBy_nil
    · exact orRaw_found (((selectors_fail_all limited).1 _ lies le').bind fun _ _ => failsBy_ok _)

theorem preludeNodes_found (name : String) (h : s.LiesIn source) :
    FoundBy source s.next (preludeNodes name s).errors := by
  rw [preludeNodes]
  split
  · exact foundBy_nil
  · exact atRulePrelude_found name h

section

variable {f : Token.Kind → Bool} {b : Block}

/-- What stands between the brackets of an item is a part of the scope it is cut out of. -/
theorem item_inner_isPart (hb : (Item.take f s).ending = .block b) : b.inner.IsPart s := by
  obtain ⟨d, ds, -, hc, rfl, -⟩ := Item.exists_block hb
  have found : IsPart ⟨d :: ds, s.next⟩ s := hc ▸ cut_snd_isPart f s
  exact ((enter_inner_isPart d ⟨ds, s.next⟩).trans isPart_tail).trans found

/-- A block is reported where one of the tokens of its scope stops. -/
theorem block_errors_found (h : s.LiesIn source) (hb : (Item.take f s).ending = .block b) :
    FoundBy source s.next b.errors := by
  obtain ⟨last, hlast, stop⟩ := (item_block h hb).1.last
  rw [Block.errors]
  split
  · exact foundBy_nil
  · refine foundBy_singleton ?_
    rw [stop]
    exact h.isEdge_token_stop hlast

theorem withBlock_found {items : Parsed (List Located)} (h : s.LiesIn source)
    (hb : (Item.take f s).ending = .block b) (found : FoundBy source b.inner.next items.errors) :
    FoundBy source s.next (withBlock b items).errors :=
  (foundBy_part (item_inner_isPart hb) h found).append (block_errors_found h hb)

theorem styleRule_found {keyframes : Bool} {start : Nat} {items : Parsed (List Located)}
    (h : s.LiesIn source) (hb : (Item.take f s).ending = .block b)
    (found : FoundBy source b.inner.next items.errors) :
    FoundBy source s.next (styleRule start
      (rulePrelude keyframes s.stop (Item.take f s).prelude) (withBlock b items)).errors := by
  have part := item_prelude_isPart f s
  exact (rulePrelude_found (part.liesIn h) (part.next_le h) h.isEdge_stop).append
    (withBlock_found h hb found)

end

theorem openStop_isEdge {prelude : Scope} (h : LiesIn source ⟨t :: rest.tokens, rest.next⟩)
    (part : prelude.IsPart rest) : IsEdge source rest.next (openStop t rest prelude) := by
  have tail : IsPart rest ⟨t :: rest.tokens, rest.next⟩ := isPart_tail
  have trimmed := (trim_isPart prelude).trans part
  have lies := tail.liesIn h
  rw [openStop]
  split
  · exact h.isEdge_stop
  · exact (trimmed.liesIn lies).isEdge_stop.mono (trimmed.next_le lies)

theorem atRuleOf_found {block : Parsed Located}
    (h : LiesIn source ⟨t :: rest.tokens, rest.next⟩)
    (hb : ∀ b, (Item.take endsPrelude rest).ending = .block b →
      FoundBy source rest.next block.errors) :
    FoundBy source rest.next
      (atRuleOf t rest (Item.take endsPrelude rest) block).errors := by
  have lies := isPart_tail.liesIn h
  have part := item_prelude_isPart endsPrelude rest
  have trimmed := (trim_isPart _).trans part
  have before := foundBy_part trimmed lies
    (preludeNodes_found (atRuleName t) (trimmed.liesIn lies))
  generalize Item.take endsPrelude rest = item at *
  obtain ⟨prelude, ending, after⟩ := item
  cases ending with
  | block b =>
    rw [atRuleOf_block]
    exact before.append (hb b rfl)
  | semicolon d =>
    rw [atRuleOf_semicolon]
    exact before
  | missing =>
    rw [atRuleOf_missing]
    exact before.append (foundBy_singleton (openStop_isEdge h part))

theorem looseItem_found (part : p.IsPart s) (h : s.LiesIn source) (ht : t ∈ s.tokens) :
    FoundBy source s.next (looseItem t p).errors := by
  rw [looseItem]
  split
  · exact foundBy_part part h (declaration_found (part.liesIn h))
  · exact foundBy_singleton (h.isEdge_token_start ht)

/-- The errors of an at-rule are found within its scope. -/
def AtRuleFound (source : String) (nested : Bool) (t : Token) (rest : Scope) : Prop :=
  LiesIn source ⟨t :: rest.tokens, rest.next⟩ →
    FoundBy source rest.next (atRule nested t rest).errors

/-- The errors of items are found within their scope. -/
def ItemsFound (source : String) (read : Scope → Parsed (List Located)) (s : Scope) : Prop :=
  s.LiesIn source → FoundBy source s.next (read s).errors

theorem items_found_all : (∀ nested t rest, AtRuleFound source nested t rest) ∧
    (∀ top keyframes nested s, ItemsFound source (ruleList top keyframes nested) s) ∧
      ∀ nested s, ItemsFound source (blockItems nested) s := by
  refine items_induction ?atRule ?rulesEnd ?rulesSkip ?rulesAtRule ?rulesRule ?rulesRest ?itemsEnd
    ?itemsSkip ?itemsAtRule ?itemsDeclaration ?itemsRule ?itemsLoose
  case atRule =>
    intro nested t rest items h
    have lies := isPart_tail.liesIn h
    obtain ⟨block, read, within⟩ := exists_atRuleOf nested t rest
    rw [read]
    refine atRuleOf_found h fun b hb => ?_
    obtain ⟨ofItems, ofRules⟩ := items b hb
    have inner := (item_inner_isPart hb).liesIn lies
    obtain ⟨_, rfl, rfl | rfl⟩ := within b hb
    · exact withBlock_found lies hb (ofItems inner)
    · exact withBlock_found lies hb (ofRules inner)
  case rulesEnd =>
    intro top keyframes nested next h
    rw [ruleList_nil]
    exact foundBy_nil
  case rulesSkip =>
    intro top keyframes nested t ts next hk ih h
    rw [ruleList_skip hk]
    exact ih (isPart_tail.liesIn h)
  case rulesAtRule =>
    intro top keyframes nested t ts next hk ha hat ih h
    have part := (item_after_isPart endsPrelude ⟨ts, next⟩).trans (isPart_tail (t := t))
    rw [ruleList_atRule hk ha]
    exact (hat h).append (foundBy_part (s := ⟨t :: ts, next⟩) part h (ih (part.liesIn h)))
  case rulesRule =>
    intro top keyframes nested t ts next b hk ha hb items ih h
    have part := item_after_isPart (· = .leftCurly) ⟨t :: ts, next⟩
    rw [ruleList_rule hk ha hb]
    exact (styleRule_found h hb (items ((item_inner_isPart hb).liesIn h))).append
      (foundBy_part part h (ih (part.liesIn h)))
  case rulesRest =>
    intro top keyframes nested t ts next hk ha hno h
    rw [ruleList_rest hk ha hno]
    exact foundBy_singleton h.isEdge_stop
  case itemsEnd =>
    intro nested next h
    rw [blockItems_nil]
    exact foundBy_nil
  case itemsSkip =>
    intro nested t ts next hk ih h
    rw [blockItems_skip hk]
    exact ih (isPart_tail.liesIn h)
  case itemsAtRule =>
    intro nested t ts next hk ha hat ih h
    have part := (item_after_isPart endsPrelude ⟨ts, next⟩).trans (isPart_tail (t := t))
    rw [blockItems_atRule hk ha]
    exact (hat h).append (foundBy_part (s := ⟨t :: ts, next⟩) part h (ih (part.liesIn h)))
  case itemsDeclaration =>
    intro nested t ts next hk ha hd ih h
    have prelude := item_prelude_isPart (· = .semicolon) ⟨t :: ts, next⟩
    have part := item_after_isPart (· = .semicolon) ⟨t :: ts, next⟩
    rw [blockItems_declaration hk ha hd]
    exact (foundBy_part prelude h (declaration_found (prelude.liesIn h))).append
      (foundBy_part part h (ih (part.liesIn h)))
  case itemsRule =>
    intro nested t ts next b hk ha hd hb items ih h
    have part := item_after_isPart endsPrelude ⟨t :: ts, next⟩
    rw [blockItems_rule hk ha hd hb]
    exact (styleRule_found h hb (items ((item_inner_isPart hb).liesIn h))).append
      (foundBy_part part h (ih (part.liesIn h)))
  case itemsLoose =>
    intro nested t ts next hk ha hd hno ih h
    have prelude := item_prelude_isPart endsPrelude ⟨t :: ts, next⟩
    have part := item_after_isPart endsPrelude ⟨t :: ts, next⟩
    rw [blockItems_loose hk ha hd hno]
    exact (looseItem_found prelude h List.mem_cons_self).append
      (foundBy_part part h (ih (part.liesIn h)))

end Grammar

end Stylesheet
