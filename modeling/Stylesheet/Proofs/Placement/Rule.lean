import Mathlib.Data.List.TakeWhile
import Stylesheet.Proofs.Placement.Selector
import Stylesheet.Proofs.Placement.Value

/-!
# Rules and declarations are placed

A declaration spans its trimmed scope, and what is left of its value once `!important` has been
taken off still stands behind the colon. Items are cut out of their scope one after the other, the
blocks among them with what was read inside.
-/

namespace Stylesheet

/-- A block that is cut out of a scope: it spans a part of the text, its content lies inside, and it
stops with a token of the scope. -/
structure Block.CutFrom (source : String) (b : Block) (s : Scope) : Prop where
  span : b.span.LiesIn source
  inner : b.inner.LiesIn source
  opened : b.span.start ≤ b.inner.start
  ends : b.inner.EndsBy b.stop
  last : ∃ t ∈ s.tokens, b.stop = t.stop

namespace Grammar

open Located Scope

variable {source : String} {s : Scope} {t : Token} {hi : Nat}

/-! ### Declarations -/

/-- A scope that is nothing but white space and comments is trimmed to its end. -/
theorem trim_empty (h : s.trim.tokens = []) :
    (∀ t ∈ s.tokens, t.kind.isTrivia = true) ∧ s.trim.next = s.next := by
  have hs : Token.significant s.tokens = [] := by
    have hall : ∀ t ∈ (Token.significant s.tokens).reverse, t.kind.isTrivia = true := by
      have hback : Token.significant (Token.significant s.tokens).reverse = [] := by
        simpa [trim] using h
      exact List.dropWhile_eq_nil_iff.mp hback
    have hhead := List.head?_dropWhile_not (fun t : Token => t.kind.isTrivia) s.tokens
    cases hc : Token.significant s.tokens with
    | nil => rfl
    | cons t ts =>
      have ht := hall t (by simp [hc])
      unfold Token.significant at hc
      rw [hc] at hhead
      dsimp only [List.head?_cons] at hhead
      rw [ht] at hhead
      cases hhead
  refine ⟨List.dropWhile_eq_nil_iff.mp hs, ?_⟩
  simp [trim, hs, Token.startOf]

/-- A scope whose last token opens no block stops where the next one starts. -/
theorem next_eq_stop {front : List Token} {last : Token} (h : s.LiesIn source)
    (hs : s.tokens = front ++ [last]) (hk : last.kind.opensBlock = false) : s.next = s.stop := by
  have hreach := Token.Run.reach_eq_stop h (t := last) (by simp [hs]) hk
  rw [LiesIn, hs] at h
  obtain ⟨m, -, right⟩ := Token.Run.append_iff.mp h
  obtain ⟨-, -, -, rest⟩ := Token.Run.cons_iff.mp right
  have hnext : s.next = last.reach := rest.startOf_eq
  rw [hnext, hreach]
  simp [stop, hs]

theorem trivia_opens {k : Token.Kind} (h : k.isTrivia = true) : k.opensBlock = false := by
  cases k <;> first | rfl | cases h

/-- Taking `!important` off leaves a value alone or stops it before the exclamation mark, and tells
which. -/
theorem splitImportant_eq (value : Scope) : splitImportant value = (value, false) ∨
    ∃ front bang back, value.tokens = front ++ bang :: back ∧
      splitImportant value = (trim ⟨front, bang.start⟩, true) := by
  rw [splitImportant]
  split
  · rename_i word before hr
    split
    · split
      · rename_i bang rest hb
        split
        · refine .inr ⟨rest.reverse, bang,
            (before.takeWhile fun t => t.kind.isTrivia).reverse ++ [word], ?_, rfl⟩
          have hv : value.tokens = before.reverse ++ [word] := by
            rw [← List.reverse_reverse value.tokens, hr, List.reverse_cons]
          have hbefore := Token.significant_append before
          rw [hb] at hbefore
          rw [hv]
          conv => lhs; rw [← hbefore]
          simp
        · exact .inl rfl
      · exact .inl rfl
    · exact .inl rfl
  · exact .inl rfl

theorem splitImportant_cases (value : Scope) : (splitImportant value).1 = value ∨
    ∃ front bang back, value.tokens = front ++ bang :: back ∧
      (splitImportant value).1 = trim ⟨front, bang.start⟩ := by
  obtain same | ⟨front, bang, back, tokens, same⟩ := splitImportant_eq value
  · exact .inl (congrArg Prod.fst same)
  · exact .inr ⟨front, bang, back, tokens, congrArg Prod.fst same⟩

theorem splitImportant_isPart (value : Scope) : (splitImportant value).1.IsPart value := by
  obtain h | ⟨front, bang, back, ht, h⟩ := splitImportant_cases value
  · rw [h]
    exact .refl value
  · rw [h]
    exact (trim_isPart _).trans ⟨[], bang :: back, ht, rfl⟩

/-- What is left of a value ends by the end of its declaration. -/
theorem value_stop_le {colon : Token} {after : List Token} (h : s.LiesIn source)
    (hc : s.Follows colon ⟨after, s.next⟩) (hk : colon.kind = .colon) :
    (splitImportant (trim ⟨after, s.next⟩)).1.stop ≤ s.stop := by
  have part := hc.isPart
  have hv := (splitImportant_isPart (trim ⟨after, s.next⟩)).trans ((trim_isPart _).trans part)
  by_cases hne : (splitImportant (trim ⟨after, s.next⟩)).1.tokens = []
  · rw [stop_eq_next hne]
    obtain heq | ⟨front, bang, back, ht, heq⟩ := splitImportant_cases (trim ⟨after, s.next⟩)
    · rw [heq] at hne ⊢
      obtain ⟨trivia, hn⟩ := trim_empty hne
      obtain ⟨front, ht, -⟩ := hc
      obtain ⟨init, last, hlast⟩ := (List.eq_nil_or_concat (colon :: after)).resolve_left
        (List.cons_ne_nil _ _)
      rw [List.concat_eq_append] at hlast
      have hmem : last ∈ colon :: after := by simp [hlast]
      have hopens : last.kind.opensBlock = false := by
        obtain rfl | hmem := List.mem_cons.mp hmem
        · rw [hk]
          rfl
        · exact trivia_opens (trivia last hmem)
      have hs : s.tokens = (front ++ init) ++ [last] := by
        rw [ht, List.append_assoc, ← hlast]
      rw [hn, next_eq_stop h hs hopens]
    · rw [heq]
      have hbang : bang ∈ (trim ⟨after, s.next⟩).tokens := by simp [ht]
      have hstop := h.endsBy_stop bang (((trim_isPart _).trans part).subset hbang)
      have inner : IsPart ⟨front, bang.start⟩ (trim ⟨after, s.next⟩) := ⟨[], bang :: back, ht, rfl⟩
      have lies := inner.liesIn (((trim_isPart _).trans part).liesIn h)
      have := (trim_isPart ⟨front, bang.start⟩).next_le lies
      have := bang.start_le_stop
      dsimp only at *
      omega
  · exact (hv.endsBy h.endsBy_stop).stop_le hne

/-- The value of a declaration is placed behind its colon. -/
theorem declarationValue_placed {colon : Token} {after : List Token} (name : String)
    (h : s.LiesIn source) (hc : s.Follows colon ⟨after, s.next⟩) (hk : colon.kind = .colon) :
    PlacedIn source s.start s.stop
      [(if isCustomProperty name then
          (⟨customValue colon after (splitImportant (trim ⟨after, s.next⟩)).1, []⟩ : Parsed Located)
        else plainValue colon (splitImportant (trim ⟨after, s.next⟩)).1).value] := by
  have hstop := value_stop_le h hc hk
  have part : (splitImportant (trim ⟨after, s.next⟩)).1.IsPart ⟨after, s.next⟩ :=
    (splitImportant_isPart _).trans (trim_isPart _)
  have lies := (part.trans hc.isPart).liesIn h
  have hcolon := h.token_span hc.mem
  have hbefore : colon.stop ≤ (splitImportant (trim ⟨after, s.next⟩)).1.start :=
    Nat.le_trans (hc.stop_le h) (part.start_le (hc.isPart.liesIn h))
  have hends := h.endsBy_stop colon hc.mem
  have hstart := h.start_le hc.mem
  have hle := colon.start_le_stop
  have hvalue := lies.start_le_stop
  generalize (splitImportant (trim ⟨after, s.next⟩)).1 = value at *
  split
  · refine placedIn_singleton (placed_leaf ⟨?_, hcolon.edge_stop, lies.edge_stop⟩) ?_ hstop
    · change colon.stop ≤ value.stop
      omega
    · change s.start ≤ colon.stop
      omega
  · unfold plainValue
    rw [Parsed.map_value]
    by_cases he : value.tokens.isEmpty = true
    · rw [if_pos he]
      have hnil : componentSequence value = ⟨[], []⟩ := by
        rw [componentSequence, components]
        obtain ⟨tokens, next⟩ := value
        obtain rfl : tokens = [] := by simpa using he
        rfl
      rw [hnil]
      refine placedIn_singleton (placed_leaf ⟨Nat.le_refl _, hcolon.edge_stop, hcolon.edge_stop⟩)
        ?_ hends
      change s.start ≤ colon.stop
      omega
    · rw [if_neg he]
      refine placedIn_singleton ?_ ?_ hstop
      · exact placed_scope lies (componentSequence_placed lies lies.endsBy_stop)
      · change s.start ≤ value.start
        omega

/-- A declaration spans its trimmed scope, well formed or not. -/
theorem declaration_placed (h : s.LiesIn source) :
    Placed source (declaration s).value ∧ (declaration s).value.note = s.trim.span := by
  have lies := (trim_isPart s).liesIn h
  rw [declaration]
  dsimp only
  generalize s.trim = s at *
  split
  · exact ⟨placed_raw lies, rfl⟩
  · rename_i t ts hs
    split
    · exact ⟨placed_raw lies, rfl⟩
    · split
      · exact ⟨placed_raw lies, rfl⟩
      · rename_i colon after hc
        split
        · exact ⟨placed_raw lies, rfl⟩
        · rename_i hk
          have follows := follows_significant hs hc
          have placed := declarationValue_placed t.text lies follows (by simpa using hk)
          exact ⟨placed_iff.mpr ⟨lies.span, placed⟩, rfl⟩

/-! ### Items -/

theorem rulePrelude_placed (keyframes : Bool) (limit : Nat) (h : s.LiesIn source) :
    Placed source (rulePrelude keyframes limit s).value ∧
      (rulePrelude keyframes limit s).value.note = s.trim.span := by
  have lies := (trim_isPart s).liesIn h
  unfold rulePrelude
  dsimp only
  split
  · exact ⟨placed_raw lies, rfl⟩
  · split
    · exact ⟨placed_raw lies, rfl⟩
    · exact orRaw_placed lies fun n hn => selectorList_placed hn lies

theorem withBlock_placed {b : Block} {items : Parsed (List Located)} (cut : b.CutFrom source s)
    (h : PlacedIn source b.inner.start b.stop items.value) :
    Placed source (withBlock b items).value :=
  placed_iff.mpr ⟨cut.span, h.mono cut.opened (Nat.le_refl _)⟩

/-- A style rule is placed if its prelude starts no earlier than it does and its block follows. -/
theorem styleRule_placed {start : Nat} {prelude block : Parsed Located}
    (edge : (⟨start⟩ : String.Pos.Raw).IsValid source) (hp : Placed source prelude.value)
    (hb : Placed source block.value) (hstart : start ≤ prelude.value.note.start)
    (hstop : prelude.value.note.stop ≤ block.value.note.start) :
    Placed source (styleRule start prelude block).value := by
  have lep := hp.liesIn.le
  have leb := hb.liesIn.le
  refine placed_iff.mpr ⟨⟨?_, edge, hb.liesIn.edge_stop⟩, placedIn_cons.mpr
    ⟨hstart, ?_, hp, placedIn_singleton hb hstop (Nat.le_refl _)⟩⟩
  · change start ≤ block.value.note.stop
    omega
  · change prelude.value.note.stop ≤ block.value.note.stop
    omega

section Items

variable {f : Token.Kind → Bool} {b : Block}

theorem item_prelude_isPart (f : Token.Kind → Bool) (s : Scope) :
    (Item.take f s).prelude.IsPart s := by
  rw [Item.take_prelude]
  exact cut_fst_isPart f s

theorem item_after_isPart (f : Token.Kind → Bool) (s : Scope) :
    (Item.take f s).after.IsPart s := by
  have h := cut_snd_isPart f s
  obtain ⟨d, ds, hc, ht⟩ | ⟨d, ds, hc, ht⟩ | ⟨hc, ht⟩ := Item.take_cases f s
  · rw [ht]
    rw [hc] at h
    exact ((enter_after_isPart d _).trans isPart_tail).trans h
  · rw [ht]
    rw [hc] at h
    exact isPart_tail.trans h
  · rw [ht]
    rwa [hc] at h

/-- What an item leaves over starts no earlier than its prelude ends. -/
theorem item_prelude_next_le (f : Token.Kind → Bool) (h : s.LiesIn source) :
    (Item.take f s).prelude.next ≤ (Item.take f s).after.start := by
  have found := cut_snd_isPart f s
  have hnext : (s.cut f).1.next = (s.cut f).2.start := rfl
  obtain ⟨d, ds, hc, ht⟩ | ⟨d, ds, hc, ht⟩ | ⟨hc, ht⟩ := Item.take_cases f s
  · rw [ht]
    rw [hc] at found hnext
    have part := (enter_after_isPart d ⟨ds, s.next⟩).trans (isPart_tail (t := d))
    exact hnext ▸ part.start_le (found.liesIn h)
  · rw [ht]
    rw [hc] at found hnext
    exact hnext ▸ (isPart_tail (t := d)).start_le (found.liesIn h)
  · rw [ht]
    rw [hc] at hnext
    exact Nat.le_of_eq hnext

/-- An item's block is cut out of its scope behind the prelude and before what is left over. -/
theorem item_block (h : s.LiesIn source) (hb : (Item.take f s).ending = .block b) :
    b.CutFrom source s ∧ (Item.take f s).prelude.next = b.span.start ∧
      b.stop ≤ (Item.take f s).after.start := by
  obtain ⟨d, ds, -, hc, rfl, ht⟩ := Item.exists_block hb
  rw [ht]
  have found : IsPart ⟨d :: ds, s.next⟩ s := hc ▸ cut_snd_isPart f s
  have lies := found.liesIn h
  have inner := (enter_inner_isPart d ⟨ds, s.next⟩).trans (isPart_tail (t := d))
  have hnext : (s.cut f).1.next = (s.cut f).2.start := rfl
  obtain ⟨-, hends, hafter⟩ := enter_bounds (s := ⟨ds, s.next⟩) lies
  obtain ⟨last, hlast, hstop⟩ := enter_stop_mem d ⟨ds, s.next⟩
  refine ⟨⟨enter_liesIn lies, inner.liesIn lies, ?_, hends, last, found.subset hlast, hstop⟩,
    ?_, hafter⟩
  · rw [Block.span, enter_opener]
    exact inner.start_le lies
  · rw [Block.span, enter_opener, hnext, hc]
    rfl

/-- A rule of either list goes in front of the items that follow it. -/
theorem styleRule_placedIn (keyframes : Bool) (limit : Nat) {items : Parsed (List Located)}
    {ns : List Located} (h : s.LiesIn source) (ends : s.EndsBy hi)
    (hb : (Item.take f s).ending = .block b)
    (inner : PlacedIn source b.inner.start b.stop items.value)
    (rest : PlacedIn source (Item.take f s).after.start hi ns) :
    PlacedIn source s.start hi
      ((styleRule s.start (rulePrelude keyframes limit (Item.take f s).prelude)
        (withBlock b items)).value :: ns) := by
  obtain ⟨cut, hnext, hafter⟩ := item_block h hb
  have part := item_prelude_isPart f s
  obtain ⟨placed, note⟩ := rulePrelude_placed keyframes limit (part.liesIn h)
  have trimmed := (trim_isPart _).trans part
  have hstop : (Item.take f s).prelude.trim.stop ≤ b.span.start := by
    rw [← hnext]
    exact Nat.le_trans (trimmed.liesIn h).stop_le_next ((trim_isPart _).next_le (part.liesIn h))
  obtain ⟨last, hlast, heq⟩ := cut.last
  refine placedIn_cons.mpr ⟨Nat.le_refl _, ?_, ?_, rest.mono hafter (Nat.le_refl _)⟩
  · change b.stop ≤ hi
    exact heq ▸ ends last hlast
  · refine styleRule_placed h.edge_start placed (withBlock_placed cut inner) ?_ ?_
    · rw [note]
      exact trimmed.start_le h
    · rw [note]
      exact hstop

/-- What reading an at-rule answers, given the keyword and what follows it: the node starts with the
keyword, stops with a token of the scope and before what is left over. -/
structure AtRulePlaced (source : String) (t : Token) (rest : Scope) (n : Located) : Prop where
  placed : Placed source n
  start : n.note.start = t.start
  last : ∃ l ∈ t :: rest.tokens, n.note.stop = l.stop
  after : n.note.stop ≤ (Item.take endsPrelude rest).after.start

/-- The children that come before the block of an at-rule. -/
theorem preludes_placed (name : String) {lo : Nat} (h : s.LiesIn source) (hlo : lo ≤ s.start)
    (hhi : s.EndsBy hi) :
    PlacedIn source lo hi (if s.tokens.isEmpty then (⟨[], []⟩ : Parsed (List Located))
      else (atRulePrelude name s).map fun n => [n]).value := by
  split
  · exact placedIn_nil
  · rename_i hne
    obtain ⟨placed, note⟩ := atRulePrelude_placed name h
    refine placedIn_singleton placed ?_ ?_
    · rw [note]
      exact hlo
    · rw [note]
      exact hhi.stop_le (by simpa using hne)

theorem stop_mem (hne : s.tokens ≠ []) : ∃ l ∈ s.tokens, s.stop = l.stop :=
  ⟨s.tokens.getLast hne, List.getLast_mem hne, by simp [stop, List.getLast?_eq_some_getLast hne]⟩

/-- An at-rule that stops with a token of its scope is placed if its children are. -/
theorem AtRulePlaced.of_children {rest : Scope} {kind : NodeKind} {detail : Detail} {stop : Nat}
    {ns : List Located} (h : LiesIn source ⟨t :: rest.tokens, rest.next⟩)
    (last : ∃ l ∈ t :: rest.tokens, stop = l.stop) (children : PlacedIn source t.start stop ns)
    (after : stop ≤ (Item.take endsPrelude rest).after.start) :
    AtRulePlaced source t rest ⟨kind, detail, ⟨t.start, stop⟩, ns⟩ := by
  obtain ⟨l, hl, rfl⟩ := last
  exact ⟨placed_iff.mpr ⟨h.span_to hl, children⟩, rfl, ⟨l, hl, rfl⟩, after⟩

theorem atRuleOf_placed {rest : Scope} {block : Parsed Located}
    (h : LiesIn source ⟨t :: rest.tokens, rest.next⟩)
    (hb : ∀ b, (Item.take endsPrelude rest).ending = .block b →
      Placed source block.value ∧ block.value.note = b.span) :
    AtRulePlaced source t rest
      (atRuleOf t rest (Item.take endsPrelude rest) block).value := by
  have tail : IsPart rest ⟨t :: rest.tokens, rest.next⟩ := isPart_tail
  have lies := tail.liesIn h
  have part := (trim_isPart (rest.cut endsPrelude).1).trans (cut_fst_isPart endsPrelude rest)
  have inner := part.liesIn lies
  have hlo : t.start ≤ (rest.cut endsPrelude).1.trim.start := (part.trans tail).start_le h
  have before : (rest.cut endsPrelude).1.trim.EndsBy (rest.cut endsPrelude).2.start :=
    (trim_isPart _).endsBy (cut_fst_endsBy endsPrelude lies)
  have found := (cut_snd_isPart endsPrelude rest).trans tail
  obtain ⟨d, ds, hc, ht⟩ | ⟨d, ds, hc, ht⟩ | ⟨hc, ht⟩ := Item.take_cases endsPrelude rest
  · have hend : (Item.take endsPrelude rest).ending = .block (enter d ⟨ds, rest.next⟩) := by
      rw [ht]
    obtain ⟨cut, -, hafter⟩ := item_block lies hend
    obtain ⟨placed, note⟩ := hb _ hend
    obtain ⟨last, hlast, heq⟩ := cut.last
    have hspan : (enter d ⟨ds, rest.next⟩).span.start = d.start := by
      rw [Block.span, enter_opener]
    rw [hc] at before found
    have children := (preludes_placed (atRuleName t) inner hlo before).append
      (placedIn_singleton placed (Nat.le_of_eq (by rw [note, hspan]; rfl))
        (Nat.le_of_eq (by rw [note])))
      (found.start_le h) (hspan ▸ cut.span.le)
    rw [atRuleOf]
    rw [ht]
    exact .of_children h ⟨last, List.mem_cons_of_mem t hlast, heq⟩ children hafter
  · rw [hc] at before found
    have hd : d ∈ t :: rest.tokens := found.subset List.mem_cons_self
    have children := preludes_placed (atRuleName t) inner hlo
      (before.mono (show d.start ≤ d.stop from d.start_le_stop))
    have hafter : d.stop ≤ (Item.take endsPrelude rest).after.start := by
      rw [ht]
      exact (found.liesIn h).stop_le_start
    rw [atRuleOf]
    rw [ht]
    exact .of_children h ⟨d, hd, rfl⟩ (by simpa using children) hafter
  · have children := preludes_placed (atRuleName t) inner hlo inner.endsBy_stop
    have hafter : (Item.take endsPrelude rest).after.start = rest.next := by
      rw [ht]
      rfl
    rw [atRuleOf]
    rw [ht]
    by_cases he : (rest.cut endsPrelude).1.trim.tokens.isEmpty = true
    · simp only [he, ↓reduceIte, List.append_nil]
      refine .of_children h (stop_mem (s := ⟨t :: rest.tokens, rest.next⟩) (List.cons_ne_nil _ _))
        placedIn_nil ?_
      rw [hafter]
      exact h.stop_le_next
    · have hne : (rest.cut endsPrelude).1.trim.tokens ≠ [] := by simpa using he
      obtain ⟨last, hlast, heq⟩ := stop_mem hne
      simp only [he, Bool.false_eq_true, ↓reduceIte, List.append_nil] at children ⊢
      refine .of_children h ⟨last, (part.trans tail).subset hlast, heq⟩ children ?_
      rw [hafter]
      exact Nat.le_trans inner.stop_le_next (part.next_le lies)

end Items

/-! ### Lists of items -/

/-- An at-rule goes in front of the items that follow it. -/
theorem AtRulePlaced.cons {ts : List Token} {next : Nat} {n : Located} {ns : List Located}
    (h : AtRulePlaced source t ⟨ts, next⟩ n) (ends : EndsBy ⟨t :: ts, next⟩ hi)
    (rest : PlacedIn source (Item.take endsPrelude ⟨ts, next⟩).after.start hi ns) :
    PlacedIn source (Scope.start ⟨t :: ts, next⟩) hi (n :: ns) := by
  obtain ⟨l, hl, heq⟩ := h.last
  refine placedIn_cons.mpr ⟨Nat.le_of_eq h.start.symm, ?_, h.placed,
    rest.mono h.after (Nat.le_refl _)⟩
  rw [heq]
  exact ends l hl

/-- Something that spans the trimmed prelude of an item goes in front of the items after it. -/
theorem trimmed_placedIn {f : Token.Kind → Bool} {n : Located} {ns : List Located}
    (h : s.LiesIn source) (ends : s.EndsBy hi) (placed : Placed source n)
    (note : n.note = (Item.take f s).prelude.trim.span)
    (hne : (Item.take f s).prelude.trim.tokens ≠ [])
    (rest : PlacedIn source (Item.take f s).after.start hi ns) :
    PlacedIn source s.start hi (n :: ns) := by
  have part := (trim_isPart _).trans (item_prelude_isPart f s)
  have lies := part.liesIn h
  rw [placedIn_cons, note]
  refine ⟨part.start_le h, (part.endsBy ends).stop_le hne, placed, rest.mono ?_ (Nat.le_refl _)⟩
  exact Nat.le_trans lies.stop_le_next (Nat.le_trans
    ((trim_isPart _).next_le ((item_prelude_isPart f s).liesIn h)) (item_prelude_next_le f h))

/-- The first token of an item that is neither white space nor its end stands in its prelude. -/
theorem item_prelude_trim_ne_nil {f : Token.Kind → Bool} {ts : List Token} {next : Nat}
    (hf : f t.kind = false) (ht : t.kind.isTrivia = false) :
    (Item.take f ⟨t :: ts, next⟩).prelude.trim.tokens ≠ [] := by
  have hmem : t ∈ ((cut f ⟨t :: ts, next⟩).1).tokens := by
    rw [cut, Token.spanTop]
    simp [hf]
  intro hnil
  have := (trim_empty hnil).1 t (Item.take_prelude f ⟨t :: ts, next⟩ ▸ hmem)
  rw [ht] at this
  cases this

theorem looseItem_placed (h : s.LiesIn source) :
    Placed source (looseItem t s).value ∧ (looseItem t s).value.note = s.trim.span := by
  rw [looseItem]
  split
  · exact declaration_placed h
  · exact ⟨placed_raw ((trim_isPart s).liesIn h), rfl⟩

/-- Reading an at-rule answers with a placed node. -/
def AtRuleReads (source : String) (nested : Bool) (t : Token) (rest : Scope) : Prop :=
  LiesIn source ⟨t :: rest.tokens, rest.next⟩ →
    AtRulePlaced source t rest (atRule nested t rest).value

/-- Reading the items of a scope answers with nodes that are placed in it. -/
def ItemsRead (source : String) (read : Scope → Parsed (List Located)) (s : Scope) : Prop :=
  ∀ hi, s.LiesIn source → s.EndsBy hi → PlacedIn source s.start hi (read s).value

/-- An at-rule is placed if the items of its block are, however they are read. -/
theorem atRule_placed {nested : Bool} {rest : Scope}
    (items : ∀ b, (Item.take endsPrelude rest).ending = .block b →
      ItemsRead source (blockItems true) b.inner ∧
        ItemsRead source
          (ruleList false (BlockStyle.ofName nested (atRuleName t) = .keyframes) nested) b.inner) :
    AtRuleReads source nested t rest := by
  intro h
  have lies : rest.LiesIn source := isPart_tail.liesIn h
  obtain ⟨block, read, within⟩ := exists_atRuleOf nested t rest
  rw [read]
  refine atRuleOf_placed h fun b hb => ?_
  obtain ⟨cut, -, -⟩ := item_block lies hb
  obtain ⟨ofItems, ofRules⟩ := items b hb
  obtain ⟨_, rfl, rfl | rfl⟩ := within b hb
  · exact ⟨withBlock_placed cut (ofItems b.stop cut.inner cut.ends), rfl⟩
  · exact ⟨withBlock_placed cut (ofRules b.stop cut.inner cut.ends), rfl⟩

theorem items_placed_all : (∀ nested t rest, AtRuleReads source nested t rest) ∧
    (∀ top keyframes nested s, ItemsRead source (ruleList top keyframes nested) s) ∧
      ∀ nested s, ItemsRead source (blockItems nested) s := by
  refine items_induction ?atRule ?rulesEnd ?rulesSkip ?rulesAtRule ?rulesRule ?rulesRest ?itemsEnd
    ?itemsSkip ?itemsAtRule ?itemsDeclaration ?itemsRule ?itemsLoose
  case atRule =>
    intro nested t rest items
    exact atRule_placed items
  case rulesEnd =>
    intro top keyframes nested next hi h ends
    rw [ruleList_nil]
    exact placedIn_nil
  case rulesSkip =>
    intro top keyframes nested t ts next hk ih hi h ends
    have tail : IsPart ⟨ts, next⟩ ⟨t :: ts, next⟩ := isPart_tail
    rw [ruleList_skip hk]
    exact (ih hi (tail.liesIn h) (tail.endsBy ends)).mono (tail.start_le h) (Nat.le_refl _)
  case rulesAtRule =>
    intro top keyframes nested t ts next hk ha hat ih hi h ends
    have part := (item_after_isPart endsPrelude ⟨ts, next⟩).trans (isPart_tail (t := t))
    rw [ruleList_atRule hk ha, Parsed.cons_value]
    exact (hat h).cons ends (ih hi (part.liesIn h) (part.endsBy ends))
  case rulesRule =>
    intro top keyframes nested t ts next b hk ha hb items ih hi h ends
    have part := item_after_isPart (· = .leftCurly) ⟨t :: ts, next⟩
    obtain ⟨cut, -, -⟩ := item_block h hb
    rw [ruleList_rule hk ha hb, Parsed.cons_value]
    exact styleRule_placedIn _ _ h ends hb (items b.stop cut.inner cut.ends)
      (ih hi (part.liesIn h) (part.endsBy ends))
  case rulesRest =>
    intro top keyframes nested t ts next hk ha hno hi h ends
    have part := trim_isPart ⟨t :: ts, next⟩
    have hne : (trim ⟨t :: ts, next⟩).tokens ≠ [] := by
      intro hnil
      have := (trim_empty hnil).1 t List.mem_cons_self
      simp [this] at hk
    rw [ruleList_rest hk ha hno]
    exact placedIn_singleton (placed_raw (part.liesIn h)) (part.start_le h)
      ((part.endsBy ends).stop_le hne)
  case itemsEnd =>
    intro nested next hi h ends
    rw [blockItems_nil]
    exact placedIn_nil
  case itemsSkip =>
    intro nested t ts next hk ih hi h ends
    have tail : IsPart ⟨ts, next⟩ ⟨t :: ts, next⟩ := isPart_tail
    rw [blockItems_skip hk]
    exact (ih hi (tail.liesIn h) (tail.endsBy ends)).mono (tail.start_le h) (Nat.le_refl _)
  case itemsAtRule =>
    intro nested t ts next hk ha hat ih hi h ends
    have part := (item_after_isPart endsPrelude ⟨ts, next⟩).trans (isPart_tail (t := t))
    rw [blockItems_atRule hk ha, Parsed.cons_value]
    exact (hat h).cons ends (ih hi (part.liesIn h) (part.endsBy ends))
  case itemsDeclaration =>
    intro nested t ts next hk ha hd ih hi h ends
    have part := item_after_isPart (· = .semicolon) ⟨t :: ts, next⟩
    simp only [Bool.or_eq_true, not_or, Bool.not_eq_true, decide_eq_true_eq] at hk
    obtain ⟨placed, note⟩ :=
      declaration_placed ((item_prelude_isPart (· = .semicolon) _).liesIn h)
    rw [blockItems_declaration (by simp [hk]) ha hd, Parsed.cons_value]
    exact trimmed_placedIn h ends placed note
      (item_prelude_trim_ne_nil (by simpa using hk.2) hk.1)
      (ih hi (part.liesIn h) (part.endsBy ends))
  case itemsRule =>
    intro nested t ts next b hk ha hd hb items ih hi h ends
    have part := item_after_isPart endsPrelude ⟨t :: ts, next⟩
    obtain ⟨cut, -, -⟩ := item_block h hb
    rw [blockItems_rule hk ha hd hb, Parsed.cons_value]
    exact styleRule_placedIn _ _ h ends hb (items b.stop cut.inner cut.ends)
      (ih hi (part.liesIn h) (part.endsBy ends))
  case itemsLoose =>
    intro nested t ts next hk ha hd hno ih hi h ends
    have part := item_after_isPart endsPrelude ⟨t :: ts, next⟩
    simp only [Bool.or_eq_true, not_or, Bool.not_eq_true, decide_eq_true_eq] at hk
    obtain ⟨placed, note⟩ :=
      looseItem_placed (t := t) ((item_prelude_isPart endsPrelude _).liesIn h)
    rw [blockItems_loose (by simp [hk]) ha hd hno, Parsed.cons_value]
    have hcurly : t.kind ≠ .leftCurly := by
      intro hcurly
      refine hno (enter t ⟨ts, next⟩) ?_
      simp [Item.take, cut, Token.spanTop, endsPrelude, hcurly]
    exact trimmed_placedIn h ends placed note
      (item_prelude_trim_ne_nil (by simp [endsPrelude, hcurly, hk.2]) hk.1)
      (ih hi (part.liesIn h) (part.endsBy ends))

end Grammar

end Stylesheet
