import Stylesheet.Proofs.Removal.Scope

/-!
# Rules and declarations taken out

Lists of rules and lists of block items are read item by item, and every item is settled by its own
tokens. So each rule and each declaration can be taken out, however deep it stands.
-/

namespace Stylesheet.Grammar

open Located Token Node

variable {read : Reader} {s : Scope} {n : Located} {ns : List (Node Unit)} {p : Parsed Located}
variable {front inner after ts us : List Token} {t d opener closer : Token} {next m : Nat}
variable {top keyframes nested : Bool} {stop : Kind → Bool}

theorem lists_ruleList (top keyframes nested : Bool) : Lists (ruleList top keyframes nested) where
  nil _ := ruleList_nil
  skip t ts next trivia := ruleList_skip (by rw [trivia]; rfl)
  shift _ s := items_shift_all.2.1 top keyframes nested s

theorem lists_blockItems (nested : Bool) : Lists (blockItems nested) where
  nil _ := blockItems_nil
  skip t ts next trivia := blockItems_skip (by rw [trivia]; rfl)
  shift _ s := items_shift_all.2.2 nested s

/-! ### Declarations -/

/-- Trimming leaves out white space and comments at the end. -/
theorem trim_eq_append (solid : ∀ t ∈ front.head?, t.kind.isTrivia = false) (m : Nat) :
    ∃ trail, front = (Scope.trim ⟨front, m⟩).tokens ++ trail ∧ ∀ t ∈ trail, t.kind.isTrivia = true := by
  obtain ⟨trail, tokens, -, trivia⟩ := Scope.trim_split_solid (s := ⟨front, m⟩) solid
  exact ⟨trail, tokens, trivia⟩

theorem trim_ne_nil (ne : front ≠ []) (solid : ∀ t ∈ front.head?, t.kind.isTrivia = false) (m : Nat) :
    (Scope.trim ⟨front, m⟩).tokens ≠ [] := by
  obtain ⟨t, ts, rfl⟩ := List.exists_cons_of_ne_nil ne
  obtain ⟨trail, split, trivia⟩ := trim_eq_append solid m
  intro nothing
  rw [nothing, List.nil_append] at split
  have solid := solid t rfl
  rw [trivia t (split ▸ List.mem_cons_self)] at solid
  cases solid

theorem Lists.skip_all (lists : Lists read) (trivia : ∀ t ∈ ts, t.kind.isTrivia = true) :
    read ⟨ts ++ us, next⟩ = read ⟨us, next⟩ := by
  induction ts with
  | nil => rfl
  | cons t ts ih =>
    obtain ⟨first, later⟩ := List.forall_mem_cons.mp trivia
    rw [List.cons_append, lists.skip t _ next first, ih later]

/-- The tokens stand in front of white space, comments and what follows the item. -/
theorem Loses.trimmed (lists : Lists read) (closed : Closed front) (ne : front ≠ [])
    (solid : ∀ t ∈ front.head?, t.kind.isTrivia = false) (fills : Fills (front ++ us) next)
    (note : n.note = (Scope.trim ⟨front, m⟩).span) (reads : Reads read ⟨us, next⟩ ns) :
    Loses read ⟨front ++ us, next⟩ n ns := by
  obtain ⟨trail, split, trivia⟩ := trim_eq_append solid m
  have whole : front ++ us = (Scope.trim ⟨front, m⟩).tokens ++ (trail ++ us) := by
    rw [← List.append_assoc, ← split]
  have closed' : Closed (Scope.trim ⟨front, m⟩).tokens := Scope.closed_trim closed
  have ne' := trim_ne_nil ne solid m
  rw [whole] at fills ⊢
  refine .here lists ne' closed' fills note ?_
  rw [Reads, lists.skip_all trivia]
  exact reads

/-- An item that ends with a semicolon and knows the place of its trimmed tokens. -/
theorem Drops.ended (lists : Lists read) (skip : ∀ us next, read ⟨d :: us, next⟩ = read ⟨us, next⟩)
    (semicolon : d.kind = .semicolon) (closed : Closed front) (ne : front ≠ [])
    (solid : ∀ t ∈ front.head?, t.kind.isTrivia = false)
    (leads : ∀ us next, read ⟨front ++ d :: us, next⟩ = p.cons (read ⟨us, next⟩))
    (note : p.value.note = (Scope.trim ⟨front, m⟩).span)
    (plain : ∀ c ∈ p.value.children, ∀ m ∈ c.nodes, m.kind.isStructural = false)
    (rest : Closed after) (h : Drops read ⟨after, next⟩) :
    Drops read ⟨front ++ d :: after, next⟩ := by
  have split (us : List Token) : front ++ d :: us = (front ++ [d]) ++ us := List.append_cons front d us
  have simple : d.kind.opensBlock = false := by rw [semicolon]; rfl
  rw [split]
  refine .item (p := p) ?_ ?_ ?_ ?_ plain ?_ rest h
  · intro us next
    rw [← split]
    exact leads us next
  · exact List.append_ne_nil_of_left_ne_nil ne [d]
  · exact closed.append (.leaf simple .nil)
  · rw [List.getLast?_concat]
    rintro _ ⟨⟩
    rw [semicolon]
    rfl
  · intro ns fills none _ reads
    rw [← split] at fills ⊢
    refine .trimmed lists closed ne solid fills note ?_
    rw [Reads, skip]
    exact reads

/-- The last item of its scope, without an end of its own. -/
theorem Drops.last (lists : Lists read) (closed : Closed front) (ne : front ≠ [])
    (solid : ∀ t ∈ front.head?, t.kind.isTrivia = false)
    (whole : read ⟨front, next⟩ = p.cons ⟨[], []⟩)
    (note : p.value.note = (Scope.trim ⟨front, m⟩).span)
    (plain : ∀ c ∈ p.value.children, ∀ m ∈ c.nodes, m.kind.isStructural = false) :
    Drops read ⟨front, next⟩ := by
  intro _ fills none n ms hn deletes
  rw [whole] at deletes
  cases deletes with
  | here =>
    rw [← List.append_nil front] at fills ⊢
    refine .trimmed lists closed ne solid fills note ?_
    rw [Reads, lists.nil]
    exact ⟨rfl, rfl⟩
  | inside content => exact absurd content (not_deletes_plain hn plain)
  | later h => cases h

theorem declaration_note (s : Scope) : (declaration s).value.note = s.trim.span := by
  unfold declaration
  dsimp only
  generalize s.trim = s
  split
  · rfl
  · split
    · rfl
    · split
      · rfl
      · split <;> rfl

theorem looseItem_note (t : Token) (s : Scope) : (looseItem t s).value.note = s.trim.span := by
  unfold looseItem
  split
  · exact declaration_note s
  · rfl

theorem plain_inside_declaration {n : Located}
    (h : (n.kind = .declaration ∨ n.kind = .raw) ∧ n.RegularTree) :
    ∀ c ∈ n.children, ∀ m ∈ c.nodes, m.kind.isStructural = false :=
  h.2.plain_inside (h.1.imp_right fun hk => by rw [hk]; rfl)

/-! ### Items -/

/-- The item that starts with a token is a declaration. -/
def declares (t : Token) (rest : Scope) : Bool := t.kind = .ident && startsDeclaration t rest

theorem declares_end {e e' : Token} {us us' : List Token} {next next' : Nat}
    (closed : Closed (t :: front)) (ends : endsPrelude e.kind = true) (kind : e'.kind = e.kind) :
    declares t ⟨front ++ e' :: us', next'⟩ = declares t ⟨front ++ e :: us, next⟩ := by
  by_cases ident : t.kind = .ident
  · have plain : t.kind.opensBlock = false := by rw [ident]; rfl
    rw [declares, declares, startsDeclaration_end (closed.of_leaf plain) ends kind]
  · simp [declares, ident]

/-- What the first token of an item says about it does not depend on what stands behind the first
semicolon or curly bracket. -/
theorem exists_head {e e' : Token} (us' : List Token) (h : front ++ e :: us = t :: ts)
    (closed : Closed front) (ends : endsPrelude e.kind = true) (kind : e'.kind = e.kind)
    (start : e'.start = e.start) :
    ∃ t' ts', front ++ e' :: us' = t' :: ts' ∧ t'.kind = t.kind ∧ t'.start = t.start ∧
      ∀ next next', declares t' ⟨ts', next'⟩ = declares t ⟨ts, next⟩ := by
  cases front with
  | nil =>
    obtain ⟨rfl, rfl⟩ := List.cons.inj h
    refine ⟨e', us', rfl, kind, start, fun next next' => ?_⟩
    have other : e.kind ≠ .ident := by
      intro ident
      rw [ident] at ends
      cases ends
    simp [declares, kind, other]
  | cons u front =>
    obtain ⟨rfl, rfl⟩ := List.cons.inj h
    refine ⟨u, front ++ e' :: us', rfl, rfl, rfl, fun next next' => ?_⟩
    exact declares_end closed ends kind

theorem startOf_front {e : Token} {us : List Token} (h : front ++ e :: us = t :: ts) :
    startOf front e.start = t.start := by
  have whole := startOf_append front (e :: us) 0
  rw [h] at whole
  exact whole.symm

theorem plain_rulePrelude (keyframes : Bool) (limit : Nat) (s : Scope) :
    ∀ c ∈ ((rulePrelude keyframes limit s).map fun n => [n]).value, ∀ m ∈ c.nodes,
      m.kind.isStructural = false := by
  obtain ⟨kind, regular⟩ := rulePrelude_regular keyframes limit s
  refine List.forall_mem_singleton.mpr (plain_nodes _ regular ?_)
  obtain kind | kind := kind <;> rw [kind] <;> rfl

/-- The items of a rule's block stand in the rule's own tokens. -/
theorem encloses_ruleList (passes : Passes (· = .leftCurly) front) (closed : Closed front)
    (curly : opener.kind = .leftCurly) (h : front ++ opener :: us = t :: ts)
    (hk : ¬(t.kind.isTrivia || (top && (t.kind = .cdo || t.kind = .cdc))) = true)
    (ha : t.kind ≠ .atKeyword) :
    Encloses (ruleList top keyframes nested) (blockItems true) front opener.start .rule .none
      ((rulePrelude keyframes 0 ⟨front, opener.start⟩).map fun n => [n]) where
  closed := closed
  sort := .inl rfl
  plain := plain_rulePrelude keyframes 0 ⟨front, opener.start⟩
  reads := by
    intro opener' inner closer us' next curly' start inside closes
    have kind : opener'.kind = opener.kind := curly'.trans curly.symm
    obtain ⟨t', ts', h', kind', start', -⟩ :=
      exists_head (inner ++ closer :: us') h closed (by rw [curly]; rfl) kind start
    have took : Item.take (· = .leftCurly) ⟨front ++ opener' :: (inner ++ closer :: us'), next⟩ = _ :=
      Item.take_closed passes (by rw [curly']; rfl) curly' inside
    have same : rulePrelude keyframes (Scope.stop ⟨t' :: ts', next⟩) ⟨front, opener'.start⟩ =
        rulePrelude keyframes 0 ⟨front, opener.start⟩ := by
      rw [start, rulePrelude_closed closed]
    rw [h'] at took ⊢
    rw [ruleList_rule (by rw [kind']; exact hk) (by rw [kind']; exact ha)
      (congrArg Item.ending took), took, same, start', startOf_front h]
    rfl

theorem encloses_blockItems (passes : Passes endsPrelude front) (closed : Closed front)
    (curly : opener.kind = .leftCurly) (h : front ++ opener :: us = t :: ts)
    (hk : ¬(t.kind.isTrivia || t.kind = .semicolon) = true) (ha : t.kind ≠ .atKeyword)
    (hd : ¬declares t ⟨ts, m⟩ = true) :
    Encloses (blockItems nested) (blockItems true) front opener.start .rule .none
      ((rulePrelude false 0 ⟨front, opener.start⟩).map fun n => [n]) where
  closed := closed
  sort := .inl rfl
  plain := plain_rulePrelude false 0 ⟨front, opener.start⟩
  reads := by
    intro opener' inner closer us' next curly' start inside closes
    have kind : opener'.kind = opener.kind := curly'.trans curly.symm
    obtain ⟨t', ts', h', kind', start', same⟩ :=
      exists_head (inner ++ closer :: us') h closed (by rw [curly]; rfl) kind start
    have took : Item.take endsPrelude ⟨front ++ opener' :: (inner ++ closer :: us'), next⟩ = _ :=
      Item.take_closed passes (by rw [curly']; rfl) curly' inside
    have prelude : rulePrelude false (Scope.stop ⟨t' :: ts', next⟩) ⟨front, opener'.start⟩ =
        rulePrelude false 0 ⟨front, opener.start⟩ := by
      rw [start, rulePrelude_closed closed]
    rw [h'] at took ⊢
    rw [blockItems_rule (by rw [kind']; exact hk) (by rw [kind']; exact ha)
      (by rw [← declares, same m next]; exact hd) (congrArg Item.ending took), took, prelude,
      start', startOf_front h]
    rfl

/-- What the block of an at-rule is read as. -/
def atRuleItems (nested : Bool) (t : Token) : Reader := fun s =>
  if BlockStyle.ofName nested (atRuleName t) = .declarations then blockItems true s
  else ruleList false (BlockStyle.ofName nested (atRuleName t) = .keyframes) nested s

theorem plain_preludeNodes (name : String) (s : Scope) :
    ∀ c ∈ (preludeNodes name s).value, ∀ m ∈ c.nodes, m.kind.isStructural = false := by
  obtain ⟨-, preludes⟩ := preludeNodes_regular name s
  intro c hc
  obtain ⟨kind, regular⟩ := preludes c hc
  exact plain_nodes c regular (by rw [kind]; rfl)

/-- The scope is a list whose at-rules are read like this one. -/
def ReadsAtRule (read : Reader) (nested : Bool) (t : Token) : Prop :=
  ∀ ts next, read ⟨t :: ts, next⟩ =
    (atRule nested t ⟨ts, next⟩).cons (read (Item.take endsPrelude ⟨ts, next⟩).after)

theorem encloses_atRule (step : ReadsAtRule read nested t) (ha : t.kind = .atKeyword)
    (passes : Passes endsPrelude front) (closed : Closed front) :
    Encloses read (atRuleItems nested t) (t :: front) opener.start .atrule (.name (atRuleName t))
      (preludeNodes (atRuleName t) (Scope.trim ⟨front, opener.start⟩)) where
  closed := .leaf (by rw [ha]; rfl) closed
  sort := .inr rfl
  plain := plain_preludeNodes _ _
  reads := by
    intro opener' inner closer us next curly start inside closes
    have took : Item.take endsPrelude ⟨front ++ opener' :: (inner ++ closer :: us), next⟩ = _ :=
      Item.take_closed passes (by rw [curly]; rfl) curly inside
    rw [List.cons_append, step, atRule_block (congrArg Item.ending took), took, start]
    rfl

/-- At-rules end with a semicolon or a block, and what is in their blocks can be taken out. -/
theorem Drops.atRule (lists : Lists read) (step : ReadsAtRule read nested t)
    (ha : t.kind = .atKeyword)
    (items : ∀ b, (Item.take endsPrelude ⟨ts, next⟩).ending = .block b →
      Drops (atRuleItems nested t) b.inner)
    (h : Drops read (Item.take endsPrelude ⟨ts, next⟩).after) : Drops read ⟨t :: ts, next⟩ := by
  intro closed fills none
  have simple : t.kind.opensBlock = false := by rw [ha]; rfl
  cases Item.view (fun _ ends => ends) (closed.of_leaf simple) with
  | missing passes =>
    rw [step, atRule_unblocked (by rw [Item.take_missing passes]; rintro _ ⟨⟩),
      Item.take_missing passes, atRuleOf_missing] at none
    cases (List.append_eq_nil_iff.mp (List.append_eq_nil_iff.mp none).1).2
  | @semicolon front after d split passes closed' found semicolon rest =>
    subst split
    rw [Item.take_semicolon passes found semicolon] at h
    have own (us : List Token) : t :: (front ++ d :: us) = (t :: (front ++ [d])) ++ us := by
      rw [List.append_cons]
      rfl
    have leads (us : List Token) (next : Nat) : read ⟨(t :: (front ++ [d])) ++ us, next⟩ =
        (atRuleOf t ⟨[], 0⟩ ⟨⟨front, d.start⟩, .semicolon d, ⟨[], 0⟩⟩ ⟨raw ⟨[], 0⟩, []⟩).cons
          (read ⟨us, next⟩) := by
      rw [← own, step, atRule_unblocked (by
        rw [Item.take_semicolon passes found semicolon]; rintro _ ⟨⟩),
        Item.take_semicolon passes found semicolon]
      rfl
    rw [own] at closed fills none ⊢
    refine Drops.item leads (List.cons_ne_nil t _) ?_ ?_ (fun c hc => ?_) ?_ rest h closed fills none
    · exact .leaf simple (closed'.append (.leaf (by rw [semicolon]; rfl) .nil))
    · rw [← List.cons_append, List.getLast?_concat]
      rintro _ ⟨⟩
      rw [semicolon]
      rfl
    · exact plain_preludeNodes _ _ c ((List.mem_append.mp hc).resolve_right List.not_mem_nil)
    · rintro _ _ _ (hn | hn) <;> cases hn
  | block split passes closed' found curly closes inside content rest =>
    subst split
    rw [Item.take_closed passes found curly inside] at h items
    exact Drops.enclosed lists (encloses_atRule step ha passes closed') curly inside closes content
      rest (items _ rfl) h closed fills none

/-! ### Every item -/

theorem Drops.of_closed (h : Closed s.tokens → Drops read s) : Drops read s :=
  fun closed => h closed closed

theorem separates_skipped
    (h : (t.kind.isTrivia || (top && (t.kind = .cdo || t.kind = .cdc))) = true) :
    t.kind.separates = true := by
  obtain trivia | ⟨-, mark⟩ := (Bool.or_eq_true ..).mp h |>.imp_right Bool.and_eq_true_iff.mp
  · rw [Kind.separates, trivia]
    rfl
  · rw [Kind.separates, Bool.or_assoc, mark, Bool.or_true]

/-- An item of a block begins with a token that is not skipped, so it does not end there. -/
theorem exists_front (h : t :: ts = front ++ d :: us) (semicolon : d.kind = .semicolon)
    (hk : ¬(t.kind.isTrivia || t.kind = .semicolon) = true) :
    ∃ f, front = t :: f ∧ ts = f ++ d :: us := by
  cases front with
  | nil =>
    obtain ⟨rfl, rfl⟩ := List.cons.inj h
    exact absurd (by rw [semicolon]; rfl) hk
  | cons u f =>
    obtain ⟨rfl, rfl⟩ := List.cons.inj h
    exact ⟨f, rfl, rfl⟩

theorem solid_first (hk : ¬(t.kind.isTrivia || t.kind = .semicolon) = true) :
    ∀ u ∈ (t :: ts).head?, u.kind.isTrivia = false := by
  rintro _ ⟨⟩
  rw [Bool.not_eq_true, Bool.or_eq_false_iff] at hk
  exact hk.1

/-- A rule of a list can be taken out, and so can whatever its block holds that can be taken out
there. -/
theorem Drops.ruled {b : Block} (lists : Lists read)
    (only : ∀ k, stop k = true → endsPrelude k = true) (hb : (Item.take stop s).ending = .block b)
    (encloses : ∀ front opener us, Passes stop front → Closed front → opener.kind = .leftCurly →
      front ++ opener :: us = s.tokens →
        Encloses read (blockItems true) front opener.start .rule .none
          ((rulePrelude keyframes 0 ⟨front, opener.start⟩).map fun n => [n]))
    (inside : Drops (blockItems true) b.inner) (h : Drops read (Item.take stop s).after) :
    Drops read s := by
  obtain ⟨ts, next⟩ := s
  refine .of_closed fun closed => ?_
  cases Item.view only closed with
  | missing passes =>
    rw [Item.take_missing passes] at hb
    cases hb
  | semicolon split passes _ found semicolon _ =>
    dsimp only at split
    rw [split, Item.take_semicolon passes found semicolon] at hb
    cases hb
  | @block front inner after opener closer split passes closed' found curly closes paired content
      rest =>
    dsimp only at split
    rw [split, Item.take_closed passes found curly paired] at hb h
    rw [split]
    cases hb
    exact .enclosed lists (encloses front opener _ passes closed' curly split.symm) curly paired
      closes content rest inside h

/-- An item without a block can be taken out of the block it stands in if it is read as its own
tokens up to a semicolon or to the end, whatever follows them. -/
theorem Drops.loose {item : Scope → Parsed Located}
    (only : ∀ k, stop k = true → endsPrelude k = true)
    (hk : ¬(t.kind.isTrivia || t.kind = .semicolon) = true)
    (hb : ∀ b, (Item.take stop ⟨t :: ts, next⟩).ending ≠ .block b)
    (step : blockItems nested ⟨t :: ts, next⟩ =
      (item (Item.take stop ⟨t :: ts, next⟩).prelude).cons
        (blockItems nested (Item.take stop ⟨t :: ts, next⟩).after))
    (again : ∀ f d us, ts = f ++ d :: us → Passes stop (t :: f) → Closed (t :: f) →
      stop d.kind = true → d.kind = .semicolon → ∀ us' next',
        blockItems nested ⟨t :: f ++ d :: us', next'⟩ =
          (item ⟨t :: f, d.start⟩).cons (blockItems nested ⟨us', next'⟩))
    (note : ∀ s, (item s).value.note = s.trim.span)
    (regular : ∀ s, ((item s).value.kind = .declaration ∨ (item s).value.kind = .raw) ∧
      (item s).value.RegularTree)
    (h : Drops (blockItems nested) (Item.take stop ⟨t :: ts, next⟩).after) :
    Drops (blockItems nested) ⟨t :: ts, next⟩ := by
  refine .of_closed fun closed => ?_
  have plain (s : Scope) := plain_inside_declaration (regular s)
  cases Item.view only closed with
  | missing passes =>
    refine .last (lists_blockItems nested) closed (List.cons_ne_nil t ts) (solid_first hk) ?_
      (note ⟨t :: ts, next⟩) (plain _)
    rw [step, Item.take_missing passes]
    dsimp only
    rw [blockItems_nil]
  | @semicolon front after d split passes closed' found semicolon rest =>
    dsimp only at split
    obtain ⟨f, rfl, rfl⟩ := exists_front split semicolon hk
    rw [split, Item.take_semicolon passes found semicolon] at h
    rw [split]
    exact .ended (lists_blockItems nested)
      (fun us next => blockItems_skip (by rw [semicolon]; rfl)) semicolon closed'
      (List.cons_ne_nil t f) (solid_first hk) (again f d after rfl passes closed' found semicolon)
      (note ⟨t :: f, d.start⟩) (plain _) rest h
  | block split passes _ found curly _ paired _ _ =>
    dsimp only at split
    rw [split, Item.take_closed passes found curly paired] at hb
    exact absurd rfl (hb _)

/-- Whatever is read without errors as a list of rules or of block items, each rule and each
declaration in it can be taken out. -/
theorem items_drop_all :
    (∀ nested t rest, ∀ b, (Item.take endsPrelude rest).ending = .block b →
      Drops (atRuleItems nested t) b.inner) ∧
      (∀ top keyframes nested s, Drops (ruleList top keyframes nested) s) ∧
        ∀ nested s, Drops (blockItems nested) s := by
  refine items_induction ?atRule ?rulesEnd ?rulesSkip ?rulesAtRule ?rulesRule ?rulesRest ?itemsEnd
    ?itemsSkip ?itemsAtRule ?itemsDeclaration ?itemsRule ?itemsLoose
  case atRule =>
    intro nested t rest inside b hb
    obtain ⟨ofItems, ofRules⟩ := inside b hb
    by_cases style : BlockStyle.ofName nested (atRuleName t) = .declarations
    · have reader : atRuleItems nested t = blockItems true := funext fun s => if_pos style
      rw [reader]
      exact ofItems
    · have reader : atRuleItems nested t = ruleList false _ nested := funext fun s => if_neg style
      rw [reader]
      exact ofRules
  case rulesEnd =>
    intro top keyframes nested next
    exact .end (lists_ruleList top keyframes nested)
  case rulesSkip =>
    intro top keyframes nested t ts next hk ih
    refine .skip (lists_ruleList top keyframes nested) (fun us next => ruleList_skip hk) (.inl ?_) ih
    exact separates_skipped hk
  case rulesAtRule =>
    intro top keyframes nested t ts next hk ha hat ih
    exact .atRule (lists_ruleList top keyframes nested) (fun ts next => ruleList_atRule hk ha) ha hat ih
  case rulesRule =>
    intro top keyframes nested t ts next b hk ha hb inside ih
    exact .ruled (lists_ruleList top keyframes nested) curly_ends hb
      (fun front opener us passes closed curly split =>
        encloses_ruleList passes closed curly split hk ha) inside ih
  case rulesRest =>
    intro top keyframes nested t ts next hk ha hno _ _ none
    rw [ruleList_rest hk ha hno] at none
    cases none
  case itemsEnd =>
    intro nested next
    exact .end (lists_blockItems nested)
  case itemsSkip =>
    intro nested t ts next hk ih
    refine .skip (lists_blockItems nested) (fun us next => blockItems_skip hk) ?_ ih
    obtain trivia | semicolon := (Bool.or_eq_true ..).mp hk
    · exact .inl (by rw [Kind.separates, trivia]; rfl)
    · exact .inr (of_decide_eq_true semicolon)
  case itemsAtRule =>
    intro nested t ts next hk ha hat ih
    exact .atRule (lists_blockItems nested) (fun ts next => blockItems_atRule hk ha) ha hat ih
  case itemsDeclaration =>
    intro nested t ts next hk ha hd ih
    refine .loose semicolon_ends hk Item.take_semicolon_ne_block (blockItems_declaration hk ha hd) ?_
      declaration_note declaration_regular ih
    rintro f d us rfl passes closed found semicolon us' next'
    have took : Item.take (· = .semicolon) ⟨t :: (f ++ d :: us'), next'⟩ = _ :=
      Item.take_semicolon passes found semicolon
    rw [List.cons_append, blockItems_declaration hk ha, took]
    exact (declares_end closed (by rw [semicolon]; rfl) rfl).trans hd
  case itemsRule =>
    intro nested t ts next b hk ha hd hb inside ih
    exact .ruled (lists_blockItems nested) (fun _ ends => ends) hb
      (fun front opener us passes closed curly split =>
        encloses_blockItems passes closed curly split hk ha hd) inside ih
  case itemsLoose =>
    intro nested t ts next hk ha hd hno ih
    refine .loose (fun _ ends => ends) hk hno (blockItems_loose hk ha hd hno) ?_ (looseItem_note t)
      (looseItem_regular t) ih
    rintro f d us rfl passes closed found semicolon us' next'
    have took : Item.take endsPrelude ⟨t :: (f ++ d :: us'), next'⟩ = _ :=
      Item.take_semicolon passes found semicolon
    rw [List.cons_append, blockItems_loose hk ha ?_ (by rw [took]; rintro _ ⟨⟩), took]
    intro starts
    exact hd ((declares_end closed found rfl).symm.trans starts)

end Stylesheet.Grammar
