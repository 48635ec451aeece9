import Stylesheet.Proofs.Declared.Node

/-!
# Important declarations

The flag of a declaration is looked for at the end of its value, backwards from the last token. So it
never stands in a block that is closed, since the token that closes the block would come after it. In
a block that the text leaves open it is found all the same.
-/

namespace Stylesheet

namespace Token

variable {ts us front gap back : List Token} {t bang word : Token} {i j k : Nat}

/-- The last two of some tokens that are neither white space nor comments are an exclamation mark, at
index `i`, and the word `important`, at index `j`. -/
structure Flagged (ts : List Token) (i j : Nat) : Prop where
  bang : ∃ t, ts[i]? = some t ∧ t.isDelim '!' = true
  word : ∃ t, ts[j]? = some t ∧ t.kind = .ident ∧ Text.sameName t.text "important" = true
  order : i < j
  rest : ∀ k t, ts[k]? = some t → i < k → k ≠ j → t.kind.isTrivia = true

/-- No block is around the token at an index. -/
def Outside (ts : List Token) (i : Nat) : Prop := level ts i = 0

/-- No block that is closed is around the token at an index. -/
def OutsideClosed (ts : List Token) (i : Nat) : Prop :=
  ∀ k t, k ≤ i → ts[k]? = some t → t.holds (i - k) = true → t.inside = none

/-- Some tokens are flagged by two of which something holds. -/
def IsFlagged (place : List Token → Nat → Prop) (ts : List Token) : Prop :=
  ∃ i j, Flagged ts i j ∧ place ts i ∧ place ts j

theorem getElem?_behind (front : List Token) (t : Token) (rest : List Token) (k : Nat) :
    (front ++ t :: rest)[front.length + (k + 1)]? = rest[k]? := by
  rw [List.getElem?_append_right (Nat.le_add_right ..), Nat.add_sub_cancel_left,
    List.getElem?_cons_succ]

theorem flagged_append (hb : bang.isDelim '!' = true) (ident : word.kind = .ident)
    (name : Text.sameName word.text "important" = true)
    (between : ∀ t ∈ gap, t.kind.isTrivia = true) (behind : ∀ t ∈ back, t.kind.isTrivia = true) :
    Flagged (front ++ bang :: (gap ++ word :: back)) front.length (front.length + (gap.length + 1)) where
  bang := ⟨bang, by simp, hb⟩
  word := ⟨word, by rw [getElem?_behind]; simp, ident, name⟩
  order := by omega
  rest := by
    intro k t found after other
    obtain ⟨k, rfl⟩ : ∃ m, k = front.length + (m + 1) := ⟨k - front.length - 1, by omega⟩
    rw [getElem?_behind] at found
    obtain before | ⟨m, rfl⟩ : k < gap.length ∨ ∃ m, k = gap.length + (m + 1) := by
      by_cases before : k < gap.length
      · exact .inl before
      · exact .inr ⟨k - gap.length - 1, by omega⟩
    · rw [List.getElem?_append_left before] at found
      exact between t (List.mem_of_getElem? found)
    · rw [getElem?_behind] at found
      exact behind t (List.mem_of_getElem? found)

/-- What flags some tokens is the end of them. -/
theorem Flagged.exists_append (h : Flagged ts i j) :
    ∃ front bang gap word back, ts = front ++ bang :: (gap ++ word :: back) ∧
      bang.isDelim '!' = true ∧ word.kind = .ident ∧
        Text.sameName word.text "important" = true ∧ (∀ t ∈ gap, t.kind.isTrivia = true) ∧
          ∀ t ∈ back, t.kind.isTrivia = true := by
  obtain ⟨bang, foundBang, hb⟩ := h.bang
  obtain ⟨word, foundWord, ident, name⟩ := h.word
  obtain ⟨front, rest, rfl, rfl⟩ := exists_split foundBang
  obtain ⟨m, rfl⟩ : ∃ m, j = front.length + (m + 1) :=
    ⟨j - front.length - 1, by have := h.order; omega⟩
  rw [getElem?_behind] at foundWord
  obtain ⟨gap, back, rfl, rfl⟩ := exists_split foundWord
  refine ⟨front, bang, gap, word, back, rfl, hb, ident, name, fun t ht => ?_, fun t ht => ?_⟩
  · obtain ⟨k, inside, rfl⟩ := List.getElem_of_mem ht
    refine h.rest (front.length + (k + 1)) _ ?_ (by omega) (by omega)
    rw [getElem?_behind, List.getElem?_append_left inside]
    exact List.getElem?_eq_getElem inside
  · obtain ⟨k, inside, rfl⟩ := List.getElem_of_mem ht
    refine h.rest (front.length + (gap.length + (k + 1) + 1)) _ ?_ (by omega) (by omega)
    rw [getElem?_behind, getElem?_behind]
    exact List.getElem?_eq_getElem inside

/-- No block that is closed is around the flag, since nothing that closes one is behind it. -/
theorem Flagged.outsideClosed (h : Flagged ts i j) (matched : Matched ts) (le : i ≤ k) :
    OutsideClosed ts k := by
  intro m t le' found held
  cases inside : t.inside with
  | none => rfl
  | some n =>
    have opens := opensBlock_of_holds held
    have late : k - m ≤ n := (holds_closed opens inside).mp held
    obtain ⟨closer, found', paired⟩ := matched.closer found opens inside
    obtain ⟨word, foundWord, ident, -⟩ := h.word
    by_cases same : m + 1 + n = j
    · rw [same, foundWord, Option.some.injEq] at found'
      rw [← found', ident] at paired
      cases hk : t.kind <;> rw [hk] at paired <;> cases paired
    · have trivia := h.rest _ closer found' (by omega) same
      rw [Kind.isTrivia_of_closing paired] at trivia
      cases trivia

/-- Where all blocks are closed, no block at all is around a token that is outside the closed ones. -/
theorem OutsideClosed.outside (outside : OutsideClosed ts i)
    (closed : ∀ t ∈ ts, t.kind.opensBlock = true → t.inside ≠ none) : Outside ts i := by
  rw [Outside]
  induction ts generalizing i with
  | nil => rfl
  | cons t ts ih =>
    obtain ⟨first, later⟩ := List.forall_mem_cons.mp closed
    have released : t.holds i = false := Bool.eq_false_iff.mpr fun held =>
      first (opensBlock_of_holds held) (outside 0 t (Nat.zero_le i) rfl held)
    cases i with
    | zero => rw [level, released, Bool.toNat_false]
    | succ i =>
      rw [level_cons, released, Bool.toNat_false, Nat.zero_add]
      refine ih (fun k u le found held => outside (k + 1) u (Nat.succ_le_succ le) found ?_) later
      rwa [Nat.add_sub_add_right]

end Token

namespace Grammar

open Token Scope

variable {ts us front gap back : List Token} {t bang word : Token} {v : Scope}

theorem significant_append_cons (solid : t.kind.isTrivia = false) :
    significant (ts ++ t :: us) = significant ts ++ t :: us := by
  induction ts with
  | nil => exact List.dropWhile_cons_of_neg (by rw [solid]; exact Bool.false_ne_true)
  | cons u ts ih =>
    rw [List.cons_append, significant, significant, List.dropWhile_cons, List.dropWhile_cons]
    split
    · exact ih
    · rfl

theorem significant_trivia (trivia : ∀ t ∈ ts, t.kind.isTrivia = true)
    (solid : t.kind.isTrivia = false) : significant (ts ++ t :: us) = t :: us := by
  rw [significant_append_cons solid, significant, List.dropWhile_eq_nil_iff.mpr trivia,
    List.nil_append]

/-- The flag is taken off a value if and only if its tokens are flagged. -/
theorem splitImportant_iff {next : Nat} :
    (splitImportant (trim ⟨ts, next⟩)).2 = true ↔ ∃ i j, Flagged ts i j := by
  constructor
  · intro flag
    obtain ⟨back, split, -, behind⟩ := trim_split ⟨ts, next⟩
    unfold splitImportant at flag
    split at flag
    · rename_i word before order
      split at flag
      · rename_i ident
        rw [Bool.and_eq_true, decide_eq_true_eq] at ident
        split at flag
        · rename_i bang front hb
          split at flag
          · rename_i delim
            have tokens : ts = ((ts.takeWhile fun t => t.kind.isTrivia) ++ front.reverse) ++
                bang :: ((before.takeWhile fun t => t.kind.isTrivia).reverse ++ word :: back) := by
              have between := significant_append before
              rw [hb] at between
              rw [← List.reverse_reverse (trim _).tokens, order, ← between] at split
              exact split.trans (by simp)
            refine ⟨_, _, tokens ▸ flagged_append delim ident.1 ident.2 (fun t ht => ?_) behind⟩
            exact (List.mem_takeWhile_imp (List.mem_reverse.mp ht) :)
          · cases flag
        · cases flag
      · cases flag
    · cases flag
  · rintro ⟨i, j, flagged⟩
    obtain ⟨front, bang, gap, word, back, rfl, delim, ident, name, between, behind⟩ :=
      flagged.exists_append
    have solid : bang.kind.isTrivia = false := by rw [kind_of_isDelim delim]; rfl
    have solid' : word.kind.isTrivia = false := by rw [ident]; rfl
    have order : (trim ⟨front ++ bang :: (gap ++ word :: back), next⟩).tokens.reverse =
        word :: (gap.reverse ++ bang :: (significant front).reverse) := by
      have turned : (significant (front ++ bang :: (gap ++ word :: back))).reverse =
          back.reverse ++ word :: (gap.reverse ++ bang :: (significant front).reverse) := by
        rw [significant_append_cons solid]
        simp
      rw [trim]
      dsimp only
      rw [turned, List.reverse_reverse]
      exact significant_trivia (fun t ht => behind t (List.mem_reverse.mp ht)) solid'
    have found : significant (gap.reverse ++ bang :: (significant front).reverse) =
        bang :: (significant front).reverse :=
      significant_trivia (fun t ht => between t (List.mem_reverse.mp ht)) solid
    rw [splitImportant, order]
    dsimp only
    rw [found, ident, name]
    dsimp only
    rw [delim]
    rfl

end Grammar

/-- The tokens of a value: those within the span of its declaration that are behind the colon. -/
def TokenList.valueWithin (list : TokenList) (span : Span) : List Token :=
  (list.fromColon span).tail

open Token

/-- What marks a declaration as important, wherever it stands in a text. -/
theorem Document.treeOf_important (text : String) (context : Context) {n : Node Mark}
    (hn : n ∈ (treeOf true context (tokenize text)).value.nodes) (kind : n.kind = .declaration) :
    ∃ span, n.note.span = some span ∧
      (n.detail.important = true ↔ IsFlagged OutsideClosed ((tokenize text).valueWithin span)) ∧
      ((∀ t ∈ (tokenize text).valueWithin span, t.kind.opensBlock = true → t.inside ≠ none) →
        (n.detail.important = true ↔ IsFlagged Outside ((tokenize text).valueWithin span))) := by
  obtain ⟨s, property, colon, after, declared⟩ := treeOf_declares text context hn kind
  have value : (tokenize text).valueWithin s.trim.span = after := by
    rw [TokenList.valueWithin, declared.fromColon, List.tail_cons]
  have matched : Matched after := by
    obtain ⟨gap, tokens, trivia⟩ := declared.declares.tokens
    have trimmed := Scope.matched_trim declared.piece.matched
    have separator := declared.declares.separator
    rw [tokens] at trimmed
    have behind := (trimmed.of_leaf (by rw [declared.declares.ident]; rfl)).significant
    rw [Grammar.significant_trivia trivia (by rw [separator]; rfl)] at behind
    exact behind.of_leaf (by rw [separator]; rfl)
  have important : n.detail.important = true ↔ ∃ i j, Flagged after i j := by
    rw [declared.detail]
    exact Grammar.splitImportant_iff
  have closed : n.detail.important = true ↔ IsFlagged OutsideClosed after := by
    rw [important]
    constructor
    · rintro ⟨i, j, flagged⟩
      exact ⟨i, j, flagged, flagged.outsideClosed matched (Nat.le_refl i),
        flagged.outsideClosed matched (Nat.le_of_lt flagged.order)⟩
    · rintro ⟨i, j, flagged, -, -⟩
      exact ⟨i, j, flagged⟩
  refine ⟨s.trim.span, declared.span, ?_⟩
  rw [value]
  refine ⟨closed, fun all => ⟨fun flag => ?_, ?_⟩⟩
  · obtain ⟨i, j, flagged, hi, hj⟩ := closed.mp flag
    exact ⟨i, j, flagged, hi.outside all, hj.outside all⟩
  · rintro ⟨i, j, flagged, -, -⟩
    exact important.mpr ⟨i, j, flagged⟩

/-- Read as any part of a style sheet, a text without limits always has a tree with spans, and
whatever it is read to with other options has the same shape. A declaration of it is important if and
only if the last two tokens of its value that are neither white space nor comments are an exclamation
mark and the word `important`, without a block around them that is closed. So there is no block around
them at all if all blocks of the value are closed. -/
theorem parseAs_important (text : String) (context : Context) (options : ParseOptions)
    (clock : Clock) :
    ∃ d, parseAs text context { options with captureSpans := true, budgets := {} } clock = .ok d ∧
      (∀ clock' d', parseAs text context options clock' = .ok d' ∨
          context = .stylesheet ∧ parse text options clock' = .ok d' → d'.root.SameShape d.root) ∧
      ∀ n ∈ d.root.nodes, n.kind = .declaration → ∃ span, n.note.span = some span ∧
        (n.detail.important = true ↔ IsFlagged OutsideClosed ((tokenize text).valueWithin span)) ∧
        ((∀ t ∈ (tokenize text).valueWithin span, t.kind.opensBlock = true → t.inside ≠ none) →
          (n.detail.important = true ↔ IsFlagged Outside ((tokenize text).valueWithin span))) := by
  obtain ⟨d, h⟩ := exists_parseAs text context { options with captureSpans := true } clock
  have root : d.root = (Document.treeOf true context (tokenize text)).value := parseAs_root h
  refine ⟨d, h, ?_, ?_⟩
  · have same (spans : Bool) : (Document.treeOf spans context (tokenize text)).value.SameShape
        (Document.treeOf true context (tokenize text)).value :=
      (Document.treeOf_sameShape spans context _).trans
        (Document.treeOf_sameShape true context _).symm
    rintro clock' d' (h' | ⟨rfl, h'⟩)
    · rw [root, parseAs_root h']
      exact same _
    · rw [root, parse_root h']
      exact same _
  · rw [root]
    exact fun n => Document.treeOf_important text context

/-- A block in front of the flag is closed, and a comment stands in the middle of it. -/
theorem parseAs_important_spaced :
    ∃ d, parseAs "a \x7b b: (c) !/**/Important ; d: [e \x7d" .stylesheet
        { captureSpans := true } = .ok d ∧
      ∃ n ∈ d.root.nodes, n.kind = .declaration ∧ n.detail.important = true ∧
        ∃ span, n.note.span = some span ∧ IsFlagged Outside
          ((tokenize "a \x7b b: (c) !/**/Important ; d: [e \x7d").valueWithin span) := by
  obtain ⟨d, read, -, flags⟩ :=
    parseAs_important "a \x7b b: (c) !/**/Important ; d: [e \x7d" .stylesheet {} {}
  have root : d.root = (Document.treeOf true .stylesheet
      (tokenize "a \x7b b: (c) !/**/Important ; d: [e \x7d")).value :=
    parseAs_root read
  obtain ⟨n, hn, kind, place, flag⟩ : ∃ n ∈ d.root.nodes, n.kind = .declaration ∧
      n.note.span = some ⟨4, 25⟩ ∧ n.detail.important = true := by
    rw [root]
    decide +kernel
  obtain ⟨span, note, -, closed⟩ := flags n hn kind
  obtain rfl : span = ⟨4, 25⟩ := Option.some.inj (note.symm.trans place)
  exact ⟨d, read, n, hn, kind, flag, _, note, (closed (by decide +kernel)).mp flag⟩

/-- In a block that the text leaves open the flag is taken for that of the declaration. -/
theorem parseAs_important_open :
    ∃ d, parseAs "b:(c !important" .declarationList { captureSpans := true } = .ok d ∧
      ∃ n ∈ d.root.nodes, n.kind = .declaration ∧ ∃ span, n.note.span = some span ∧
        ¬(n.detail.important = true ↔
          IsFlagged Outside ((tokenize "b:(c !important").valueWithin span)) := by
  obtain ⟨d, read⟩ := exists_parseAs "b:(c !important" .declarationList { captureSpans := true } {}
  have root : d.root = (Document.treeOf true .declarationList (tokenize "b:(c !important")).value :=
    parseAs_root read
  obtain ⟨n, hn, kind, place, flag⟩ : ∃ n ∈ d.root.nodes, n.kind = .declaration ∧
      n.note.span = some ⟨0, 15⟩ ∧ n.detail.important = true := by
    rw [root]
    decide +kernel
  refine ⟨d, read, n, hn, kind, _, place, fun same => ?_⟩
  obtain ⟨i, j, flagged, -, outside⟩ := same.mp flag
  obtain ⟨t, found, -, name⟩ := flagged.word
  have inside : ∀ p ∈ ((tokenize "b:(c !important").valueWithin ⟨0, 15⟩).zipIdx,
      Text.sameName p.1.text "important" = true →
        level ((tokenize "b:(c !important").valueWithin ⟨0, 15⟩) p.2 ≠ 0 := by
    decide +kernel
  exact inside (t, j) (List.mem_zipIdx_iff_getElem?.mpr found) name outside

end Stylesheet
