import Stylesheet.Grammar.Scope
import Stylesheet.Proofs.Text

/-!
# Runs of tokens

Tokens that stand in a text one after the other form a run. Where nothing is left out, each token
starts where the one before it stops; text is left out after openers only.

A part of a scope holds adjacent tokens of it and ends where its next token starts. Everything that
the grammar cuts out of a scope is a part of it, so whatever holds of all parts of a run has to be
proved only once.
-/

namespace Stylesheet

namespace Token

/-- Where the text after a token goes on, past what is left out. -/
def reach (t : Token) : Nat := t.stop + t.omitted.utf8ByteSize

theorem start_le_stop (t : Token) : t.start ≤ t.stop := Nat.le_add_right _ _

theorem stop_le_reach (t : Token) : t.stop ≤ t.reach := Nat.le_add_right _ _

/-- Tokens that stand in a text one after the other between two offsets. -/
inductive Run (source : String) : Nat → List Token → Nat → Prop
  | nil {n : Nat} (edge : (⟨n⟩ : String.Pos.Raw).IsValid source) : Run source n [] n
  | cons {t : Token} {ts : List Token} {n : Nat}
      (stands : Text.Stands source t.start (t.text.toList ++ t.omitted.toList))
      (gap : t.omitted ≠ "" → t.kind.opensBlock = true)
      (rest : Run source t.reach ts n) : Run source t.start (t :: ts) n

variable {source : String} {a b : Nat} {t : Token} {ts us : List Token}

namespace Run

theorem cons_iff : Run source a (t :: ts) b ↔
    a = t.start ∧ Text.Stands source t.start (t.text.toList ++ t.omitted.toList) ∧
      (t.omitted ≠ "" → t.kind.opensBlock = true) ∧ Run source t.reach ts b := by
  constructor
  · intro h
    cases h with
    | cons stands gap rest => exact ⟨rfl, stands, gap, rest⟩
  · rintro ⟨rfl, stands, gap, rest⟩
    exact .cons stands gap rest

theorem edge_left (h : Run source a ts b) : (⟨a⟩ : String.Pos.Raw).IsValid source := by
  cases h with
  | nil edge => exact edge
  | cons stands _ _ => exact stands.isValid

theorem edge_right (h : Run source a ts b) : (⟨b⟩ : String.Pos.Raw).IsValid source := by
  induction h with
  | nil edge => exact edge
  | cons _ _ _ ih => exact ih

theorem le (h : Run source a ts b) : a ≤ b := by
  induction h with
  | nil => exact Nat.le_refl _
  | @cons t _ _ _ _ _ ih =>
    have := t.start_le_stop
    have := t.stop_le_reach
    omega

theorem append_iff : Run source a (ts ++ us) b ↔ ∃ m, Run source a ts m ∧ Run source m us b := by
  constructor
  · intro h
    induction ts generalizing a with
    | nil => exact ⟨a, .nil h.edge_left, h⟩
    | cons t ts ih =>
      obtain ⟨rfl, stands, gap, rest⟩ := cons_iff.mp h
      obtain ⟨m, left, right⟩ := ih rest
      exact ⟨m, .cons stands gap left, right⟩
  · rintro ⟨m, left, right⟩
    induction left with
    | nil => exact right
    | cons stands gap _ ih => exact .cons stands gap (ih right)

/-- The tokens of a run start and stop where the text can be cut, within the run. -/
theorem mem (h : Run source a ts b) (ht : t ∈ ts) :
    a ≤ t.start ∧ t.reach ≤ b ∧ (⟨t.start⟩ : String.Pos.Raw).IsValid source ∧
      (⟨t.stop⟩ : String.Pos.Raw).IsValid source := by
  obtain ⟨before, after, rfl⟩ := List.append_of_mem ht
  obtain ⟨m, left, right⟩ := append_iff.mp h
  obtain ⟨rfl, stands, -, rest⟩ := cons_iff.mp right
  refine ⟨left.le, rest.le, stands.isValid, ?_⟩
  simpa [stop] using stands.left.isValid_right

/-- No token of a run stops after the last one does. -/
theorem stop_le_last {last : Token} (h : Run source a (ts ++ [last]) b) (ht : t ∈ ts ++ [last]) :
    t.stop ≤ last.stop := by
  obtain ⟨m, left, right⟩ := append_iff.mp h
  obtain ht | ht := List.mem_append.mp ht
  · have hm := (left.mem ht).2.1
    have := (right.mem (List.mem_singleton_self last)).1
    have := t.stop_le_reach
    have := last.start_le_stop
    omega
  · exact Nat.le_of_eq (congrArg stop (List.mem_singleton.mp ht))

theorem startOf_eq (h : Run source a ts b) : startOf ts b = a := by
  cases h <;> rfl

/-- A token that opens no block is followed at once. -/
theorem reach_eq_stop (h : Run source a ts b) (ht : t ∈ ts) (hk : t.kind.opensBlock = false) :
    t.reach = t.stop := by
  obtain ⟨before, after, rfl⟩ := List.append_of_mem ht
  obtain ⟨m, -, right⟩ := append_iff.mp h
  obtain ⟨-, -, gap, -⟩ := cons_iff.mp right
  have : t.omitted = "" := by
    apply Decidable.byContradiction
    intro hne
    rw [gap hne] at hk
    cases hk
  simp [reach, this]

/-- The source text of adjacent tokens stands where they do. -/
theorem stands_sourceText (run : Run source a (ts ++ [t]) b) :
    Text.Stands source a (sourceText (ts ++ [t])).toList ∧
      a + Text.width (sourceText (ts ++ [t])).toList = t.stop := by
  induction ts generalizing a with
  | nil =>
    obtain ⟨rfl, stands, -, -⟩ := cons_iff.mp run
    have alone : sourceText ([] ++ [t]) = t.text := by
      rw [List.nil_append, sourceText, pieces, String.join_cons, String.join_nil,
        String.append_empty]
    rw [alone, Text.width_toList]
    exact ⟨stands.left, rfl⟩
  | cons u us ih =>
    obtain ⟨rfl, stands, -, rest⟩ := cons_iff.mp run
    obtain ⟨later, stop⟩ := ih rest
    have text : (sourceText (u :: (us ++ [t]))).toList =
        (u.text.toList ++ u.omitted.toList) ++ (sourceText (us ++ [t])).toList := by
      cases us <;> simp [sourceText, pieces, String.join_cons]
    have reach : u.start + Text.width (u.text.toList ++ u.omitted.toList) = u.reach := by
      rw [Text.width_append, Text.width_toList, Text.width_toList, ← Nat.add_assoc]
      rfl
    rw [List.cons_append, text]
    refine ⟨stands.append (by rwa [reach]), ?_⟩
    rw [Text.width_append, ← Nat.add_assoc, reach, stop]

end Run

@[simp] theorem startOf_append (ts us : List Token) (next : Nat) :
    startOf (ts ++ us) next = startOf ts (startOf us next) := by
  cases ts <;> rfl

theorem significant_append (ts : List Token) :
    (ts.takeWhile fun t => t.kind.isTrivia) ++ significant ts = ts :=
  List.takeWhile_append_dropWhile

end Token

namespace Scope

open Token

/-- The tokens of a scope stand in a text, and its next offset is where they end. -/
def LiesIn (source : String) (s : Scope) : Prop := Run source s.start s.tokens s.next

/-- No token of a scope stops after an offset. -/
def EndsBy (s : Scope) (n : Nat) : Prop := ∀ t ∈ s.tokens, t.stop ≤ n

/-- A part of a scope: adjacent tokens of it, up to where the token after them starts. -/
def IsPart (p s : Scope) : Prop :=
  ∃ front back, s.tokens = front ++ (p.tokens ++ back) ∧ p.next = startOf back s.next

variable {source : String} {p q s : Scope} {t : Token} {n m : Nat}

section LiesIn

/-- What follows the first token of a scope starts no earlier than that token stops. -/
theorem LiesIn.stop_le_start {ts : List Token} (h : LiesIn source ⟨t :: ts, n⟩) :
    t.stop ≤ start ⟨ts, n⟩ := by
  obtain ⟨-, -, -, rest⟩ := Run.cons_iff.mp h
  rw [start, rest.startOf_eq]
  exact t.stop_le_reach

theorem LiesIn.start_le_next (h : s.LiesIn source) : s.start ≤ s.next := Run.le h

theorem LiesIn.endsBy_next (h : s.LiesIn source) : s.EndsBy s.next := by
  intro t ht
  exact Nat.le_trans t.stop_le_reach (Run.mem h ht).2.1

theorem EndsBy.mono (h : s.EndsBy n) (le : n ≤ m) : s.EndsBy m :=
  fun t ht => Nat.le_trans (h t ht) le

theorem stop_eq_next (h : s.tokens = []) : s.stop = s.next := by
  simp [stop, h]

theorem LiesIn.endsBy_stop (h : s.LiesIn source) : s.EndsBy s.stop := by
  intro t ht
  obtain hs | ⟨before, last, hs⟩ := List.eq_nil_or_concat s.tokens
  · simp [hs] at ht
  · rw [List.concat_eq_append] at hs
    rw [LiesIn, hs] at h
    rw [hs] at ht
    simpa [stop, hs] using h.stop_le_last ht

/-- The end of a scope bounds its tokens, and nothing smaller does unless there are none. -/
theorem EndsBy.stop_le (h : s.EndsBy n) (hne : s.tokens ≠ []) : s.stop ≤ n := by
  rw [stop, List.getLast?_eq_some_getLast hne]
  exact h _ (List.getLast_mem hne)

theorem LiesIn.stop_le_next (h : s.LiesIn source) : s.stop ≤ s.next := by
  by_cases hne : s.tokens = []
  · exact Nat.le_of_eq (stop_eq_next hne)
  · exact h.endsBy_next.stop_le hne

theorem LiesIn.start_le (h : s.LiesIn source) (ht : t ∈ s.tokens) : s.start ≤ t.start :=
  (Run.mem h ht).1

theorem LiesIn.start_le_stop (h : s.LiesIn source) : s.start ≤ s.stop := by
  by_cases hne : s.tokens = []
  · rw [stop_eq_next hne]
    exact h.start_le_next
  · obtain ⟨t, ht⟩ := List.exists_mem_of_ne_nil _ hne
    have := h.start_le ht
    have := h.endsBy_stop t ht
    have := t.start_le_stop
    omega

theorem LiesIn.edge_start (h : s.LiesIn source) : (⟨s.start⟩ : String.Pos.Raw).IsValid source :=
  Run.edge_left h

theorem LiesIn.edge_stop (h : s.LiesIn source) : (⟨s.stop⟩ : String.Pos.Raw).IsValid source := by
  by_cases hne : s.tokens = []
  · rw [stop_eq_next hne]
    exact Run.edge_right h
  · rw [stop, List.getLast?_eq_some_getLast hne]
    exact (Run.mem h (List.getLast_mem hne)).2.2.2

end LiesIn

namespace IsPart

theorem refl (s : Scope) : s.IsPart s := ⟨[], [], by simp, rfl⟩

theorem trans (h : p.IsPart q) (h' : q.IsPart s) : p.IsPart s := by
  obtain ⟨front, back, ht, hn⟩ := h
  obtain ⟨front', back', ht', hn'⟩ := h'
  exact ⟨front' ++ front, back ++ back', by simp [ht', ht], by simp [hn, hn']⟩

theorem subset (h : p.IsPart s) : p.tokens ⊆ s.tokens := by
  obtain ⟨front, back, ht, -⟩ := h
  intro t hp
  simp [ht, hp]

theorem endsBy (h : p.IsPart s) (hs : s.EndsBy n) : p.EndsBy n :=
  fun t ht => hs t (h.subset ht)

/-- A part lies where its scope does, and between the same bounds. -/
theorem bounds (h : p.IsPart s) (hs : s.LiesIn source) :
    p.LiesIn source ∧ s.start ≤ p.start ∧ p.next ≤ s.next := by
  obtain ⟨front, back, ht, hn⟩ := h
  rw [LiesIn, ht] at hs
  obtain ⟨m, left, right⟩ := Run.append_iff.mp hs
  obtain ⟨m', middle, right⟩ := Run.append_iff.mp right
  have hm' : p.next = m' := by rw [hn, right.startOf_eq]
  rw [← hm'] at middle right
  have hm : p.start = m := middle.startOf_eq
  refine ⟨?_, ?_, right.le⟩
  · rw [LiesIn, hm]
    exact middle
  · rw [hm]
    exact left.le

theorem liesIn (h : p.IsPart s) (hs : s.LiesIn source) : p.LiesIn source := (h.bounds hs).1

theorem start_le (h : p.IsPart s) (hs : s.LiesIn source) : s.start ≤ p.start := (h.bounds hs).2.1

theorem next_le (h : p.IsPart s) (hs : s.LiesIn source) : p.next ≤ s.next := (h.bounds hs).2.2

end IsPart

/-- What follows some tokens of a scope is a part of it. -/
theorem isPart_of_suffix {ts : List Token} (h : ts <:+ s.tokens) : IsPart ⟨ts, s.next⟩ s := by
  obtain ⟨front, hf⟩ := h
  exact ⟨front, [], by simp [← hf], rfl⟩

theorem isPart_tail {ts : List Token} : IsPart ⟨ts, n⟩ ⟨t :: ts, n⟩ :=
  isPart_of_suffix (List.suffix_cons t ts)

theorem isPart_rest {ts : List Token} (h : s.tokens = t :: ts) : IsPart ⟨ts, s.next⟩ s :=
  isPart_of_suffix (h ▸ List.suffix_cons t ts)

theorem trimStart_isPart (s : Scope) : s.trimStart.IsPart s :=
  isPart_of_suffix (List.dropWhile_suffix _)

/-- Trimming leaves out the white space and the comments at both ends. -/
theorem trim_split (s : Scope) :
    ∃ back, s.tokens = (s.tokens.takeWhile fun t => t.kind.isTrivia) ++ (s.trim.tokens ++ back) ∧
      s.trim.next = startOf back s.next ∧ ∀ t ∈ back, t.kind.isTrivia = true := by
  let backward := (significant s.tokens).reverse
  refine ⟨(backward.takeWhile fun t => t.kind.isTrivia).reverse, ?_, rfl, fun t ht => ?_⟩
  · have h : (significant backward).reverse ++
        (backward.takeWhile fun t => t.kind.isTrivia).reverse = significant s.tokens := by
      rw [← List.reverse_append, significant_append, List.reverse_reverse]
    exact ((congrArg _ h).trans (significant_append s.tokens)).symm
  · have all : (backward.takeWhile fun t => t.kind.isTrivia).all _ = true := List.all_takeWhile
    exact List.all_eq_true.mp all t (List.mem_reverse.mp ht)

/-- Trimming leaves out nothing at the front that matters. -/
theorem trim_split_solid (solid : ∀ t ∈ s.tokens.head?, t.kind.isTrivia = false) :
    ∃ back, s.tokens = s.trim.tokens ++ back ∧ s.trim.next = startOf back s.next ∧
      ∀ t ∈ back, t.kind.isTrivia = true := by
  obtain ⟨back, tokens, rest⟩ := trim_split s
  have none : (s.tokens.takeWhile fun t => t.kind.isTrivia) = [] := by
    cases hs : s.tokens with
    | nil => rfl
    | cons t ts =>
      refine List.takeWhile_cons_of_neg ?_
      rw [solid t (by rw [hs]; rfl)]
      exact Bool.false_ne_true
  rw [none, List.nil_append] at tokens
  exact ⟨back, tokens, rest⟩

theorem trim_isPart (s : Scope) : s.trim.IsPart s := by
  obtain ⟨back, tokens, next, -⟩ := trim_split s
  exact ⟨_, back, tokens, next⟩

theorem cut_fst_isPart (f : Token.Kind → Bool) (s : Scope) : (s.cut f).1.IsPart s :=
  ⟨[], (spanTop f s.tokens).2, (spanTop_append f s.tokens).symm, rfl⟩

theorem cut_snd_isPart (f : Token.Kind → Bool) (s : Scope) : (s.cut f).2.IsPart s :=
  isPart_of_suffix ⟨(spanTop f s.tokens).1, spanTop_append f s.tokens⟩

/-- What follows the token that a cut stops at is a part of the scope. -/
theorem cut_rest_isPart {f : Token.Kind → Bool} {ts : List Token}
    (h : (s.cut f).2.tokens = t :: ts) : IsPart ⟨ts, s.next⟩ s :=
  (isPart_rest (s := (s.cut f).2) h).trans (cut_snd_isPart f s)

/-- What stands before a cut ends by where the rest starts. -/
theorem cut_fst_endsBy (f : Token.Kind → Bool) (h : s.LiesIn source) :
    (s.cut f).1.EndsBy (s.cut f).2.start :=
  ((cut_fst_isPart f s).liesIn h).endsBy_next

section Enter

variable (o : Token) (s : Scope)

theorem enter_inner_isPart : (s.enter o).inner.IsPart s := by
  rw [enter]
  split
  · exact .refl s
  · split
    · exact .refl s
    · rename_i closer rest h
      refine ⟨[], closer :: rest, ?_, rfl⟩
      rw [List.nil_append, ← h, List.take_append_drop]

theorem enter_after_isPart : (s.enter o).after.IsPart s := by
  rw [enter]
  split
  · exact isPart_of_suffix List.nil_suffix
  · split
    · exact isPart_of_suffix List.nil_suffix
    · rename_i closer rest h
      exact isPart_of_suffix ((List.suffix_cons closer rest).trans (h ▸ List.drop_suffix _ _))

/-- The tokens of a block are the first of those after its opener. -/
theorem enter_closer {c : Token} (h : (s.enter o).closer = some c) :
    s.tokens = (s.enter o).inner.tokens ++ c :: (s.enter o).after.tokens ∧
      (s.enter o).inner.next = c.start ∧ (s.enter o).after.next = s.next := by
  unfold enter at h ⊢
  split at h
  · cases h
  · split at h
    · cases h
    · rename_i hd
      cases h
      refine ⟨?_, rfl, rfl⟩
      rw [← hd, List.take_append_drop]

theorem enter_unclosed (h : (s.enter o).closer = none) :
    (s.enter o).inner = s ∧ (s.enter o).after = ⟨[], s.next⟩ := by
  unfold enter at h ⊢
  split at h
  · exact ⟨rfl, rfl⟩
  · split at h
    · exact ⟨rfl, rfl⟩
    · cases h

@[simp] theorem enter_opener : (s.enter o).opener = o := by
  rw [enter]
  split
  · rfl
  · split <;> rfl

end Enter

/-- A block stops where one of its tokens does. -/
theorem enter_stop_mem (o : Token) (s : Scope) :
    ∃ t ∈ o :: s.tokens, (s.enter o).stop = t.stop := by
  cases hc : (s.enter o).closer with
  | none =>
    obtain ⟨hi, -⟩ := enter_unclosed o s hc
    refine ⟨(o :: s.tokens).getLast (List.cons_ne_nil _ _), List.getLast_mem _, ?_⟩
    simp [Block.stop, hc, hi, stop, List.getLast?_eq_some_getLast]
  | some c =>
    obtain ⟨ht, -⟩ := enter_closer o s hc
    exact ⟨c, by simp [ht], by simp [Block.stop, hc]⟩

/-- A block lies between its brackets: its opener and its content stop by its end, and what follows
starts no earlier than that. -/
theorem enter_bounds {o : Token} (h : LiesIn source ⟨o :: s.tokens, s.next⟩) :
    o.stop ≤ (s.enter o).stop ∧ (s.enter o).inner.EndsBy (s.enter o).stop ∧
      (s.enter o).stop ≤ (s.enter o).after.start := by
  cases hc : (s.enter o).closer with
  | none =>
    obtain ⟨hi, ha⟩ := enter_unclosed o s hc
    have hstop : (s.enter o).stop = stop ⟨o :: s.tokens, s.next⟩ := by
      simp [Block.stop, hc, hi]
    rw [hstop, hi, ha]
    refine ⟨h.endsBy_stop o List.mem_cons_self, ?_, h.stop_le_next⟩
    intro t ht
    exact h.endsBy_stop t (List.mem_cons_of_mem o ht)
  | some c =>
    obtain ⟨ht, -, hn⟩ := enter_closer o s hc
    have hstop : (s.enter o).stop = c.stop := by simp [Block.stop, hc]
    rw [hstop]
    rw [LiesIn, ht, ← List.cons_append] at h
    obtain ⟨m, left, right⟩ := Run.append_iff.mp h
    have hm : m = c.start := right.startOf_eq.symm
    have hcs := c.start_le_stop
    refine ⟨?_, ?_, ?_⟩
    · have := (left.mem List.mem_cons_self).2.1
      have := o.stop_le_reach
      omega
    · intro t hi
      have := (left.mem (List.mem_cons_of_mem o hi)).2.1
      have := t.stop_le_reach
      omega
    · obtain ⟨-, -, -, rest⟩ := Run.cons_iff.mp right
      have : (s.enter o).after.start = c.reach := by
        rw [start, hn]
        exact rest.startOf_eq
      rw [this]
      exact c.stop_le_reach

end Scope

end Stylesheet
