import Stylesheet.Proofs.Nesting.Level
import Stylesheet.Proofs.Spelt

/-!
# What every list of tokens is like

The tokens of a text stand in it one behind the other, and nothing is left out between them unless a
block is nested too deeply. What is recorded as the end of a block is behind its opener, of the kind
that ends such blocks, and blocks lie within each other, so nothing ends two blocks.
-/

namespace Stylesheet

namespace Token

variable {ts front back : List Token} {t u : Token} {i j n m : Nat}

/-- What a block holds and what closes it follow its opener, wherever that stands. -/
theorem Matched.of_split (h : Matched ts) (split : ts = front ++ t :: back)
    (opens : t.kind.opensBlock = true) (inside : t.inside = some n) :
    ∃ inner closer rest, back = inner ++ closer :: rest ∧ inner.length = n ∧
      t.kind.closing = some closer.kind ∧ Matched inner := by
  induction h generalizing front back with
  | nil => exact absurd split.symm (List.append_ne_nil_of_right_ne_nil front (List.cons_ne_nil t back))
  | cons waits _ ih =>
    cases front with
    | nil =>
      obtain ⟨rfl, -⟩ := List.cons.inj split
      exact absurd inside (by rw [waits opens]; rintro ⟨⟩)
    | cons a front => exact ih (List.tail_eq_of_cons_eq split)
  | @block opener closer inner us paired closed content _ ihContent ihRest =>
    cases front with
    | nil =>
      obtain ⟨rfl, rfl⟩ := List.cons.inj split
      exact ⟨inner, closer, us, rfl, Option.some.inj (closed.symm.trans inside), paired, content⟩
    | cons a front =>
      have tail : inner ++ closer :: us = front ++ t :: back := List.tail_eq_of_cons_eq split
      have plain : ¬ closer.kind.opensBlock = true := by
        rw [Kind.closing_ne_opensBlock paired]
        exact Bool.false_ne_true
      -- The opener stands behind this block or in it. It is not its closing token.
      obtain ⟨gap, rfl, last⟩ | ⟨gap, split', last⟩ := List.append_eq_append_iff.mp tail
      · cases gap with
        | nil =>
          obtain ⟨rfl, -⟩ := List.cons.inj last
          exact absurd opens plain
        | cons c gap => exact ihRest (List.tail_eq_of_cons_eq last)
      · cases gap with
        | nil =>
          obtain ⟨rfl, -⟩ := List.cons.inj last
          exact absurd opens plain
        | cons c gap =>
          obtain ⟨rfl, rfl⟩ := List.cons.inj last
          obtain ⟨inner', closer', rest, rfl, length, paired', content'⟩ := ihContent split'
          exact ⟨inner', closer', rest ++ closer :: us, by simp, length, paired', content'⟩

theorem exists_split (found : ts[i]? = some t) :
    ∃ front back, ts = front ++ t :: back ∧ front.length = i := by
  obtain ⟨inside, rfl⟩ := List.getElem?_eq_some_iff.mp found
  refine ⟨ts.take i, ts.drop (i + 1), ?_, List.length_take_of_le (Nat.le_of_lt inside)⟩
  rw [List.getElem_cons_drop inside, List.take_append_drop]

/-- A block is closed where its opener says, by a token of the right kind. -/
theorem Matched.closer (h : Matched ts) (found : ts[i]? = some t) (opens : t.kind.opensBlock = true)
    (inside : t.inside = some n) :
    ∃ u, ts[i + 1 + n]? = some u ∧ t.kind.closing = some u.kind := by
  obtain ⟨front, back, split, rfl⟩ := exists_split found
  obtain ⟨inner, closer, rest, rfl, rfl, paired, -⟩ := h.of_split split opens inside
  refine ⟨closer, ?_, paired⟩
  rw [split, Nat.add_assoc, List.getElem?_append_right (Nat.le_add_right ..), Nat.add_sub_cancel_left,
    Nat.add_comm 1, List.getElem?_cons_succ, List.getElem?_append_right (Nat.le_refl _), Nat.sub_self]
  rfl

/-- A block that begins in a closed one ends in it, if it is closed at all. -/
theorem Matched.within (h : Matched ts) (found : ts[i]? = some t) (opens : t.kind.opensBlock = true)
    (inside : t.inside = some n) (found' : ts[j]? = some u) (opens' : u.kind.opensBlock = true)
    (inside' : u.inside = some m) (after : i < j) (before : j < i + 1 + n) :
    j + 1 + m < i + 1 + n := by
  obtain ⟨front, back, split, rfl⟩ := exists_split found
  obtain ⟨inner, closer, rest, rfl, rfl, -, content⟩ := h.of_split split opens inside
  obtain ⟨k, rfl⟩ : ∃ k, j = front.length + (k + 1) := ⟨j - front.length - 1, by omega⟩
  have inner_found : inner[k]? = some u := by
    rw [split, List.getElem?_append_right (Nat.le_add_right ..), Nat.add_sub_cancel_left,
      List.getElem?_cons_succ, List.getElem?_append_left (by omega)] at found'
    exact found'
  obtain ⟨v, inner_closer, -⟩ := content.closer inner_found opens' inside'
  obtain ⟨inside, -⟩ := List.getElem?_eq_some_iff.mp inner_closer
  omega

end Token

open Token

namespace TokenList

/-- What holds of the tokens of every text. -/
structure WellFormed (list : TokenList) (text : String) : Prop where
  /-- Nothing stands before the first token. -/
  first : startOf list.tokens text.utf8ByteSize = 0
  /-- Every token covers some characters of the text, and its text are these. -/
  token : ∀ (i : Nat) (t : Token), list.tokens[i]? = some t →
    t.start < t.stop ∧ t.stop ≤ text.utf8ByteSize ∧
    (⟨t.start⟩ : String.Pos.Raw).IsValid text ∧ (⟨t.stop⟩ : String.Pos.Raw).IsValid text ∧
    Text.slice? text t.start t.stop = some t.text
  /-- The next token, or the end of the text, is behind it. -/
  order : ∀ (i : Nat) (t : Token), list.tokens[i]? = some t →
    t.stop ≤ startOf (list.tokens.drop (i + 1)) text.utf8ByteSize
  /-- Only the opener of a block that is nested deeper than `maxDepth` is not followed at once. -/
  gap : ∀ (i : Nat) (t : Token), list.tokens[i]? = some t →
    t.stop < startOf (list.tokens.drop (i + 1)) text.utf8ByteSize →
    t.kind.opensBlock = true ∧ maxDepth < level list.tokens i
  /-- Where no block is left out, the tokens make up the text. -/
  whole : list.truncated = [] → String.join (list.tokens.map Token.text) = text
  /-- What closes a block is behind its opener and of the right kind. -/
  close : ∀ i c, list.close? i = some c → i < c ∧ ∃ opener closer, list.tokens[i]? = some opener ∧
    list.tokens[c]? = some closer ∧ opener.kind.closing = some closer.kind
  /-- No token closes two blocks. -/
  alone : ∀ i j c, list.close? i = some c → list.close? j = some c → i = j
  /-- A block that begins in a closed one ends in it, if it is closed at all. -/
  nested : ∀ i j c d, list.close? i = some c → list.close? j = some d → i < j → j < c → d < c

theorem close?_eq_some_iff {list : TokenList} {i c : Nat} :
    list.close? i = some c ↔
      ∃ t n, list.tokens[i]? = some t ∧ t.inside = some n ∧ i + 1 + n = c := by
  simp only [close?, Option.bind_eq_some_iff, Option.map_eq_some_iff]
  constructor
  · rintro ⟨t, found, n, inside, rfl⟩
    exact ⟨t, n, found, inside, rfl⟩
  · rintro ⟨t, n, found, inside, rfl⟩
    exact ⟨t, found, n, inside, rfl⟩

variable {source : String}

/-- The tokens of a text in which no block is left out make it up. -/
theorem join_text (full : (tokenize source).truncated = []) :
    String.join ((tokenize source).tokens.map Token.text) = source := by
  have none : (stateOf source).truncated = [] := List.reverse_eq_nil_iff.mp full
  have words := Nesting.Sound.empty.words (lexemes_chars source.toList) none
  have chars : (tokenize source).tokens.map (fun t => t.text.toList) =
      (lexemes source.toList).map (·.2) := by
    have same := congrArg (List.map fun w => w.2.2) words
    rw [← List.reverse_inj, ← List.map_reverse, tokens_eq full, List.reverse_reverse]
    simpa [Nesting.soFar, word, wordOf, Function.comp_def, stateOf] using same
  rw [← String.toList_inj, String.toList_join, List.flatMap_map, List.flatMap_def, chars,
    ← List.flatMap_def, lexemes_flatMap]

/-- Every token of a text has characters. -/
theorem text_ne_empty (source : String) : ∀ t ∈ (tokenize source).tokens, t.text ≠ "" := by
  refine forall_tokenize (P := fun _ text => text ≠ "") (fun c cs nothing => ?_)
    (fun k c closes nothing => ?_) source
  · have chars := congrArg String.toList nothing
    rw [String.toList_ofList] at chars
    exact List.cons_ne_nil _ _ chars
  · have size := Kind.closing_name closes
    rw [nothing] at size
    exact absurd size (by decide)

/-- The tokens of a text around one of them, and where it stands. -/
theorem token_at {i : Nat} {t : Token} (found : (tokenize source).tokens[i]? = some t) :
    Text.Stands source t.start (t.text.toList ++ t.omitted.toList) ∧
      (t.omitted ≠ "" → t.kind.opensBlock = true) ∧
      startOf ((tokenize source).tokens.drop (i + 1)) source.utf8ByteSize = t.reach := by
  obtain ⟨run, size⟩ := tokenize_run source
  obtain ⟨front, back, split, rfl⟩ := exists_split found
  have rest : (tokenize source).tokens.drop (front.length + 1) = back := by
    rw [split, List.drop_append, List.drop_eq_nil_of_le (Nat.le_succ _), Nat.add_sub_cancel_left]
    rfl
  rw [split, Run.append_iff] at run
  obtain ⟨m, -, right⟩ := run
  obtain ⟨-, stands, gap, after⟩ := Run.cons_iff.mp right
  refine ⟨stands, gap, ?_⟩
  rw [rest, ← size]
  exact after.startOf_eq

end TokenList

open TokenList

/-- The tokens of a text are in order, leave out only what is nested too deeply, and their blocks lie
within each other. -/
theorem tokenize_wellFormed (text : String) : (tokenize text).WellFormed text := by
  obtain ⟨run, size⟩ := tokenize_run text
  obtain ⟨n, levels⟩ := tokenize_levels text
  have matched := tokenize_matched text
  have opens {i : Nat} {t : Token} {n : Nat} (found : (tokenize text).tokens[i]? = some t)
      (inside : t.inside = some n) : t.kind.opensBlock = true :=
    levels.openers t (List.mem_of_getElem? found) (by rw [inside]; rintro ⟨⟩)
  have nested (i j c d : Nat) (hi : (tokenize text).close? i = some c)
      (hj : (tokenize text).close? j = some d) (after : i < j) (before : j < c) : d < c := by
    obtain ⟨t, n, found, inside, rfl⟩ := close?_eq_some_iff.mp hi
    obtain ⟨u, m, found', inside', rfl⟩ := close?_eq_some_iff.mp hj
    exact matched.within found (opens found inside) inside found' (opens found' inside') inside'
      after before
  constructor
  case first =>
    rw [← size]
    exact run.startOf_eq
  case token =>
    intro i t found
    have mem := List.mem_of_getElem? found
    obtain ⟨stands, -, -⟩ := token_at found
    obtain ⟨-, le, edge, edge'⟩ := run.mem mem
    have slice := stands.left.slice?
    rw [Text.width_toList, String.ofList_toList] at slice
    refine ⟨?_, ?_, edge, edge', slice⟩
    · have some : t.text.utf8ByteSize ≠ 0 := fun none =>
        text_ne_empty text t mem (String.utf8ByteSize_eq_zero_iff.mp none)
      exact Nat.lt_add_of_pos_right (Nat.pos_of_ne_zero some)
    · rw [← size]
      exact Nat.le_trans t.stop_le_reach le
  case order =>
    intro i t found
    rw [(token_at found).2.2]
    exact t.stop_le_reach
  case gap =>
    intro i t found late
    obtain ⟨-, opens, next⟩ := token_at found
    have left : t.omitted ≠ "" := by
      intro nothing
      rw [next, reach, nothing] at late
      exact Nat.lt_irrefl _ late
    refine ⟨opens left, ?_⟩
    rw [levels.gap i t.omitted (by rw [List.getElem?_map, found]; rfl) left]
    exact Nat.lt_succ_self maxDepth
  case whole => exact join_text
  case close =>
    intro i c hi
    obtain ⟨t, n, found, inside, rfl⟩ := close?_eq_some_iff.mp hi
    obtain ⟨u, closer, paired⟩ := matched.closer found (opens found inside) inside
    exact ⟨by omega, t, u, found, closer, paired⟩
  case alone =>
    intro i j c hi hj
    obtain ⟨_, _, -, -, rfl⟩ := close?_eq_some_iff.mp hi
    obtain ⟨_, _, -, -, same⟩ := close?_eq_some_iff.mp hj
    obtain before | rfl | after := Nat.lt_trichotomy i j
    · exact absurd (nested i j _ _ hi hj before (by omega)) (Nat.lt_irrefl _)
    · rfl
    · exact absurd (nested j i _ _ hj hi after (by omega)) (Nat.lt_irrefl _)
  case nested => exact nested

end Stylesheet
