import Stylesheet.Proofs.Depth.Value
import Stylesheet.Proofs.Nesting.Shallow
import Stylesheet.Proofs.Removal.Token
import Stylesheet.Proofs.Spelling.Forest

/-!
# Tokens of a text between curly brackets

A text whose blocks are closed has the same tokens between curly brackets, if no closing bracket of
its own ends the block too early and there is room for one more block around its own. The tokens
outside its blocks decide the one, and how deep its tokens are nested decides the other.
-/

namespace Stylesheet

namespace Token

/-- The tokens that stand in no block. What opens a block is among them, what closes it is not. -/
def topLevel : List Token → List Token
  | [] => []
  | t :: ts => t :: topLevel (ts.drop (t.more ts))
termination_by ts => ts.length
decreasing_by simp only [List.length_cons, List.length_drop]; omega

section

variable {ts us inner : List Token} {t closer : Token}

theorem topLevel_nil : topLevel [] = [] := by
  rw [topLevel]

theorem topLevel_leaf (plain : t.kind.opensBlock = false) :
    topLevel (t :: ts) = t :: topLevel ts := by
  have more : t.more ts = 0 := by rw [Token.more, plain, if_neg Bool.false_ne_true]
  rw [topLevel, more, List.drop_zero]

theorem topLevel_block (opens : t.kind.opensBlock = true) (inside : t.inside = some inner.length) :
    topLevel (t :: (inner ++ closer :: us)) = t :: topLevel us := by
  have more : t.more (inner ++ closer :: us) = (inner ++ [closer]).length := by
    rw [Token.more, opens, if_pos rfl, inside]
    simp
  have split : inner ++ closer :: us = (inner ++ [closer]) ++ us := List.append_cons inner closer us
  rw [topLevel, more, split, List.drop_left]

theorem topLevel_append (closed : Closed ts) :
    topLevel (ts ++ us) = topLevel ts ++ topLevel us := by
  induction closed with
  | nil => rw [topLevel_nil, List.nil_append, List.nil_append]
  | leaf plain _ ih =>
    rw [List.cons_append, topLevel_leaf plain, topLevel_leaf plain, ih, List.cons_append]
  | block paired inside _ _ _ ih =>
    have opens := Kind.opensBlock_of_closing paired
    rw [List.cons_append, List.append_assoc, List.cons_append, topLevel_block opens inside,
      topLevel_block opens inside, ih, List.cons_append]

end

namespace Nests

variable {room less k next : Nat} {awaited : Option Kind} {ts : List Token}

/-- The room that blocks need shows in how deep the tokens are. -/
theorem lower (h : Nests room awaited ts) (shallow : Scope.Shallow less ⟨ts, next⟩) :
    Nests less awaited ts := by
  induction h generalizing less next with
  | nil => exact .nil
  | @leaf _ _ t ts plain other alone _ ih =>
    exact .leaf plain other alone (ih (Scope.isPart_tail.shallow shallow))
  | @block _ _ opener closer inner ts paired inside alone _ _ ihContent ihRest =>
    have opens := Kind.opensBlock_of_closing paired
    obtain ⟨less, rfl, within⟩ :=
      Scope.enter_shallow (s := ⟨inner ++ closer :: ts, next⟩) opens shallow
    rw [Scope.enter_closed inside] at within
    have last : ts <:+ opener :: (inner ++ closer :: ts) :=
      ⟨opener :: (inner ++ [closer]), by simp⟩
    have behind := (Scope.isPart_of_suffix (s := ⟨_, next⟩) last).shallow shallow
    exact .block paired inside alone (ihContent within) (ihRest behind)

/-- Tokens outside all blocks end the block around them if they are of the kind that it waits for. -/
theorem await {c : Kind} (h : Nests room awaited ts) (apart : ∀ t ∈ topLevel ts, t.kind ≠ c) :
    Nests room (some c) ts := by
  induction h with
  | nil => exact .nil
  | @leaf _ _ t ts plain _ alone _ ih =>
    rw [topLevel_leaf plain] at apart
    obtain ⟨first, later⟩ := List.forall_mem_cons.mp apart
    refine .leaf plain ?_ alone (ih later)
    intro own
    exact first (Option.some.inj own).symm
  | block paired inside alone content _ _ ih =>
    rw [topLevel_block (Kind.opensBlock_of_closing paired) inside] at apart
    obtain ⟨-, later⟩ := List.forall_mem_cons.mp apart
    exact .block paired inside alone content (ih later)

theorem shift (h : Nests room awaited ts) : Nests room awaited (ts.map (Token.shift k)) := by
  induction h with
  | nil => exact .nil
  | leaf plain other alone _ ih => exact .leaf plain other alone ih
  | block paired inside alone _ _ ihContent ihRest =>
    rw [List.map_cons, List.map_append, List.map_cons]
    refine .block paired ?_ alone ihContent ihRest
    rwa [List.length_map]

end Nests

/-- The token of a word spells the word, also if it opens a block that is closed. -/
theorem Word.word_token (w : Word) (o : Nat) (inside : Option Nat) :
    ({ w.token o with inside := inside } : Token).word = wordOf w.lexeme := by
  rw [word, Word.token_text, String.toList_ofList]
  rfl

namespace Forest

/-- The tokens of a forest are nested, whatever closing bracket a block around them waits for. -/
theorem nests (f : Forest) {room : Nat} {awaited : Option Kind} (fits : f.depth ≤ room)
    (bracket : ∀ k, awaited = some k → k.isBracket = true) (o : Nat) :
    Nests room awaited (f.tokens o) := by
  induction f generalizing room awaited o with
  | nil => exact .nil
  | leaf w plain rest ih =>
    refine .leaf (Kind.opensBlock_of_plain plain) ?_ rfl (ih fits bracket _)
    intro own
    have closes := bracket _ own
    rw [Word.token_kind, plain] at closes
    cases closes
  | block opener inner closer paired rest ihContent ih =>
    rw [depth, Nat.max_le] at fits
    obtain ⟨less, rfl⟩ : ∃ less, room = less + 1 := ⟨room - 1, by omega⟩
    refine .block paired ?_ rfl (ihContent (Nat.le_of_succ_le_succ fits.1) ?_ _)
      (ih fits.2 bracket _)
    · rw [length_tokens]
    · rintro _ ⟨⟩
      exact Kind.isBracket_of_closing paired

/-- The tokens of a forest stand one behind the other. -/
theorem laid (f : Forest) (o : Nat) : Laid o (f.tokens o) (o + f.width) := by
  induction f generalizing o with
  | nil => exact .nil
  | leaf w plain rest ih =>
    rw [tokens, width, ← Nat.add_assoc]
    exact Laid.cons_iff.mpr ⟨rfl, rfl, ih _⟩
  | block opener inner closer paired rest ihContent ih =>
    rw [tokens, width, ← Nat.add_assoc, ← Nat.add_assoc, ← Nat.add_assoc]
    refine Laid.cons_iff.mpr ⟨rfl, rfl, ?_⟩
    exact Laid.append_iff.mpr ⟨_, ihContent _, Laid.cons_iff.mpr ⟨rfl, rfl, ih _⟩⟩

/-- The tokens of a forest spell its words. -/
theorem words_tokens (f : Forest) (o : Nat) :
    (f.tokens o).map word = (f.words.map Word.lexeme).map wordOf := by
  have own (w : Word) (o : Nat) : (w.token o).word = wordOf w.lexeme := w.word_token o none
  induction f generalizing o with
  | nil => rfl
  | leaf w plain rest ih =>
    rw [tokens, List.map_cons, ih, own, words_leaf, List.map_cons, List.map_cons]
  | block opener inner closer paired rest ihContent ih =>
    rw [tokens, List.map_cons, List.map_append, List.map_cons, ihContent, ih, own, Word.word_token,
      words_block]
    simp only [List.map_cons, List.map_append]

end Forest

/-- The opening curly bracket behind `a`, with `n` tokens in its block. -/
def opening (n : Nat) : Token :=
  { (Word.single .leftCurly '{').token 1 with inside := some n }

/-- The tokens of `a`, of an opening curly bracket, of a text of `size` bytes whose tokens are `inner`,
and of the closing bracket. -/
def braced (inner : List Token) (size : Nat) : List Token :=
  (Word.ident ['a']).token 0 ::
    opening inner.length ::
      (inner.map (shift 2) ++ [(Word.single .rightCurly '}').token (size + 2)])

theorem words_braced (inner : List Token) (size : Nat) :
    (braced inner size).map word =
      wordOf (Word.ident ['a']).lexeme :: wordOf (Word.single .leftCurly '{').lexeme ::
        (inner.map word ++ [wordOf (Word.single .rightCurly '}').lexeme]) := by
  have plain (w : Word) (o : Nat) : (w.token o).word = wordOf w.lexeme := w.word_token o none
  rw [braced, List.map_cons, List.map_cons, List.map_append, List.map_singleton, words_shift,
    plain, plain, opening, Word.word_token]

end Token

open Token

/-- A text that is read as some tokens in front of a curly bracket has them between two of these. -/
theorem tokenize_enclosed {d : String} {inner : List Token} {size : Nat}
    (nests : Nests (maxDepth - 1) (some .rightCurly) inner) (laid : Laid 0 inner size)
    (words : (lexemes (d.toList ++ ['}'])).map wordOf =
      inner.map word ++ [wordOf (Word.single .rightCurly '}').lexeme]) :
    tokenize ("a\x7b" ++ d ++ "\x7d") = ⟨braced inner size, [], size + 3⟩ := by
  have front : Word.AllFit [.ident ['a'], .single .leftCurly '{'] (d.toList ++ ['}']) :=
    ⟨Word.fits_ident (by decide) rfl, Word.fits_single rfl, trivial⟩
  apply tokenize_eq_of_nests
  · refine .leaf rfl nofun rfl ?_
    refine .block rfl ?_ rfl nests.shift .nil
    rw [List.length_map]
    rfl
  · refine Laid.cons_iff.mpr ⟨rfl, rfl, Laid.cons_iff.mpr ⟨rfl, rfl, ?_⟩⟩
    have inside : Laid (0 + 2) (inner.map (shift 2)) (size + 2) := laid_shift.mpr laid
    exact Laid.append_iff.mpr ⟨_, inside, Laid.cons_iff.mpr ⟨rfl, rfl, .nil⟩⟩
  · have chars : ("a\x7b" ++ d ++ "\x7d").toList =
        Word.textOf [.ident ['a'], .single .leftCurly '{'] ++ (d.toList ++ ['}']) := by
      simp [Word.ident, Word.single]
    rw [words_braced, ← words, chars, front.lexemes_append]
    rfl

namespace TokenList

/-- A text that may stand between curly brackets, so that other statements may follow it there: it has
a semicolon last, its blocks are closed and leave room for one around them, and no closing curly
bracket stands outside of them. Where blocks are closed, the last token is in none. -/
structure Statements (list : TokenList) : Prop where
  closed : ∀ t ∈ list.tokens, t.kind.opensBlock = true → t.inside.isSome = true
  shallow : ∀ i < list.tokens.length, level list.tokens i < maxDepth
  ends : ∃ t, list.tokens.getLast? = some t ∧ t.kind = .semicolon
  inner : ∀ t ∈ topLevel list.tokens, t.kind ≠ .rightCurly

namespace Statements

variable {x : String}

theorem complete (h : (tokenize x).Statements) : (tokenize x).Complete := by
  obtain ⟨t, last, kind⟩ := h.ends
  refine ⟨⟨?_, h.closed⟩, t, last, ?_⟩
  · apply truncated_eq_nil
    intro i inside
    exact Nat.le_of_lt (h.shallow i inside)
  · rw [kind]
    rfl

theorem nests (h : (tokenize x).Statements) :
    Nests (maxDepth - 1) (some .rightCurly) (tokenize x).tokens := by
  have free := (tokenize_nests h.complete.toClosed).1
  have shallow : Scope.Shallow (maxDepth - 1) ⟨(tokenize x).tokens, 0⟩ := fun i inside =>
    Nat.le_sub_one_of_lt (h.shallow i inside)
  exact (free.lower shallow).await h.inner

end Statements

end TokenList

/-- Statements, and words of which every bracket is paired, are read alike with curly brackets around
them. -/
theorem tokenize_statements {x : String} (h : (tokenize x).Statements) (f : Forest)
    (fits : Word.AllFit f.words ['}']) (room : f.depth < maxDepth) :
    tokenize ("a\x7b" ++ (x ++ String.ofList (Word.textOf f.words)) ++ "\x7d") =
      ⟨braced ((tokenize x).tokens ++ f.tokens x.utf8ByteSize) (x.utf8ByteSize + f.width), [],
        x.utf8ByteSize + f.width + 3⟩ := by
  obtain ⟨-, laid, words⟩ := tokenize_nests h.complete.toClosed
  obtain ⟨z, last, ender⟩ := h.complete.lexemes_getLast
  rw [(tokenize_run x).2] at laid
  apply tokenize_enclosed
  · refine h.nests.append (f.nests (Nat.le_sub_one_of_lt room) ?_ _)
    rintro _ ⟨⟩
    rfl
  · exact Laid.append_iff.mpr ⟨x.utf8ByteSize, laid, f.laid _⟩
  · have bracket : lexemes ['}'] = [(Word.single .rightCurly '}').lexeme] := by
      decide +kernel
    rw [String.toList_append, String.toList_ofList, List.append_assoc,
      (lexemes_append last ender).2, fits.lexemes_append, bracket, List.map_append, List.map_append,
      words, List.map_append, f.words_tokens, List.append_assoc]
    rfl

end Stylesheet
