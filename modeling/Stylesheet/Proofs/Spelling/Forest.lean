import Stylesheet.Proofs.Closed
import Stylesheet.Proofs.Spelling.Word

/-!
# Forests of words

A forest is a sequence of words in which every bracket is paired. Pairing the brackets of its text
finds the same pairs, so the tokens of the text are those of the forest: `tokenize_forest`.

Scopes of such tokens are cut and entered along the forest, wherever they stand in the text.
-/

namespace Stylesheet

namespace Token

/-- Tells whether a kind opens or closes blocks. -/
def Kind.isBracket : Kind → Bool
  | .function | .leftParen | .leftSquare | .leftCurly | .rightParen | .rightSquare
  | .rightCurly => true
  | _ => false

namespace Word

variable {k k' : Kind} {c c' : Char} {n : Numeral.Plain} {cs unit v : List Char}

theorem plain_ident : (ident cs).kind.isBracket = false := rfl

theorem plain_hash : (hash cs).kind.isBracket = false := rfl

theorem plain_number : (number n).kind.isBracket = false := rfl

theorem plain_percentage : (percentage n).kind.isBracket = false := rfl

theorem plain_dimension : (dimension n unit).kind.isBracket = false := rfl

theorem plain_string : (string v).kind.isBracket = false := rfl

theorem plain_url : (url v).kind.isBracket = false := rfl

theorem plain_single (h : k.isBracket = false) : (single k c).kind.isBracket = false := h

theorem paired_function : (function cs).kind.closing = some (single .rightParen c).kind := rfl

theorem paired_single (h : k.closing = some k') :
    (single k c).kind.closing = some (single k' c').kind := h

end Word

/-- Words in which every bracket is paired. -/
inductive Forest where
  | nil
  | leaf (w : Word) (plain : w.kind.isBracket = false) (rest : Forest)
  | block (opener : Word) (inner : Forest) (closer : Word)
      (paired : opener.kind.closing = some closer.kind) (rest : Forest)

namespace Forest

/-- One forest after another. -/
def append : Forest → Forest → Forest
  | nil, g => g
  | leaf w plain rest, g => leaf w plain (rest.append g)
  | block opener inner closer paired rest, g => block opener inner closer paired (rest.append g)

instance : Append Forest := ⟨append⟩

/-- The words in order. -/
def words : Forest → List Word
  | nil => []
  | leaf w _ rest => w :: rest.words
  | block opener inner closer _ rest => opener :: (inner.words ++ closer :: rest.words)

/-- How deeply blocks are nested. -/
def depth : Forest → Nat
  | nil => 0
  | leaf _ _ rest => rest.depth
  | block _ inner _ _ rest => max (inner.depth + 1) rest.depth

/-- Tells whether no word outside all blocks has a kind. -/
def avoids (stop : Kind → Bool) : Forest → Bool
  | nil => true
  | leaf w _ rest => !stop w.kind && rest.avoids stop
  | block opener _ _ _ rest => !stop opener.kind && rest.avoids stop

variable {f g h : Forest} {w opener closer : Word} {stop : Kind → Bool}

@[simp] theorem words_nil : nil.words = [] := rfl

@[simp] theorem words_leaf {plain : w.kind.isBracket = false} :
    (leaf w plain f).words = w :: f.words := rfl

@[simp] theorem words_block {paired : opener.kind.closing = some closer.kind} :
    (block opener f closer paired g).words = opener :: (f.words ++ closer :: g.words) := rfl

@[simp] theorem nil_append : nil ++ g = g := rfl

@[simp] theorem leaf_append {plain : w.kind.isBracket = false} :
    leaf w plain f ++ g = leaf w plain (f ++ g) := rfl

@[simp] theorem block_append {paired : opener.kind.closing = some closer.kind} :
    block opener f closer paired g ++ h = block opener f closer paired (g ++ h) := rfl

@[simp] theorem append_nil (f : Forest) : f ++ nil = f := by
  induction f with
  | nil => rfl
  | leaf w plain rest ih => rw [leaf_append, ih]
  | block opener inner closer paired rest _ ih => rw [block_append, ih]

@[simp] theorem words_append : (f ++ g).words = f.words ++ g.words := by
  induction f with
  | nil => rfl
  | leaf w plain rest ih => rw [leaf_append, words, ih, words, List.cons_append]
  | block opener inner closer paired rest _ ih =>
    rw [block_append, words, ih, words, List.cons_append, List.append_assoc, List.cons_append]

@[simp] theorem avoids_append : (f ++ g).avoids stop = (f.avoids stop && g.avoids stop) := by
  induction f with
  | nil => rfl
  | leaf w plain rest ih => rw [leaf_append, avoids, ih, avoids, Bool.and_assoc]
  | block opener inner closer paired rest _ ih =>
    rw [block_append, avoids, ih, avoids, Bool.and_assoc]

end Forest

/-! ### Tokens of a forest -/

namespace Word

/-- The bytes of a word. -/
def width (w : Word) : Nat := (String.ofList w.text).utf8ByteSize

/-- The token of a word that starts at an offset. -/
def token (w : Word) (o : Nat) : Token := ⟨w.kind, String.ofList w.text, o, w.value, none, ""⟩

@[simp] theorem token_kind (w : Word) (o : Nat) : (w.token o).kind = w.kind := rfl

@[simp] theorem token_text (w : Word) (o : Nat) : (w.token o).text = String.ofList w.text := rfl

@[simp] theorem token_start (w : Word) (o : Nat) : (w.token o).start = o := rfl

end Word

namespace Forest

variable {f g : Forest}

/-- The bytes of a forest. -/
def width : Forest → Nat
  | nil => 0
  | leaf w _ rest => w.width + rest.width
  | block opener inner closer _ rest => opener.width + inner.width + closer.width + rest.width

/-- The tokens of a forest that starts at an offset. -/
def tokens (o : Nat) : Forest → List Token
  | nil => []
  | leaf w _ rest => w.token o :: tokens (o + w.width) rest
  | block opener inner closer _ rest =>
    { opener.token o with inside := some inner.words.length } ::
      (tokens (o + opener.width) inner ++
        closer.token (o + opener.width + inner.width) ::
          tokens (o + opener.width + inner.width + closer.width) rest)

@[simp] theorem width_append : (f ++ g).width = f.width + g.width := by
  induction f with
  | nil => exact (Nat.zero_add _).symm
  | leaf w plain rest ih => rw [leaf_append, width, ih, width, Nat.add_assoc]
  | block opener inner closer paired rest _ ih =>
    rw [block_append, width, ih, width, Nat.add_assoc _ rest.width]

@[simp] theorem tokens_append (o : Nat) :
    (f ++ g).tokens o = f.tokens o ++ g.tokens (o + f.width) := by
  induction f generalizing o with
  | nil => rfl
  | leaf w plain rest ih =>
    rw [leaf_append, tokens, ih, tokens, List.cons_append]
    simp only [width, Nat.add_assoc]
  | block opener inner closer paired rest _ ih =>
    rw [block_append, tokens, ih, tokens, List.cons_append, List.append_assoc, List.cons_append]
    simp only [width, Nat.add_assoc]

@[simp] theorem length_tokens (f : Forest) (o : Nat) : (f.tokens o).length = f.words.length := by
  induction f generalizing o with
  | nil => rfl
  | leaf w plain rest ih => rw [tokens, List.length_cons, ih, words, List.length_cons]
  | block opener inner closer paired rest ihi ih =>
    rw [tokens, words, List.length_cons, List.length_append, List.length_cons, ihi, ih,
      List.length_cons, List.length_append, List.length_cons]

end Forest

/-! ### Pairing -/

namespace Kind

variable {k c : Kind}

theorem opensBlock_of_plain (h : k.isBracket = false) : k.opensBlock = false := by
  cases k <;> first | rfl | cases h

theorem isBracket_of_closing (h : k.closing = some c) : c.isBracket = true := by
  cases k <;> simp only [closing, Option.some.injEq, reduceCtorEq] at h <;> subst h <;> rfl

theorem isTrivia_of_isBracket (h : k.isBracket = true) : k.isTrivia = false := by
  cases k <;> first | rfl | cases h

end Kind

namespace Nesting

variable {s : Nesting} {w : Word} {ts us : List Token} {o : Nat}

/-- Read on to an offset, adding tokens, last token first. -/
def readTo (s : Nesting) (o : Nat) (ts : List Token) : Nesting := { s with offset := o }.add ts

@[simp] theorem readTo_deep : (s.readTo o ts).deep = s.deep := by
  rw [readTo, add]
  split <;> rfl

@[simp] theorem readTo_offset : (s.readTo o ts).offset = o := by
  rw [readTo, add]
  split <;> rfl

@[simp] theorem readTo_blocks_length : (s.readTo o ts).blocks.length = s.blocks.length := by
  obtain ⟨offset, outer, blocks, deep, truncated⟩ := s
  cases blocks <;> rfl

theorem readTo_nil : s.readTo s.offset [] = s := by
  obtain ⟨offset, outer, blocks, deep, truncated⟩ := s
  cases blocks <;> rfl

theorem readTo_readTo {p : Nat} : (s.readTo o ts).readTo p us = s.readTo p (us ++ ts) := by
  obtain ⟨offset, outer, blocks, deep, truncated⟩ := s
  cases blocks with
  | nil => simp [readTo, add]
  | cons b bs => simp [readTo, add]

theorem step_lexeme (h : s.deep = none) :
    s.step w.lexeme = { s with offset := s.offset + w.width }.place (w.token s.offset) := by
  simp only [step, h]
  rfl

theorem step_plain (h : s.deep = none) (plain : w.kind.isBracket = false) :
    s.step w.lexeme = s.readTo (s.offset + w.width) [w.token s.offset] := by
  have opens : (w.token s.offset).kind.opensBlock = false := Kind.opensBlock_of_plain plain
  rw [step_lexeme h, place, opens, if_neg Bool.false_ne_true]
  split
  · rename_i b bs hb
    rw [if_neg]
    · rfl
    · intro closes
      have := Kind.isBracket_of_closing closes
      rw [Word.token_kind, plain] at this
      cases this
  · rfl

theorem step_opener (h : s.deep = none) (room : s.blocks.length < maxDepth)
    (opens : w.kind.opensBlock = true) :
    s.step w.lexeme =
      { s with offset := s.offset + w.width, blocks := ⟨w.token s.offset, []⟩ :: s.blocks } := by
  rw [step_lexeme h, place, Word.token_kind, if_pos opens, if_pos room]

/-- A closing word after what a block holds puts the block where it stands. -/
theorem step_closer {opener : Token} {outside : Nesting} {p : Nat} (h : outside.deep = none)
    (paired : opener.kind.closing = some w.kind) :
    ({ outside with offset := o, blocks := ⟨opener, []⟩ :: outside.blocks }.readTo p ts).step
        w.lexeme =
      outside.readTo (p + w.width)
        (w.token p :: (ts ++ [{ opener with inside := some ts.length }])) := by
  have opens : (w.token p).kind.opensBlock = false := Kind.closing_ne_opensBlock paired
  rw [step_lexeme (by rw [readTo_deep]; exact h), place, readTo_offset, opens,
    if_neg Bool.false_ne_true]
  simp only [readTo, add, List.append_nil, Word.token_kind, paired, ↓reduceIte, OpenBlock.close]

/-- Pairing the words of a forest finds its tokens, as long as there is room for its blocks. -/
theorem foldl_words (f : Forest) (h : s.deep = none)
    (room : s.blocks.length + f.depth ≤ maxDepth) :
    (f.words.map Word.lexeme).foldl step s =
      s.readTo (s.offset + f.width) (f.tokens s.offset).reverse := by
  induction f generalizing s with
  | nil => exact readTo_nil.symm
  | leaf w plain rest ih =>
    rw [Forest.words, List.map_cons, List.foldl_cons, step_plain h plain,
      ih (by rw [readTo_deep]; exact h) (by rw [readTo_blocks_length]; exact room), readTo_readTo,
      readTo_offset, Forest.tokens, List.reverse_cons]
    simp only [Forest.width, Nat.add_assoc]
  | block opener inner closer paired rest ihi ih =>
    rw [Forest.depth] at room
    rw [Forest.words, List.map_cons, List.map_append, List.map_cons, List.foldl_cons,
      List.foldl_append, List.foldl_cons,
      step_opener h (by omega) (Kind.opensBlock_of_closing paired),
      ihi (by exact h) (by dsimp only [List.length_cons]; omega), step_closer h paired,
      ih (by rw [readTo_deep]; exact h) (by rw [readTo_blocks_length]; omega), readTo_readTo,
      readTo_offset, Forest.tokens]
    simp [Forest.width, Nat.add_assoc]

end Nesting

end Token

open Token in
/-- The tokens of a text that is made of the words of a forest are the forest's. -/
theorem tokenize_forest (f : Forest) (fit : Word.AllFit f.words [])
    (room : f.depth ≤ Token.maxDepth) :
    tokenize (String.ofList (Word.textOf f.words)) = ⟨f.tokens 0, [], f.width⟩ := by
  have cut := fit.lexemes_append
  rw [List.append_nil, lexemes, List.append_nil] at cut
  rw [tokenize, String.toList_ofList, cut, Nesting.foldl_words f rfl (by simpa using room)]
  simp [Nesting.readTo, Nesting.add, Nesting.atEnd]

/-! ### Scopes -/

namespace Token

variable {f : Forest} {stop : Kind → Bool} {ts : List Token} {t : Token} {o : Nat}

/-- A search at the top level passes over a forest that has nothing to find there. -/
theorem spanTop_tokens (h : f.avoids stop) (o : Nat) (ts : List Token) :
    spanTop stop (f.tokens o ++ ts) =
      (f.tokens o ++ (spanTop stop ts).1, (spanTop stop ts).2) := by
  induction f generalizing o with
  | nil => rfl
  | leaf w plain rest ih =>
    rw [Forest.avoids, Bool.and_eq_true, Bool.not_eq_true'] at h
    rw [Forest.tokens, List.cons_append, spanTop_plain h.1 (Kind.opensBlock_of_plain plain),
      ih h.2, List.cons_append]
  | block opener inner closer paired rest _ ih =>
    rw [Forest.avoids, Bool.and_eq_true, Bool.not_eq_true'] at h
    rw [Forest.tokens, List.cons_append, List.append_assoc, List.cons_append,
      spanTop_block (by exact h.1) (by exact Kind.opensBlock_of_closing paired)
        (by rw [Forest.length_tokens]),
      ih h.2, List.cons_append, List.append_assoc, List.cons_append]

/-- Cutting a scope at a top-level token that follows a forest. -/
theorem cut_tokens (h : f.avoids stop) (found : stop t.kind) (o next : Nat) (ts : List Token) :
    Scope.cut stop ⟨f.tokens o ++ t :: ts, next⟩ = (⟨f.tokens o, t.start⟩, ⟨t :: ts, next⟩) := by
  simp only [Scope.cut, spanTop_tokens h, spanTop_found found, List.append_nil, startOf]

/-- Cutting a scope that has nothing to be cut at. -/
theorem cut_tokens_all (h : f.avoids stop) (o next : Nat) :
    Scope.cut stop ⟨f.tokens o, next⟩ = (⟨f.tokens o, next⟩, ⟨[], next⟩) := by
  have all := spanTop_tokens h o []
  rw [List.append_nil, spanTop, List.append_nil] at all
  simp only [Scope.cut, all, startOf]

end Token

namespace Scope

variable {ts : List Token} {next : Nat}

/-- No white space and no comment stands at either end. -/
def Tight (ks : List Token.Kind) : Prop :=
  (∀ k, ks.head? = some k → k.isTrivia = false) ∧ ∀ k, ks.getLast? = some k → k.isTrivia = false

theorem significant_of_head (h : ∀ t, ts.head? = some t → t.kind.isTrivia = false) :
    Token.significant ts = ts := by
  cases ts with
  | nil => rfl
  | cons t ts =>
    rw [Token.significant, List.dropWhile_cons_of_neg (by rw [h t rfl]; decide)]

theorem trim_of_tight (h : Tight (ts.map Token.kind)) : Scope.trim ⟨ts, next⟩ = ⟨ts, next⟩ := by
  have front : ∀ t, ts.head? = some t → t.kind.isTrivia = false := fun t ht =>
    h.1 t.kind (by rw [List.head?_map, ht]; rfl)
  have back : ∀ t, ts.reverse.head? = some t → t.kind.isTrivia = false := fun t ht =>
    h.2 t.kind (by rw [List.getLast?_map, ← List.head?_reverse, ht]; rfl)
  have gap : ts.reverse.takeWhile (fun t => t.kind.isTrivia) = [] := by
    cases hr : ts.reverse with
    | nil => rfl
    | cons t us => rw [List.takeWhile_cons_of_neg (by rw [back t (by rw [hr]; rfl)]; decide)]
  simp only [Scope.trim, significant_of_head front, significant_of_head back, gap,
    List.reverse_reverse, List.reverse_nil, Token.startOf]

end Scope

/-! ### Ends of forests -/

namespace Token

namespace Forest

/-- Up to places and pairing, the tokens of a forest are its words. -/
theorem map_tokens (f : Forest) (o : Nat) :
    (f.tokens o).map (fun t => (t.kind, t.text)) =
      f.words.map fun w => (w.kind, String.ofList w.text) := by
  induction f generalizing o with
  | nil => rfl
  | leaf w plain rest ih => rw [tokens, List.map_cons, ih, words, List.map_cons]; rfl
  | block opener inner closer paired rest ihi ih =>
    rw [tokens, List.map_cons, List.map_append, List.map_cons, ihi, ih, words, List.map_cons,
      List.map_append, List.map_cons]
    rfl

theorem kinds_tokens (f : Forest) (o : Nat) :
    (f.tokens o).map Token.kind = f.words.map Word.kind := by
  have faces := congrArg (List.map Prod.fst) (f.map_tokens o)
  rwa [List.map_map, List.map_map] at faces

theorem exists_word {f : Forest} {o : Nat} {t : Token} (h : t ∈ f.tokens o) :
    ∃ w ∈ f.words, w.kind = t.kind ∧ String.ofList w.text = t.text := by
  have face : (t.kind, t.text) ∈ (f.tokens o).map (fun t => (t.kind, t.text)) :=
    List.mem_map.mpr ⟨t, h, rfl⟩
  rw [f.map_tokens o] at face
  obtain ⟨w, hw, he⟩ := List.mem_map.mp face
  rw [Prod.mk.injEq] at he
  exact ⟨w, hw, he⟩

end Forest

/-- There is a first and a last kind, and neither is trivia. -/
def Firm (ks : List Kind) : Prop :=
  (∃ k, ks.head? = some k ∧ k.isTrivia = false) ∧ ∃ k, ks.getLast? = some k ∧ k.isTrivia = false

namespace Firm

variable {k : Kind} {ks ms ls : List Kind}

theorem singleton (h : k.isTrivia = false) : Firm [k] := ⟨⟨k, rfl, h⟩, k, rfl, h⟩

/-- Whatever stands between two firm sequences. -/
theorem join (h : Firm ks) (h' : Firm ls) (ms : List Kind) : Firm (ks ++ (ms ++ ls)) := by
  obtain ⟨⟨k, hk, front⟩, -⟩ := h
  obtain ⟨-, l, hl, back⟩ := h'
  refine ⟨⟨k, by rw [List.head?_append, hk]; rfl, front⟩, l, ?_, back⟩
  rw [List.getLast?_append, List.getLast?_append, hl]
  rfl

theorem append (h : Firm ks) (h' : Firm ls) : Firm (ks ++ ls) := h.join h' []

theorem tight (h : Firm ks) : Scope.Tight ks := by
  obtain ⟨⟨k, hk, front⟩, l, hl, back⟩ := h
  constructor
  · rintro k' hk'
    obtain rfl : k = k' := Option.some.inj (hk.symm.trans hk')
    exact front
  · rintro l' hl'
    obtain rfl : l = l' := Option.some.inj (hl.symm.trans hl')
    exact back

theorem isEmpty {ts : List Token} (h : Firm (ts.map Token.kind)) : ts.isEmpty = false := by
  obtain ⟨⟨k, hk, -⟩, -⟩ := h
  cases ts with
  | nil => cases hk
  | cons t ts => rfl

end Firm

/-- A block starts and ends with a bracket. -/
theorem firm_block {opener closer : Word} {inner : Forest}
    (paired : opener.kind.closing = some closer.kind) :
    Firm ((Forest.block opener inner closer paired .nil).words.map Word.kind) := by
  have front := Kind.isTrivia_of_opensBlock (Kind.opensBlock_of_closing paired)
  have back := Kind.isTrivia_of_isBracket (Kind.isBracket_of_closing paired)
  rw [Forest.words_block, List.map_cons, List.map_append, List.map_cons]
  exact Firm.join (.singleton front) (.singleton back) (inner.words.map Word.kind)

end Token

end Stylesheet
