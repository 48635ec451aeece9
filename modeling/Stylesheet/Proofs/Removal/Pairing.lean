import Stylesheet.Proofs.Concat.Tokens

/-!
# Tokens that pairing makes

Pairing brackets is a function of the lexemes, and what it makes of a text can be told without running
it: blocks lie within each other, no token inside a block is of the kind that would have closed it, and
there is room for the innermost ones. Closed tokens that are so, stand one behind the other and spell
the lexemes of a text are its tokens.
-/

namespace Stylesheet

namespace Token

/-- What a token takes over from its lexeme. -/
def word (t : Token) : Kind × Option String × List Char := (t.kind, t.value, t.text.toList)

/-- What a lexeme says of its token. -/
def wordOf (x : Lexeme × List Char) : Kind × Option String × List Char := (x.1.kind, x.1.value, x.2)

/-- Tokens that pairing makes within a block that waits for a kind of token, if in any, where blocks
may still be nested `room` deep. -/
inductive Nests : Nat → Option Kind → List Token → Prop
  | nil {room : Nat} {awaited : Option Kind} : Nests room awaited []
  | leaf {room : Nat} {awaited : Option Kind} {t : Token} {ts : List Token}
    (plain : t.kind.opensBlock = false) (other : awaited ≠ some t.kind) (alone : t.inside = none)
    (rest : Nests room awaited ts) : Nests room awaited (t :: ts)
  | block {room : Nat} {awaited : Option Kind} {opener closer : Token} {inner ts : List Token}
    (paired : opener.kind.closing = some closer.kind) (inside : opener.inside = some inner.length)
    (alone : closer.inside = none) (content : Nests room (some closer.kind) inner)
    (rest : Nests (room + 1) awaited ts) :
    Nests (room + 1) awaited (opener :: (inner ++ closer :: ts))

/-- Tokens that leave nothing out and stand one behind the other between two offsets. -/
inductive Laid : Nat → List Token → Nat → Prop
  | nil {a : Nat} : Laid a [] a
  | cons {t : Token} {ts : List Token} {b : Nat} (full : t.omitted = "") (rest : Laid t.stop ts b) :
    Laid t.start (t :: ts) b

namespace Nests

variable {room : Nat} {awaited : Option Kind} {ts us : List Token} {t : Token}

theorem append (h : Nests room awaited ts) (h' : Nests room awaited us) :
    Nests room awaited (ts ++ us) := by
  induction h with
  | nil => exact h'
  | leaf plain other alone _ ih => exact .leaf plain other alone (ih h')
  | block paired inside alone content _ _ ih =>
    rw [List.cons_append, List.append_assoc, List.cons_append]
    exact .block paired inside alone content (ih h')

/-- A token that opens no block may be left out at the front. -/
theorem of_leaf (h : Nests room awaited (t :: ts)) (plain : t.kind.opensBlock = false) :
    awaited ≠ some t.kind ∧ t.inside = none ∧ Nests room awaited ts := by
  cases h with
  | leaf _ other alone rest => exact ⟨other, alone, rest⟩
  | block paired _ _ _ _ =>
    rw [Kind.opensBlock_of_closing paired] at plain
    cases plain

/-- What a block holds is nested one deeper, and waits for its end. -/
theorem of_block {opener closer : Token} {inner : List Token}
    (h : Nests room awaited (opener :: (inner ++ closer :: ts)))
    (paired : opener.kind.closing = some closer.kind) (inside : opener.inside = some inner.length) :
    ∃ less, room = less + 1 ∧ closer.inside = none ∧ Nests less (some closer.kind) inner ∧
      Nests room awaited ts := by
  generalize he : opener :: (inner ++ closer :: ts) = us at h
  cases h with
  | nil => cases he
  | leaf plain _ _ _ =>
    obtain ⟨rfl, -⟩ := List.cons.inj he
    rw [Kind.opensBlock_of_closing paired] at plain
    cases plain
  | @block less _ opener' closer' inner' ts' paired' inside' alone content rest =>
    obtain ⟨rfl, tail⟩ := List.cons.inj he
    have length : inner.length = inner'.length := Option.some.inj (inside.symm.trans inside')
    obtain ⟨rfl, last⟩ := List.append_inj tail length
    obtain ⟨rfl, rfl⟩ := List.cons.inj last
    exact ⟨less, rfl, alone, content, rest⟩

/-- Closed tokens in front of others may be left out. -/
theorem of_append (closed : Closed ts) (h : Nests room awaited (ts ++ us)) :
    Nests room awaited ts ∧ Nests room awaited us := by
  induction closed with
  | nil => exact ⟨.nil, h⟩
  | leaf plain _ ih =>
    obtain ⟨other, alone, rest⟩ := h.of_leaf plain
    obtain ⟨front, back⟩ := ih rest
    exact ⟨.leaf plain other alone front, back⟩
  | block paired inside _ _ _ ih =>
    rw [List.cons_append, List.append_assoc, List.cons_append] at h
    obtain ⟨less, rfl, alone, content, rest⟩ := h.of_block paired inside
    obtain ⟨front, back⟩ := ih rest
    exact ⟨.block paired inside alone content front, back⟩

end Nests

namespace Laid

variable {a b : Nat} {t : Token} {ts us : List Token}

theorem nil_iff : Laid a [] b ↔ a = b := by
  constructor
  · rintro ⟨⟩
    rfl
  · rintro rfl
    exact .nil

theorem cons_iff : Laid a (t :: ts) b ↔ a = t.start ∧ t.omitted = "" ∧ Laid t.stop ts b := by
  constructor
  · intro h
    cases h with
    | cons full rest => exact ⟨rfl, full, rest⟩
  · rintro ⟨rfl, full, rest⟩
    exact .cons full rest

theorem append_iff : Laid a (ts ++ us) b ↔ ∃ m, Laid a ts m ∧ Laid m us b := by
  induction ts generalizing a with
  | nil =>
    constructor
    · exact fun h => ⟨a, .nil, h⟩
    · rintro ⟨m, ⟨⟩, h⟩
      exact h
  | cons t ts ih =>
    simp only [List.cons_append, cons_iff, ih]
    constructor
    · rintro ⟨start, full, m, front, back⟩
      exact ⟨m, ⟨start, full, front⟩, back⟩
    · rintro ⟨m, ⟨start, full, front⟩, back⟩
      exact ⟨start, full, m, front, back⟩

theorem of_run {source : String} (h : Run source a ts b) (full : ∀ t ∈ ts, t.omitted = "") :
    Laid a ts b := by
  induction h with
  | nil => exact .nil
  | @cons t ts n _ _ _ ih =>
    obtain ⟨first, later⟩ := List.forall_mem_cons.mp full
    have reach : t.reach = t.stop := by rw [reach, first]; rfl
    exact .cons first (reach ▸ ih later)

end Laid

/-! ### What pairing makes -/

namespace Nesting

variable {s : Nesting} {t : Token} {ts us : List Token} {x : Lexeme × List Char}

/-- The kind of token that ends the innermost of some open blocks. -/
def awaits (bs : List OpenBlock) : Option Kind := bs.head?.bind fun b => b.opener.kind.closing

/-- There is room for the blocks that are open, innermost first, and for what they hold. -/
def Roomy : List OpenBlock → Prop
  | [] => True
  | b :: bs =>
    (∃ room, room + (bs.length + 1) = maxDepth ∧
      Nests room b.opener.kind.closing b.content.reverse) ∧ Roomy bs

/-- Tokens in closed blocks and in those that are open are nested. -/
structure Nested (s : Nesting) : Prop where
  outer : Nests maxDepth none s.outer.reverse
  blocks : Roomy s.blocks

namespace Nested

theorem empty : Nested {} := ⟨.nil, trivial⟩

/-- Nested tokens may be added wherever the text is being read. -/
theorem add (h : s.Nested)
    (nests : ∀ room, room + s.blocks.length = maxDepth → Nests room (awaits s.blocks) ts.reverse) :
    (s.add ts).Nested := by
  obtain ⟨offset, outer, blocks, deep, truncated⟩ := s
  cases blocks with
  | nil =>
    refine ⟨?_, trivial⟩
    show Nests maxDepth none (ts ++ outer).reverse
    rw [List.reverse_append]
    exact h.outer.append (nests maxDepth rfl)
  | cons b bs =>
    obtain ⟨⟨room, fits, content⟩, roomy⟩ := h.blocks
    refine ⟨h.outer, ⟨room, fits, ?_⟩, roomy⟩
    rw [List.reverse_append]
    exact content.append (nests room fits)

theorem place (h : s.Nested) (alone : t.inside = none) : (s.place t).Nested := by
  obtain ⟨opens, room⟩ | ⟨opens, room⟩ | ⟨plain, b, bs, hb, own⟩ | ⟨plain, other⟩ :=
    place_cases s t
  · rw [place_opener opens room]
    exact ⟨h.outer, ⟨maxDepth - (s.blocks.length + 1), Nat.sub_add_cancel room, .nil⟩, h.blocks⟩
  · rw [place_deep opens room]
    exact ⟨h.outer, h.blocks⟩
  · rw [place_closer plain hb own]
    have blocks := h.blocks
    rw [hb] at blocks
    obtain ⟨⟨room, fits, content⟩, roomy⟩ := blocks
    have rest : Nested { s with blocks := bs } := ⟨h.outer, roomy⟩
    refine rest.add fun room' fits' => ?_
    obtain rfl : room' = room + 1 := by
      change room' + bs.length = maxDepth at fits'
      omega
    have block : Nests (room + 1) (awaits bs) ({ b.opener with inside := some b.content.length } ::
        (b.content.reverse ++ t :: [])) := by
      refine .block own (by rw [List.length_reverse]) alone ?_ .nil
      rwa [own] at content
    simpa [OpenBlock.close] using block
  · rw [place_other plain other]
    refine h.add fun room fits => .leaf plain ?_ alone .nil
    intro own
    cases hb : s.blocks with
    | nil =>
      rw [hb] at own
      cases own
    | cons b bs =>
      rw [hb] at own
      exact other b bs hb own

theorem foldl {xs : List (Lexeme × List Char)} (h : s.Nested) (sound : s.Sound)
    (chars : ∀ x ∈ xs, x.2 ≠ []) (none : (xs.foldl Nesting.step s).truncated = []) :
    (xs.foldl Nesting.step s).Nested := by
  induction xs generalizing s with
  | nil => exact h
  | cons x xs ih =>
    obtain ⟨first, later⟩ := List.forall_mem_cons.mp chars
    have reached := truncated_foldl (s.step x) xs
    rw [List.foldl_cons] at none
    rw [none, List.suffix_nil] at reached
    refine ih ?_ (sound.step first reached) later none
    have moved : Nested { s with offset := (s.next x).stop } := ⟨h.outer, h.blocks⟩
    rw [step_place sound.deep]
    exact moved.place rfl

end Nested

theorem word_next (s : Nesting) (x : Lexeme × List Char) : (s.next x).word = wordOf x := by
  rw [word, next, String.toList_ofList]
  rfl

/-- Every lexeme becomes one token. -/
theorem Sound.words {xs : List (Lexeme × List Char)} (h : s.Sound) (chars : ∀ x ∈ xs, x.2 ≠ [])
    (none : (xs.foldl Nesting.step s).truncated = []) :
    (xs.foldl Nesting.step s).soFar.map word = (xs.map wordOf).reverse ++ s.soFar.map word := by
  induction xs generalizing s with
  | nil => rfl
  | cons x xs ih =>
    obtain ⟨first, later⟩ := List.forall_mem_cons.mp chars
    have reached := truncated_foldl (s.step x) xs
    rw [List.foldl_cons] at none ⊢
    rw [none, List.suffix_nil] at reached
    have same := soFar_place (s := { s with offset := (s.next x).stop }) (t := s.next x) h.deep rfl
    rw [← step_place h.deep] at same
    have words := congrArg (List.map word) same
    rw [List.map_map, List.map_map] at words
    have placed : (s.step x).soFar.map word = wordOf x :: s.soFar.map word := by
      refine words.trans ?_
      rw [List.map_cons]
      exact congrArg (· :: _) (word_next s x)
    rw [ih (h.step first reached) later none, placed]
    simp

/-! ### Making the tokens again -/

theorem add_add (s : Nesting) (ts us : List Token) : (s.add us).add ts = s.add (ts ++ us) := by
  obtain ⟨offset, outer, blocks, deep, truncated⟩ := s
  cases blocks with
  | nil => simp [Nesting.add]
  | cons b bs => simp [Nesting.add]

theorem offset_then_add (s : Nesting) (n m : Nat) (ts : List Token) :
    { ({ s with offset := n } : Nesting).add ts with offset := m } =
      { s.add ts with offset := m } := by
  obtain ⟨offset, outer, blocks, deep, truncated⟩ := s
  cases blocks <;> rfl

theorem blocks_add_length (s : Nesting) (ts : List Token) :
    (s.add ts).blocks.length = s.blocks.length := by
  obtain ⟨offset, outer, blocks, deep, truncated⟩ := s
  cases blocks <;> rfl

theorem awaits_add (s : Nesting) (ts : List Token) : awaits (s.add ts).blocks = awaits s.blocks := by
  obtain ⟨offset, outer, blocks, deep, truncated⟩ := s
  cases blocks <;> rfl

/-- A token that is not paired is the one that its lexeme makes. -/
theorem next_eq (words : wordOf x = t.word) (start : t.start = s.offset) (alone : t.inside = none)
    (full : t.omitted = "") : s.next x = t := by
  rw [wordOf, word, Prod.mk.injEq, Prod.mk.injEq] at words
  obtain ⟨kind, value, chars⟩ := words
  rw [next, kind, value, chars, String.ofList_toList, ← start, ← alone, ← full]

/-- Where some tokens fit, their lexemes are read as these tokens. -/
theorem foldl_step {room b : Nat} {awaited : Option Kind} {xs : List (Lexeme × List Char)}
    (h : Nests room awaited ts) (ha : awaited = awaits s.blocks)
    (fits : room + s.blocks.length = maxDepth) (deep : s.deep = none) (laid : Laid s.offset ts b)
    (words : xs.map wordOf = ts.map word) :
    xs.foldl step s = { s.add ts.reverse with offset := b } := by
  induction h generalizing s xs b with
  | nil =>
    obtain rfl := List.map_eq_nil_iff.mp words
    obtain rfl := Laid.nil_iff.mp laid
    obtain ⟨offset, outer, blocks, deep, truncated⟩ := s
    cases blocks <;> rfl
  | @leaf room awaited t ts plain other alone rest ih =>
    obtain ⟨x, xs, rfl, hx, hxs⟩ := List.map_eq_cons_iff.mp words
    obtain ⟨start, full, laid⟩ := Laid.cons_iff.mp laid
    have next := next_eq hx start.symm alone full
    have read : s.step x = { s with offset := t.stop }.add [t] := by
      rw [step_place deep, next]
      refine place_other plain fun b bs blocks own => other ?_
      rw [ha, awaits]
      change s.blocks = b :: bs at blocks
      rw [blocks]
      exact own
    rw [List.foldl_cons, read, ih (by rw [awaits_add]; exact ha)
      (by rw [blocks_add_length]; exact fits) (by rw [deep_add]; exact deep)
      (by rw [offset_add]; exact laid) hxs, add_add]
    rw [offset_then_add, List.reverse_cons]
  | @block room awaited opener closer inner ts paired inside alone content rest ihContent ihRest =>
    obtain ⟨x, xs, rfl, hx, hxs⟩ := List.map_eq_cons_iff.mp words
    rw [List.map_append] at hxs
    obtain ⟨ys, zs, rfl, hys, hzs⟩ := List.map_eq_append_iff.mp hxs
    obtain ⟨z, zs, rfl, hz, hzs⟩ := List.map_eq_cons_iff.mp hzs
    obtain ⟨start, full, laid⟩ := Laid.cons_iff.mp laid
    obtain ⟨m, laidInner, laid⟩ := Laid.append_iff.mp laid
    obtain ⟨rfl, fullCloser, laid⟩ := Laid.cons_iff.mp laid
    have opens := Kind.opensBlock_of_closing paired
    have first : s.step x = { s with
        offset := opener.stop, blocks := ⟨{ opener with inside := none }, []⟩ :: s.blocks } := by
      have next : s.next x = { opener with inside := none } :=
        next_eq (t := { opener with inside := none }) hx start.symm rfl full
      rw [step_place deep, next]
      refine place_opener opens ?_
      show s.blocks.length < maxDepth
      omega
    have content : ys.foldl step (s.step x) = { s with
        offset := closer.start
        blocks := ⟨{ opener with inside := none }, inner.reverse⟩ :: s.blocks } := by
      have awaited : awaits (s.step x).blocks = some closer.kind := by
        rw [first]
        exact paired
      have length : (s.step x).blocks.length = s.blocks.length + 1 := by rw [first]; rfl
      rw [ihContent awaited.symm (by rw [length]; omega) (by rw [first]; exact deep)
        (by rw [first]; exact laidInner) hys, first]
      simp [add]
    have last : ({ s with
        offset := closer.start
        blocks := ⟨{ opener with inside := none }, inner.reverse⟩ :: s.blocks } : Nesting).step z =
        { s with offset := closer.stop }.add (opener :: (inner ++ [closer])).reverse := by
      refine (step_place (by exact deep)).trans ?_
      rw [next_eq hz rfl alone fullCloser]
      refine (place_closer (Kind.closing_ne_opensBlock paired) rfl paired).trans ?_
      have block : OpenBlock.close ⟨{ opener with inside := none }, inner.reverse⟩ closer =
          (opener :: (inner ++ [closer])).reverse := by
        rw [OpenBlock.close]
        simp [← inside]
      rw [block]
    rw [List.foldl_cons, List.foldl_append, List.foldl_cons, content, last,
      ihRest (by rw [awaits_add]; exact ha) (by rw [blocks_add_length]; exact fits)
        (by rw [deep_add]; exact deep) (by rw [offset_add]; exact laid) hzs,
      add_add, offset_then_add]
    simp

end Nesting

end Token

open Token

/-- The tokens of a text are the only nested ones that spell its lexemes. -/
theorem tokenize_eq_of_nests {source : String} {ts : List Token} {b : Nat}
    (nests : Nests maxDepth none ts) (laid : Laid 0 ts b)
    (words : (lexemes source.toList).map wordOf = ts.map word) : tokenize source = ⟨ts, [], b⟩ := by
  have read := Nesting.foldl_step (s := {}) nests rfl rfl rfl laid words
  rw [TokenList.tokenize_eq, TokenList.stateOf, read]
  simp [Nesting.add, Nesting.atEnd]

/-- Where nothing is left out or open, the tokens of a text are nested, laid out and spell its
lexemes. -/
theorem tokenize_nests {source : String} (h : (tokenize source).Closed) :
    Nests maxDepth none (tokenize source).tokens ∧
      Laid 0 (tokenize source).tokens (tokenize source).size ∧
      (lexemes source.toList).map wordOf = (tokenize source).tokens.map word := by
  have sound := TokenList.stateOf_sound h.full
  have none : (TokenList.stateOf source).truncated = [] := List.reverse_eq_nil_iff.mp h.full
  have chars := lexemes_chars source.toList
  refine ⟨?_, ?_, ?_⟩
  · have nested := Nesting.Nested.empty.foldl Nesting.Sound.empty chars none
    have outer := nested.outer
    change Nests maxDepth Option.none (TokenList.stateOf source).outer.reverse at outer
    rwa [h.outer_eq, List.reverse_reverse] at outer
  · refine Laid.of_run (tokenize_run source).1 fun t ht => ?_
    rw [TokenList.tokens_eq h.full, List.mem_reverse] at ht
    exact (sound.full t ht).1
  · have words := Nesting.Sound.empty.words chars none
    rw [TokenList.tokens_eq h.full, List.map_reverse]
    have read : (TokenList.stateOf source).soFar.map word = _ := words
    rw [read]
    simp [Nesting.soFar]

end Stylesheet
