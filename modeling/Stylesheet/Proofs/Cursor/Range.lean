import Stylesheet.Proofs.Matched
import Stylesheet.Proofs.Spelt

/-!
# Reading by index

Scopes are lists, so nothing can be read beyond their ends. Here the same is read by a cursor that
moves through the indices of all tokens, as far as a limit. Every access is checked: a token must
have the index that is asked for, a slice of the text must start before it stops and may not cut a
character, and the cursor must move ahead and stay within its limit. Reading stops without an answer
where a check fails.

Each check succeeds on a range of indices that holds the tokens of a scope, and what is found there
is what the scope says.
-/

namespace Stylesheet

/-- A text and its tokens. -/
structure Input where
  text : String
  list : TokenList

namespace Input

variable (x : Input)

/-! ### Checked steps -/

/-- The token with an index. -/
def token (i : Nat) : Option Token := x.list.tokens[i]?

/-- Offset of a token, or of the end of the text if there is none. -/
def offset (i : Nat) : Nat := (x.list.tokens[i]?.map Token.start).getD x.list.size

/-- A place ahead of `i`, no further than a limit. -/
abbrev Ahead (i limit : Nat) : Type := { n : Nat // i < n ∧ n ≤ limit }

/-- A range inside the one from `i` to a limit. -/
abbrev Within (i limit : Nat) : Type := { r : Nat × Nat // i ≤ r.1 ∧ r.1 ≤ r.2 ∧ r.2 ≤ limit }

/-- Move a cursor from `i` to `next`: ahead, and no further than its limit. -/
def advance (i limit next : Nat) : Option (Ahead i limit) :=
  if h : i < next ∧ next ≤ limit then some ⟨next, h⟩ else none

/-- Narrow a range: `start` and `stop` lie between `i` and `limit`, in order. -/
def narrow (i limit start stop : Nat) : Option (Within i limit) :=
  if h : i ≤ start ∧ start ≤ stop ∧ stop ≤ limit then some ⟨(start, stop), h⟩ else none

/-- The source text of a token. -/
def textAt (i : Nat) : Option String := do
  let t ← x.token i
  Text.slice? x.text t.start t.stop

/-- The token at a place with its text, if the place is below the limit. -/
def peek (i limit : Nat) : Option (Option Token) :=
  if i < limit then do
    let t ← x.token i
    let text ← x.textAt i
    some (some { t with text })
  else some none

/-- The source text of the tokens in a range. -/
def slice (i j : Nat) : Option String :=
  if j ≤ i then some ""
  else do
    let first ← x.token i
    let last ← x.token (j - 1)
    Text.slice? x.text first.start last.stop

/-- Where the tokens in a range end; an empty range ends where its next token starts. -/
def endOffset (i j : Nat) : Option Nat :=
  if i < j then (x.token (j - 1)).map Token.stop else some (x.offset i)

/-- The bytes that the tokens in a range cover. -/
def span (i j : Nat) : Option Span := do
  let stop ← x.endOffset i j
  some ⟨x.offset i, max stop (x.offset i)⟩

/-- The tokens in a range as raw text. -/
def raw (i j : Nat) : Option Located := do
  let text ← x.slice i j
  let span ← x.span i j
  some (Located.leaf .raw (.value text) span)

/-- The first place from `i` on that holds neither white space nor a comment. -/
def significant (i limit : Nat) : Option Nat :=
  if _h : i < limit then do
    let t ← x.token i
    if t.kind.isTrivia then significant (i + 1) limit else some i
  else some i
termination_by limit - i

/-- Leave out white space and comments at the end of a range. -/
def trimEnd (i limit : Nat) : Option Nat :=
  if _h : i < limit then do
    let t ← x.token (limit - 1)
    if t.kind.isTrivia then trimEnd i (limit - 1) else some limit
  else some limit
termination_by limit

/-- Leave out white space and comments at both ends of a range. -/
def trim (i limit : Nat) : Option (Within i limit) := do
  let start ← x.significant i limit
  let stop ← x.trimEnd start limit
  narrow i limit start stop

/-- Just past the component that starts at a place. A block that is not closed below the limit takes
up the rest. -/
def componentEnd (i limit : Nat) : Option Nat := do
  let t ← x.token i
  if t.kind.opensBlock then
    match x.list.close? i with
    | some c => some (if c < limit then c + 1 else limit)
    | none => some limit
  else some (i + 1)

/-- The first place at the top level whose token is selected. -/
def find (f : Token.Kind → Bool) (i limit : Nat) : Option (Option Nat) :=
  if i < limit then do
    let t ← x.token i
    if f t.kind then some (some i)
    else do
      let next ← x.componentEnd i limit
      let ⟨next, _⟩ ← advance i limit next
      find f next limit
  else some none
termination_by limit - i

/-- Pass the components of a range up to its end, as is done to find all commas of a list before the
first of its parts is read. -/
def scan (i limit : Nat) : Option Unit := do
  let _ ← x.find (fun _ => false) i limit
  some ()

/-- Look at every token of a range. -/
def visit (i limit : Nat) : Option Unit :=
  if i < limit then do
    let _ ← x.token i
    visit (i + 1) limit
  else some ()
termination_by limit - i

/-- Cut a range at the first place whose token is selected, or at its limit. -/
def cut (f : Token.Kind → Bool) (i limit : Nat) : Option { n : Nat // i ≤ n ∧ n ≤ limit } := do
  let found ← x.find f i limit
  if h : i ≤ found.getD limit ∧ found.getD limit ≤ limit then some ⟨found.getD limit, h⟩ else none

/-- Where the content of a block ends: at the token that closes it, unless that lies beyond the
limit. -/
def innerEnd (i limit : Nat) : Option (Ahead i limit) := do
  let _ ← x.token i
  match x.list.close? i with
  | some c => advance i limit (if c ≤ limit then c else limit)
  | none => advance i limit limit

/-- The error of the block that opens at `i` and is not closed below the limit. -/
def missing (i limit : Nat) : Option SyntaxError := do
  let opener ← x.token i
  let found ← x.endOffset i limit
  some ⟨Block.missing opener.kind, found⟩

/-- The errors of a block that is passed over whole. -/
def unclosed (i limit : Nat) : Option (List SyntaxError) :=
  match x.list.close? i with
  | some c => if c < limit then some [] else (x.missing i limit).map ([·])
  | none => (x.missing i limit).map ([·])

/-- Leave a block whose content ends at `inner`: the place just past it, the offset where it ends,
and an error if it is not closed there. -/
def leave (i inner limit : Nat) : Option (Nat × Nat × List SyntaxError) := do
  let open' : Option (Nat × Nat × List SyntaxError) := do
    let error ← x.missing i limit
    let stop ← x.endOffset i inner
    some (inner, stop, [error])
  match x.list.close? i with
  | some c =>
    if c = inner then do
      let closer ← x.token c
      some (c + 1, closer.stop, [])
    else open'
  | none => open'

/-! ### Ranges that hold a scope -/

/-- The tokens from `i` up to `j` are those of a scope, and no block is cut at its ends. -/
structure Holds (i j : Nat) (s : Scope) : Prop where
  stands : ∃ front back, x.list.tokens = front ++ (s.tokens ++ back) ∧ front.length = i ∧
    s.next = Token.startOf back x.list.size
  stop : i + s.tokens.length = j
  matched : Token.Matched s.tokens
  lies : s.LiesIn x.text
  spelt : ∀ t ∈ s.tokens, Token.Spelt t.kind t.text

variable {x} {i j : Nat} {s p : Scope} {t : Token} {ts : List Token} {next : Nat}
variable {f : Token.Kind → Bool}

theorem advance_eq {i limit next : Nat} (h : i < next ∧ next ≤ limit) :
    advance i limit next = some ⟨next, h⟩ := dif_pos h

theorem narrow_eq {i limit start stop : Nat} (h : i ≤ start ∧ start ≤ stop ∧ stop ≤ limit) :
    narrow i limit start stop = some ⟨(start, stop), h⟩ := dif_pos h

namespace Holds

theorem le (h : x.Holds i j s) : i ≤ j := by
  have := h.stop
  omega

theorem lt (h : x.Holds i j ⟨t :: ts, next⟩) : i < j := by
  have := h.stop
  simp only [List.length_cons] at this
  omega

theorem eq_of_nil (h : x.Holds i j ⟨[], next⟩) : i = j := h.stop

theorem nil_iff (h : x.Holds i j s) : i = j ↔ s.tokens = [] := by
  rw [← h.stop, ← List.length_eq_zero_iff]
  omega

theorem not_lt (h : x.Holds i j ⟨[], next⟩) : ¬i < j := by
  rw [h.eq_of_nil]
  exact Nat.lt_irrefl j

theorem eq_iff (h : x.Holds i j s) : i = j ↔ s.tokens.isEmpty = true :=
  h.nil_iff.trans List.isEmpty_iff.symm

theorem lt_iff (h : x.Holds i j s) : i < j ↔ ¬s.tokens.isEmpty = true := by
  rw [← h.eq_iff, Nat.lt_iff_le_and_ne]
  exact and_iff_right h.le

/-- A token of the scope has its index. -/
theorem token_of_split {us : List Token} (h : x.Holds i j s) (split : s.tokens = ts ++ t :: us) :
    x.token (i + ts.length) = some t := by
  obtain ⟨front, back, tokens, rfl, -⟩ := h.stands
  rw [token, tokens, split, List.getElem?_append_right (by omega)]
  simp

theorem token_head (h : x.Holds i j ⟨t :: ts, next⟩) : x.token i = some t :=
  h.token_of_split (List.nil_append (t :: ts)).symm

/-- The last token of the scope stands right before its end. -/
theorem last (h : x.Holds i j ⟨ts ++ [t], next⟩) : i + ts.length = j - 1 := by
  have := h.stop
  simp only [List.length_append, List.length_singleton] at this
  omega

theorem lt_of_concat (h : x.Holds i j ⟨ts ++ [t], next⟩) : i < j := by
  have := h.stop
  simp only [List.length_append, List.length_singleton] at this
  omega

theorem token_last (h : x.Holds i j ⟨ts ++ [t], next⟩) : x.token (j - 1) = some t := by
  rw [← h.last]
  exact h.token_of_split rfl

/-- What starts where the scope ends. -/
theorem offset_stop (h : x.Holds i j s) : x.offset j = s.next := by
  obtain ⟨front, back, tokens, rfl, next⟩ := h.stands
  have stop := h.stop
  rw [offset, tokens, next, ← List.append_assoc, List.getElem?_append_right (by simp [stop])]
  rw [List.length_append, stop, Nat.sub_self]
  cases back <;> rfl

theorem offset_start (h : x.Holds i j s) : x.offset i = s.start := by
  obtain ⟨tokens, next⟩ := s
  cases tokens with
  | nil =>
    rw [h.eq_of_nil]
    exact h.offset_stop
  | cons t ts =>
    have found := h.token_head
    rw [token] at found
    rw [offset, found]
    rfl

/-- Where nothing is left of a range stands what follows its scope. -/
theorem offset_of_isEmpty (h : x.Holds i j s) (empty : s.tokens.isEmpty = true) :
    x.offset i = s.next := by
  rw [h.eq_iff.mpr empty, h.offset_stop]

/-- A part of the scope is held by a part of the range. -/
theorem part (front back : List Token) (h : x.Holds i j s)
    (split : s.tokens = front ++ (p.tokens ++ back)) (next : p.next = Token.startOf back s.next)
    (matched : Token.Matched p.tokens) :
    x.Holds (i + front.length) (i + front.length + p.tokens.length) p := by
  obtain ⟨before, after, tokens, rfl, hn⟩ := h.stands
  refine ⟨⟨before ++ front, back ++ after, ?_, by simp, ?_⟩, rfl, matched,
    Scope.IsPart.liesIn ⟨front, back, split, next⟩ h.lies, fun t ht => h.spelt t ?_⟩
  · rw [tokens, split]
    simp
  · rw [next, hn, Token.startOf_append]
  · rw [split]
    exact List.mem_append_right _ (List.mem_append_left _ ht)

/-- What follows some tokens of the scope. -/
theorem suffix (front : List Token) (h : x.Holds i j s) (split : s.tokens = front ++ ts)
    (matched : Token.Matched ts) : x.Holds (i + front.length) j ⟨ts, s.next⟩ := by
  have held := h.part (p := ⟨ts, s.next⟩) front [] (by rw [split, List.append_nil]) rfl matched
  have stop := h.stop
  rw [split, List.length_append] at stop
  rwa [show i + front.length + (⟨ts, s.next⟩ : Scope).tokens.length = j by
    rw [← stop, Nat.add_assoc]] at held

theorem tail (h : x.Holds i j ⟨t :: ts, next⟩) (matched : Token.Matched ts) :
    x.Holds (i + 1) j ⟨ts, next⟩ :=
  h.suffix [t] rfl matched

/-- What stands before some tokens of the scope. -/
theorem front {us : List Token} (h : x.Holds i j s) (split : s.tokens = ts ++ us)
    (matched : Token.Matched ts) :
    x.Holds i (i + ts.length) ⟨ts, Token.startOf us s.next⟩ :=
  h.part (p := ⟨ts, Token.startOf us s.next⟩) [] us split rfl matched

/-- Two adjacent ranges hold the tokens of both scopes. -/
theorem append {k : Nat} {q : Scope} (h : x.Holds i k p) (h' : x.Holds k j q) :
    x.Holds i j ⟨p.tokens ++ q.tokens, q.next⟩ := by
  obtain ⟨front, back, tokens, rfl, -⟩ := h.stands
  obtain ⟨front', back', tokens', length, next⟩ := h'.stands
  have stop := h.stop
  have same : (front ++ p.tokens) ++ back = front' ++ (q.tokens ++ back') := by
    rw [List.append_assoc, ← tokens, tokens']
  obtain ⟨rfl, rfl⟩ := List.append_inj same (by rw [List.length_append, stop, length])
  have between : p.next = q.start := h.offset_stop.symm.trans h'.offset_start
  refine ⟨⟨front, back', by rw [tokens]; simp, rfl, next⟩, ?_, h.matched.append h'.matched, ?_, ?_⟩
  · rw [List.length_append, ← Nat.add_assoc, stop, h'.stop]
  · have start : Scope.start ⟨p.tokens ++ q.tokens, q.next⟩ = p.start := by
      rw [Scope.start, Token.startOf_append, ← Scope.start, ← between]
      rfl
    rw [Scope.LiesIn, start]
    exact Token.Run.append_iff.mpr ⟨p.next, h.lies, between ▸ h'.lies⟩
  · intro t ht
    obtain ht | ht := List.mem_append.mp ht
    · exact h.spelt t ht
    · exact h'.spelt t ht

theorem endOffset (h : x.Holds i j s) : x.endOffset i j = some s.stop := by
  obtain ⟨tokens, next⟩ := s
  obtain rfl | ⟨front, last, rfl⟩ := List.eq_nil_or_concat tokens
  · rw [Input.endOffset, h.eq_of_nil, if_neg (Nat.lt_irrefl j), h.offset_stop]
    rfl
  · rw [List.concat_eq_append] at h ⊢
    rw [Input.endOffset, if_pos h.lt_of_concat, h.token_last]
    simp [Scope.stop]

theorem span (h : x.Holds i j s) : x.span i j = some s.span := by
  have le := h.lies.start_le_stop
  rw [Input.span, h.endOffset, h.offset_start]
  simp only [Option.bind_eq_bind, Option.bind_some, Nat.max_eq_left le]
  rfl

/-- The text of a scope is what stands in the source between its ends. -/
theorem slice (h : x.Holds i j s) : x.slice i j = some s.text := by
  obtain ⟨tokens, next⟩ := s
  obtain rfl | ⟨front, last, rfl⟩ := List.eq_nil_or_concat tokens
  · rw [Input.slice, if_pos (Nat.le_of_eq h.eq_of_nil.symm)]
    rfl
  · rw [List.concat_eq_append] at h ⊢
    obtain ⟨stands, stop⟩ := h.lies.stands_sourceText
    have lt : ¬j ≤ i := Nat.not_le_of_lt h.lt_of_concat
    have first : ∃ u, x.token i = some u ∧ u.start = Scope.start ⟨front ++ [last], next⟩ := by
      cases front with
      | nil => exact ⟨last, h.token_head, rfl⟩
      | cons u us => exact ⟨u, h.token_head, rfl⟩
    obtain ⟨u, found, start⟩ := first
    rw [Input.slice, if_neg lt, found, h.token_last]
    simp only [Option.bind_eq_bind, Option.bind_some]
    rw [start, ← stop, stands.slice?, String.ofList_toList]
    rfl

theorem raw (h : x.Holds i j s) : x.raw i j = some (Located.raw s) := by
  rw [Input.raw, h.slice, h.span]
  rfl

/-- The text of a token of the scope is a slice of the source. -/
theorem textAt_of_split {us : List Token} (h : x.Holds i j s) (split : s.tokens = ts ++ t :: us) :
    x.textAt (i + ts.length) = some t.text := by
  have lies := h.lies
  rw [Scope.LiesIn, split] at lies
  obtain ⟨_, -, rest⟩ := Token.Run.append_iff.mp lies
  obtain ⟨-, stands, -, -⟩ := Token.Run.cons_iff.mp rest
  have slice := stands.left.slice?
  rw [Text.width_toList, String.ofList_toList] at slice
  rw [Input.textAt, h.token_of_split split]
  exact slice

theorem textAt (h : x.Holds i j ⟨t :: ts, next⟩) : x.textAt i = some t.text :=
  h.textAt_of_split (List.nil_append (t :: ts)).symm

theorem textAt_last (h : x.Holds i j ⟨ts ++ [t], next⟩) : x.textAt (j - 1) = some t.text := by
  rw [← h.last]
  exact h.textAt_of_split rfl

theorem peek (h : x.Holds i j s) : x.peek i j = some s.tokens.head? := by
  obtain ⟨tokens, next⟩ := s
  cases tokens with
  | nil => rw [Input.peek, if_neg h.not_lt, List.head?_nil]
  | cons t ts =>
    rw [Input.peek, if_pos h.lt, h.token_head]
    simp only [Option.bind_eq_bind, Option.bind_some]
    rw [h.textAt]
    rfl

/-- All tokens of the scope that follow some of them are there to be looked at. -/
theorem visit_of_split {us : List Token} (h : x.Holds i j s) (split : s.tokens = ts ++ us) :
    x.visit (i + ts.length) j = some () := by
  induction us generalizing ts with
  | nil =>
    have stop := h.stop
    rw [split, List.append_nil] at stop
    rw [Input.visit, if_neg (by omega)]
  | cons t us ih =>
    have stop := h.stop
    rw [split, List.length_append, List.length_cons] at stop
    have passed : s.tokens = (ts ++ [t]) ++ us := by
      rw [split, List.append_assoc, List.singleton_append]
    have later := ih passed
    rw [List.length_append, List.length_singleton, ← Nat.add_assoc] at later
    rw [Input.visit, if_pos (by omega), h.token_of_split split]
    exact later

theorem visit (h : x.Holds i j s) : x.visit i j = some () :=
  h.visit_of_split (List.nil_append s.tokens).symm

/-! ### White space at the ends -/

theorem significant (h : x.Holds i j s) :
    ∃ k, x.significant i j = some k ∧ i ≤ k ∧ x.Holds k j s.trimStart := by
  obtain ⟨tokens, next⟩ := s
  induction tokens generalizing i with
  | nil =>
    refine ⟨i, ?_, Nat.le_refl i, h⟩
    rw [Input.significant, dif_neg h.not_lt]
  | cons t ts ih =>
    rw [Input.significant, dif_pos h.lt, h.token_head, Scope.trimStart, Token.significant,
      List.dropWhile_cons]
    simp only [Option.bind_eq_bind, Option.bind_some]
    split
    · rename_i trivia
      have plain := Token.Kind.opensBlock_of_isTrivia trivia
      obtain ⟨k, found, le, held⟩ := ih (h.tail (h.matched.of_leaf plain))
      exact ⟨k, found, by omega, held⟩
    · exact ⟨i, rfl, Nat.le_refl i, h⟩

/-- What trimming a list at its end leaves, and where the rest starts. -/
theorem trimEnd {back : List Token} (h : x.Holds i j ⟨back.reverse, next⟩) :
    ∃ k, x.trimEnd i j = some k ∧ i ≤ k ∧ k ≤ j ∧
      x.Holds i k ⟨(Token.significant back).reverse,
        Token.startOf (back.takeWhile fun t => t.kind.isTrivia).reverse next⟩ := by
  induction back generalizing j next with
  | nil =>
    refine ⟨j, ?_, h.le, Nat.le_refl j, h⟩
    rw [Input.trimEnd, dif_neg h.not_lt]
  | cons t back ih =>
    rw [List.reverse_cons] at h
    rw [Input.trimEnd, dif_pos h.lt_of_concat, h.token_last, Token.significant, List.dropWhile_cons,
      List.takeWhile_cons]
    simp only [Option.bind_eq_bind, Option.bind_some]
    split
    · rename_i trivia
      have held := h.front rfl (h.matched.of_trivia trivia)
      rw [h.last] at held
      obtain ⟨k, found, lo, hi, held⟩ := ih held
      refine ⟨k, found, lo, by omega, ?_⟩
      rw [List.reverse_cons, Token.startOf_append]
      exact held
    · refine ⟨j, rfl, h.le, Nat.le_refl j, ?_⟩
      rw [List.reverse_cons]
      exact h

/-- Trimming leaves out what it passes at the front, and then what it passes at the end. -/
theorem trim_front (h : x.Holds i j s) :
    ∃ r, x.trim i j = some r ∧ x.Holds r.1.1 j s.trimStart ∧ x.Holds r.1.1 r.1.2 s.trim := by
  obtain ⟨a, start, lo, front⟩ := h.significant
  have held := front
  rw [Scope.trimStart, ← List.reverse_reverse (Token.significant s.tokens)] at held
  obtain ⟨b, stop, le, hi, held⟩ := held.trimEnd
  refine ⟨⟨(a, b), lo, le, hi⟩, ?_, front, held⟩
  rw [Input.trim, start]
  simp only [Option.bind_eq_bind, Option.bind_some]
  rw [stop, Option.bind_some, narrow_eq]

theorem trim (h : x.Holds i j s) :
    ∃ r, x.trim i j = some r ∧ x.Holds r.1.1 r.1.2 s.trim := by
  obtain ⟨r, found, -, held⟩ := h.trim_front
  exact ⟨r, found, held⟩

/-! ### Blocks -/

theorem close? (h : x.Holds i j ⟨t :: ts, next⟩) :
    x.list.close? i = t.inside.map (i + 1 + ·) := by
  have found := h.token_head
  rw [token] at found
  rw [TokenList.close?, found, Option.bind_some]

theorem componentEnd (h : x.Holds i j ⟨t :: ts, next⟩) :
    x.componentEnd i j = some (i + 1 + t.more ts) := by
  have stop := h.stop
  rw [List.length_cons] at stop
  rw [Input.componentEnd, h.token_head, Token.more]
  simp only [Option.bind_eq_bind, Option.bind_some]
  split
  · rename_i opens
    rw [h.close?]
    cases inside : t.inside with
    | none =>
      simp only [Option.map_none, Option.some.injEq]
      omega
    | some n =>
      obtain ⟨inner, closer, rest, rfl, rfl, -, -, -⟩ := h.matched.of_closed opens inside
      simp only [Option.map_some, List.length_append, List.length_cons] at stop ⊢
      rw [if_pos (by omega)]
      congr 1
      omega
  · rfl

/-- What follows the first component is matched. -/
theorem matched_drop (h : Token.Matched (t :: ts)) : Token.Matched (ts.drop (t.more ts)) := by
  rw [Token.more]
  cases opens : t.kind.opensBlock with
  | false => exact h.of_leaf opens
  | true =>
    rw [if_pos rfl]
    cases inside : t.inside with
    | none =>
      dsimp only
      rw [List.drop_length]
      exact .nil
    | some n =>
      obtain ⟨inner, closer, rest, rfl, rfl, -, -, later⟩ := h.of_closed opens inside
      have more : min (inner.length + 1) (inner ++ closer :: rest).length =
          (inner ++ [closer]).length := by simp
      dsimp only
      rw [more, List.append_cons inner closer rest, List.drop_left]
      exact later

theorem find (f : Token.Kind → Bool) (h : x.Holds i j s) :
    x.find f i j = some (if (s.cut f).2.tokens = [] then none
      else some (i + (s.cut f).1.tokens.length)) := by
  obtain ⟨tokens, next⟩ := s
  have cut : (Scope.cut f ⟨tokens, next⟩).1.tokens = (Token.spanTop f tokens).1 ∧
      (Scope.cut f ⟨tokens, next⟩).2.tokens = (Token.spanTop f tokens).2 := ⟨rfl, rfl⟩
  rw [cut.1, cut.2]
  clear cut
  fun_induction Token.spanTop f tokens generalizing i with
  | case1 =>
    rw [Input.find, if_neg h.not_lt, if_pos rfl]
  | case2 t ts found =>
    rw [Input.find, if_pos h.lt, h.token_head]
    simp [found]
  | case3 t ts other before found eq ih =>
    have rest := h.suffix (t :: ts.take (t.more ts))
      (by rw [List.cons_append, List.take_append_drop]) (matched_drop h.matched)
    have length : (t :: ts.take (t.more ts)).length = 1 + t.more ts := by
      have : t.more ts ≤ ts.length := by
        rw [Token.more]
        split
        · split
          · exact Nat.min_le_right _ _
          · exact Nat.le_refl _
        · exact Nat.zero_le _
      rw [List.length_cons, List.length_take, Nat.min_eq_left this, Nat.add_comm]
    rw [length, ← Nat.add_assoc] at rest
    have ahead : i < i + 1 + t.more ts ∧ i + 1 + t.more ts ≤ j := ⟨by omega, rest.le⟩
    rw [Input.find, if_pos h.lt, h.token_head]
    simp only [Option.bind_eq_bind, Option.bind_some]
    rw [if_neg other, h.componentEnd]
    simp only [Option.bind_some]
    rw [advance_eq ahead]
    simp only [Option.bind_some]
    rw [ih rest, eq]
    split
    · rfl
    · congr 2
      dsimp only
      rw [List.length_cons, List.length_append]
      rw [List.length_cons] at length
      omega

theorem scan (h : x.Holds i j s) : x.scan i j = some () := by
  rw [Input.scan, h.find]
  rfl

/-- A range is cut where its scope is cut. -/
theorem cut (f : Token.Kind → Bool) (h : x.Holds i j s) :
    ∃ e, x.cut f i j = some e ∧ x.Holds i e.1 (s.cut f).1 ∧ x.Holds e.1 j (s.cut f).2 := by
  have split := (Token.spanTop_append f s.tokens).symm
  obtain ⟨before, found⟩ := Scope.matched_cut h.matched
  have first := h.front split before
  have later := h.suffix _ split found
  have place : (if (s.cut f).2.tokens = [] then none
      else some (i + (s.cut f).1.tokens.length)).getD j = i + (s.cut f).1.tokens.length := by
    split
    · rename_i nothing
      exact (later.nil_iff.mpr nothing).symm
    · rfl
  refine ⟨⟨_, first.le, later.le⟩, ?_, first, later⟩
  rw [Input.cut, h.find]
  simp only [Option.bind_eq_bind, Option.bind_some]
  simp only [place]
  exact dif_pos ⟨first.le, later.le⟩

/-- What stands inside a block that is closed, its closing bracket and what follows it. -/
theorem of_closed {n : Nat} (h : x.Holds i j ⟨t :: ts, next⟩) (opens : t.kind.opensBlock = true)
    (inside : t.inside = some n) :
    ∃ inner closer rest, ts = inner ++ closer :: rest ∧ inner.length = n ∧
      x.Holds (i + 1) (i + 1 + n) ⟨inner, closer.start⟩ ∧ x.token (i + 1 + n) = some closer ∧
        x.Holds (i + 1 + n + 1) j ⟨rest, next⟩ := by
  obtain ⟨inner, closer, rest, rfl, rfl, -, content, later⟩ := h.matched.of_closed opens inside
  refine ⟨inner, closer, rest, rfl, rfl, ?_, ?_, ?_⟩
  · exact h.part (p := ⟨inner, closer.start⟩) [t] (closer :: rest) rfl rfl content
  · have found := h.token_of_split (show _ = (t :: inner) ++ closer :: rest from rfl)
    rwa [List.length_cons, Nat.add_comm inner.length, ← Nat.add_assoc] at found
  · have after := h.suffix (t :: (inner ++ [closer])) (by simp) later
    rwa [List.length_cons, List.length_append, List.length_singleton,
      show i + (inner.length + 1 + 1) = i + 1 + inner.length + 1 by omega] at after

/-- The content of a block stands between its opener and where the content ends. -/
theorem innerEnd (h : x.Holds i j ⟨t :: ts, next⟩) (opens : t.kind.opensBlock = true) :
    ∃ e, x.innerEnd i j = some e ∧ x.Holds (i + 1) e.1 (Scope.enter t ⟨ts, next⟩).inner := by
  have stop := h.stop
  rw [List.length_cons] at stop
  rw [Input.innerEnd, h.token_head]
  simp only [Option.bind_eq_bind, Option.bind_some]
  rw [h.close?]
  cases inside : t.inside with
  | none =>
    refine ⟨⟨j, by omega, Nat.le_refl j⟩, ?_, ?_⟩
    · rw [Option.map_none]
      exact advance_eq _
    · rw [Scope.enter, inside]
      exact h.tail (h.matched.of_open inside)
  | some n =>
    obtain ⟨inner, closer, rest, rfl, rfl, content, -, after⟩ := h.of_closed opens inside
    have le := after.le
    refine ⟨⟨i + 1 + inner.length, by omega, by omega⟩, ?_, ?_⟩
    · rw [Option.map_some]
      dsimp only
      rw [if_pos (by omega)]
      exact advance_eq _
    · rw [Scope.enter_closed inside]
      exact content

/-- A block that is not closed is missing its closing bracket at the end of the scope. -/
theorem missing (h : x.Holds i j ⟨t :: ts, next⟩) :
    x.missing i j = some ⟨Block.missing t.kind, Scope.stop ⟨t :: ts, next⟩⟩ := by
  rw [Input.missing, h.token_head]
  simp only [Option.bind_eq_bind, Option.bind_some]
  rw [h.endOffset, Option.bind_some]

/-- A block stands in a range of its own, in front of what follows it. -/
theorem block (h : x.Holds i j ⟨t :: ts, next⟩) (opens : t.kind.opensBlock = true) :
    ∃ n, x.Holds i (i + 1 + t.more ts) ⟨(Scope.enter t ⟨ts, next⟩).tokens, n⟩ ∧
      x.Holds (i + 1 + t.more ts) j (Scope.enter t ⟨ts, next⟩).after := by
  have stop := h.stop
  rw [List.length_cons] at stop
  have more : t.more ts = match t.inside with
      | some n => min (n + 1) ts.length
      | none => ts.length := if_pos opens
  rw [more]
  cases inside : t.inside with
  | none =>
    have entered : Scope.enter t ⟨ts, next⟩ = ⟨t, ⟨ts, next⟩, none, ⟨[], next⟩⟩ := by
      rw [Scope.enter, inside]
    have tokens : Block.tokens ⟨t, ⟨ts, next⟩, none, ⟨[], next⟩⟩ = t :: ts :=
      congrArg (t :: ·) (List.append_nil ts)
    have reached : i + 1 + ts.length = j := by omega
    have nothing := h.suffix (t :: ts) (List.append_nil _).symm .nil
    rw [List.length_cons, stop] at nothing
    dsimp only
    rw [entered, tokens, reached]
    exact ⟨next, h, nothing⟩
  | some n =>
    obtain ⟨inner, closer, rest, rfl, rfl, paired, content, later⟩ :=
      h.matched.of_closed opens inside
    have split : t :: (inner ++ closer :: rest) = (t :: (inner ++ [closer])) ++ rest := by simp
    have tokens : (Scope.enter t ⟨inner ++ closer :: rest, next⟩).tokens =
        t :: (inner ++ [closer]) := by
      rw [Scope.enter_closed inside]
      rfl
    have length : i + 1 + min (inner.length + 1) (inner ++ closer :: rest).length =
        i + (t :: (inner ++ [closer])).length := by
      simp only [List.length_append, List.length_cons, List.length_nil]
      omega
    have front := h.front split (.block paired inside content .nil)
    have after := h.suffix _ split later
    dsimp only
    rw [length, tokens, Scope.enter_closed inside]
    exact ⟨_, front, after⟩

/-- A block that is passed over is reported if it is not closed. -/
theorem unclosed (h : x.Holds i j ⟨t :: ts, next⟩) (opens : t.kind.opensBlock = true) :
    x.unclosed i j = some (Scope.enter t ⟨ts, next⟩).errors := by
  rw [Input.unclosed, h.close?]
  cases inside : t.inside with
  | none =>
    have entered : Scope.enter t ⟨ts, next⟩ = ⟨t, ⟨ts, next⟩, none, ⟨[], next⟩⟩ := by
      rw [Scope.enter, inside]
    rw [entered, Option.map_none, h.missing]
    rfl
  | some n =>
    obtain ⟨inner, closer, rest, rfl, rfl, -, -, after⟩ := h.of_closed opens inside
    have le := after.le
    rw [Scope.enter_closed inside, Option.map_some]
    exact if_pos (by omega)

/-- A block is left at its end, and is reported if it is not closed. -/
theorem leave (h : x.Holds i j ⟨t :: ts, next⟩) (opens : t.kind.opensBlock = true)
    {e : Nat} (inner : x.Holds (i + 1) e (Scope.enter t ⟨ts, next⟩).inner) :
    ∃ k, x.leave i e j = some (k, (Scope.enter t ⟨ts, next⟩).stop,
        (Scope.enter t ⟨ts, next⟩).errors) ∧
      i < k ∧ k ≤ j ∧ x.Holds k j (Scope.enter t ⟨ts, next⟩).after := by
  have stop := h.stop
  have reached := inner.stop
  rw [List.length_cons] at stop
  rw [Input.leave, h.close?]
  cases inside : t.inside with
  | none =>
    have entered : Scope.enter t ⟨ts, next⟩ = ⟨t, ⟨ts, next⟩, none, ⟨[], next⟩⟩ := by
      rw [Scope.enter, inside]
    rw [entered] at reached ⊢
    dsimp only at reached
    obtain rfl : e = j := by omega
    refine ⟨e, ?_, by omega, Nat.le_refl e, ?_⟩
    · rw [Option.map_none, h.missing]
      simp only [Option.bind_eq_bind, Option.bind_some]
      rw [h.endOffset]
      rfl
    · have nothing := h.suffix (t :: ts) (List.append_nil _).symm .nil
      rwa [List.length_cons, stop] at nothing
  | some n =>
    obtain ⟨content, closer, rest, rfl, rfl, -, found, after⟩ := h.of_closed opens inside
    rw [Scope.enter_closed inside] at reached ⊢
    dsimp only at reached
    rw [reached] at found after
    refine ⟨e + 1, ?_, by omega, after.le, after⟩
    rw [Option.map_some]
    dsimp only
    rw [if_pos reached, reached, found]
    rfl

end Holds

end Input

end Stylesheet
