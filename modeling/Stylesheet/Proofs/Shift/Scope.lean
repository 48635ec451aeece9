import Stylesheet.Grammar.Rule

/-!
# Shifted scopes

The same characters have the same tokens wherever they stand in a text, only that the tokens start
elsewhere. Shifting adds an offset to every place that tokens, scopes, blocks, nodes and errors
know. What is cut out of a shifted scope is what is cut out of the scope itself, shifted: no search,
cut or trim looks at a place.
-/

namespace Stylesheet

variable {k : Nat}

/-- The span, `k` bytes further on. -/
def Span.shift (k : Nat) (s : Span) : Span := ⟨s.start + k, s.stop + k⟩

/-- The error, `k` bytes further on. -/
def SyntaxError.shift (k : Nat) (e : SyntaxError) : SyntaxError := ⟨e.fault, e.offset + k⟩

namespace Token

/-- The token, `k` bytes further on. -/
def shift (k : Nat) (t : Token) : Token := { t with start := t.start + k }

variable {t : Token} {ts : List Token} {stop : Kind → Bool}

@[simp] theorem kind_shift : (t.shift k).kind = t.kind := rfl

@[simp] theorem text_shift : (t.shift k).text = t.text := rfl

@[simp] theorem value_shift : (t.shift k).value = t.value := rfl

@[simp] theorem inside_shift : (t.shift k).inside = t.inside := rfl

@[simp] theorem omitted_shift : (t.shift k).omitted = t.omitted := rfl

@[simp] theorem start_shift : (t.shift k).start = t.start + k := rfl

@[simp] theorem stop_shift : (t.shift k).stop = t.stop + k := Nat.add_right_comm _ _ _

@[simp] theorem span_shift : (t.shift k).span = t.span.shift k := by
  simp [span, Span.shift]

@[simp] theorem delim?_shift : (t.shift k).delim? = t.delim? := rfl

@[simp] theorem isDelim_shift (c : Char) : (t.shift k).isDelim c = t.isDelim c := rfl

@[simp] theorem more_shift : (t.shift k).more (ts.map (shift k)) = t.more ts := by
  simp [more]

theorem pieces_shift (ts : List Token) : pieces (ts.map (shift k)) = pieces ts := by
  fun_induction pieces ts with
  | case1 => rfl
  | case2 => rfl
  | case3 t ts nonempty ih =>
    obtain ⟨u, us, rfl⟩ := List.exists_cons_of_ne_nil nonempty
    simpa [pieces] using ih

@[simp] theorem sourceText_shift : sourceText (ts.map (shift k)) = sourceText ts := by
  rw [sourceText, pieces_shift, sourceText]

@[simp] theorem significant_shift :
    significant (ts.map (shift k)) = (significant ts).map (shift k) :=
  List.dropWhile_map ..

@[simp] theorem startOf_shift (ts : List Token) (next : Nat) :
    startOf (ts.map (shift k)) (next + k) = startOf ts next + k := by
  cases ts <;> rfl

/-- A search at the top level looks at kinds and pairings alone. -/
@[simp] theorem spanTop_shift :
    spanTop stop (ts.map (shift k)) =
      ((spanTop stop ts).1.map (shift k), (spanTop stop ts).2.map (shift k)) := by
  fun_induction spanTop stop ts with
  | case1 => simp [spanTop]
  | case2 t ts found => simp [spanTop, found]
  | case3 t ts other before found eq ih =>
    rw [eq] at ih
    simp only [List.map_drop] at ih
    simp [spanTop, other, ih, List.map_take]

end Token

namespace Scope

/-- The scope, `k` bytes further on. -/
def shift (k : Nat) (s : Scope) : Scope := ⟨s.tokens.map (Token.shift k), s.next + k⟩

variable {s : Scope} {t : Token} {stop : Token.Kind → Bool}

@[simp] theorem tokens_shift : (s.shift k).tokens = s.tokens.map (Token.shift k) := rfl

@[simp] theorem next_shift : (s.shift k).next = s.next + k := rfl

theorem shift_mk (ts : List Token) (next : Nat) :
    shift k ⟨ts, next⟩ = ⟨ts.map (Token.shift k), next + k⟩ := rfl

theorem shift_cons (t : Token) (ts : List Token) (next : Nat) :
    shift k ⟨t :: ts, next⟩ = ⟨t.shift k :: ts.map (Token.shift k), next + k⟩ := rfl

@[simp] theorem start_shift : (s.shift k).start = s.start + k := Token.startOf_shift ..

@[simp] theorem stop_shift : (s.shift k).stop = s.stop + k := by
  simp only [Scope.stop, tokens_shift, List.getLast?_map, next_shift]
  cases s.tokens.getLast? with
  | none => rfl
  | some t => simp

@[simp] theorem span_shift : (s.shift k).span = s.span.shift k := by
  simp [span, Span.shift]

@[simp] theorem text_shift : (s.shift k).text = s.text := Token.sourceText_shift

@[simp] theorem trimStart_shift : (s.shift k).trimStart = s.trimStart.shift k := by
  simp [trimStart, shift]

@[simp] theorem trim_shift : (s.shift k).trim = s.trim.shift k := by
  simp only [trim, tokens_shift, Token.significant_shift, ← List.map_reverse, next_shift,
    List.takeWhile_map, Token.startOf_shift, shift_mk]
  rfl

@[simp] theorem cut_shift :
    (s.shift k).cut stop = ((s.cut stop).1.shift k, (s.cut stop).2.shift k) := by
  simp [cut, shift]

end Scope

namespace Block

/-- The block, `k` bytes further on. -/
def shift (k : Nat) (b : Block) : Block :=
  ⟨b.opener.shift k, b.inner.shift k, b.closer.map (Token.shift k), b.after.shift k⟩

variable {b : Block}

@[simp] theorem opener_shift : (b.shift k).opener = b.opener.shift k := rfl

@[simp] theorem inner_shift : (b.shift k).inner = b.inner.shift k := rfl

@[simp] theorem closer_shift : (b.shift k).closer = b.closer.map (Token.shift k) := rfl

@[simp] theorem after_shift : (b.shift k).after = b.after.shift k := rfl

@[simp] theorem tokens_shift : (b.shift k).tokens = b.tokens.map (Token.shift k) := by
  cases hc : b.closer <;> simp [tokens, hc]

@[simp] theorem stop_shift : (b.shift k).stop = b.stop + k := by
  obtain ⟨opener, inner, closer, after⟩ := b
  cases closer with
  | some c => exact Token.stop_shift
  | none => exact Scope.stop_shift (s := ⟨opener :: inner.tokens, inner.next⟩)

@[simp] theorem span_shift : (b.shift k).span = b.span.shift k := by
  simp [span, Span.shift]

@[simp] theorem errors_shift : (b.shift k).errors = b.errors.map (.shift k) := by
  have stop : (b.shift k).stop = b.stop + k := stop_shift
  obtain ⟨opener, inner, closer, after⟩ := b
  cases closer with
  | some c => rfl
  | none => simp [errors, shift, SyntaxError.shift] at stop ⊢; exact stop

end Block

/-- Blocks are entered alike wherever they stand. -/
@[simp] theorem Scope.enter_shift {s : Scope} {t : Token} :
    (s.shift k).enter (t.shift k) = (s.enter t).shift k := by
  simp only [enter, Token.inside_shift, tokens_shift, next_shift]
  cases t.inside with
  | none => rfl
  | some n =>
    simp only [← List.map_drop, ← List.map_take]
    cases hd : s.tokens.drop n with
    | nil => simp [Block.shift, shift]
    | cons closer rest => simp [Block.shift, shift]

theorem Scope.enter_shift_mk (t : Token) (ts : List Token) (next : Nat) :
    Scope.enter (t.shift k) ⟨ts.map (Token.shift k), next + k⟩ =
      (Scope.enter t ⟨ts, next⟩).shift k :=
  Scope.enter_shift (s := ⟨ts, next⟩)

/-! ### What is read -/

namespace Located

/-- The tree, `k` bytes further on. -/
def shift (k : Nat) (n : Located) : Located := n.map (Span.shift k)

variable {kind : NodeKind} {detail : Detail} {span : Span} {n : Located} {s : Scope}

@[simp] theorem shift_mk (ns : List Located) :
    shift k ⟨kind, detail, span, ns⟩ = ⟨kind, detail, span.shift k, ns.map (shift k)⟩ := by
  rw [shift, Node.map, Node.mapAll_eq_map]
  rfl

@[simp] theorem shift_leaf : (leaf kind detail span).shift k = leaf kind detail (span.shift k) :=
  shift_mk []

@[simp] theorem kind_shift : (n.shift k).kind = n.kind := Node.map_kind ..

@[simp] theorem note_shift : (n.shift k).note = n.note.shift k := Node.map_note ..

@[simp] theorem raw_shift : raw (s.shift k) = (raw s).shift k := by
  simp [raw]

mutual

/-- A tree that is not moved stays as it is. -/
theorem shift_zero : ∀ n : Located, n.shift 0 = n
  | ⟨kind, detail, span, ns⟩ => by
    rw [shift_mk, map_shift_zero ns]
    rfl

theorem map_shift_zero : ∀ ns : List Located, ns.map (shift 0) = ns
  | [] => rfl
  | n :: ns => by rw [List.map_cons, shift_zero n, map_shift_zero ns]

end

end Located

theorem Scope.shift_zero (s : Scope) : s.shift 0 = s := by
  have same : s.tokens.map (Token.shift 0) = s.tokens := List.map_id s.tokens
  rw [shift, same]
  rfl

namespace Parsed

/-- What was read, `k` bytes further on. -/
def shift (k : Nat) (p : Parsed Located) : Parsed Located :=
  ⟨p.value.shift k, p.errors.map (.shift k)⟩

/-- All that was read, `k` bytes further on. -/
def shiftAll (k : Nat) (p : Parsed (List Located)) : Parsed (List Located) :=
  ⟨p.value.map (.shift k), p.errors.map (.shift k)⟩

variable {p : Parsed Located} {rest : Parsed (List Located)}

@[simp] theorem shift_value : (p.shift k).value = p.value.shift k := rfl

@[simp] theorem shift_errors : (p.shift k).errors = p.errors.map (.shift k) := rfl

@[simp] theorem shiftAll_value : (rest.shiftAll k).value = rest.value.map (.shift k) := rfl

@[simp] theorem shiftAll_errors : (rest.shiftAll k).errors = rest.errors.map (.shift k) := rfl

@[simp] theorem shiftAll_nil : shiftAll k ⟨[], []⟩ = ⟨[], []⟩ := rfl

@[simp] theorem shiftAll_cons :
    (p.cons rest).shiftAll k = (p.shift k).cons (rest.shiftAll k) := by
  simp [cons, shiftAll]

theorem shift_zero (p : Parsed Located) : p.shift 0 = p := by
  have same : p.errors.map (SyntaxError.shift 0) = p.errors := List.map_id p.errors
  rw [shift, Located.shift_zero, same]

end Parsed

end Stylesheet
