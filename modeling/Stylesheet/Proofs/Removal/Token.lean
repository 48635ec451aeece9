import Stylesheet.Proofs.Removal.Lexeme
import Stylesheet.Proofs.Removal.Pairing

/-!
# Tokens without some of them

What is taken out of a text are the tokens of one item. The tokens before them stay where they are,
those behind move up, and the blocks around them hold fewer tokens. White space that stood on both
sides becomes one token. So what is left are tokens of a text again, namely of the text that is left.
-/

namespace Stylesheet

namespace Token

/-- Number of bytes that some tokens cover. -/
def extent : List Token → Nat
  | [] => 0
  | t :: ts => t.text.utf8ByteSize + extent ts

/-- What is left of some tokens without others that stand among them. The flag tells whether those
stand in front. -/
inductive Removes (gone : List Token) : Bool → List Token → List Token → Prop
  | here {back : List Token} : Removes gone true (gone ++ back.map (shift (extent gone))) back
  | joined {w u : Token} {back : List Token} (before : w.kind = .whiteSpace)
    (behind : u.kind = .whiteSpace) :
    Removes gone false (w :: (gone ++ (u :: back).map (shift (extent gone))))
      ({ w with text := w.text ++ u.text } :: back)
  | past {first : Bool} {front old new : List Token} (ne : front ≠ []) (closed : Closed front)
    (fresh : Kind.Fresh (front.map kind))
    (apart : first = true → ∀ t ∈ front.getLast?, t.kind = .whiteSpace →
      ∀ u ∈ new.head?, u.kind ≠ .whiteSpace)
    (rest : Removes gone first old new) : Removes gone false (front ++ old) (front ++ new)
  | inside {first : Bool} {front inner inner' back : List Token} {opener closer : Token}
    (closed : Closed front) (opens : opener.kind = .leftCurly) (closes : closer.kind = .rightCurly)
    (inside : opener.inside = some inner.length) (content : Removes gone first inner inner') :
    Removes gone false (front ++ opener :: (inner ++ (closer :: back).map (shift (extent gone))))
      (front ++ { opener with inside := some inner'.length } :: (inner' ++ closer :: back))

section

variable {a b k : Nat} {ts us : List Token} {t : Token}

theorem extent_append (ts us : List Token) : extent (ts ++ us) = extent ts + extent us := by
  induction ts with
  | nil => rw [List.nil_append, extent, Nat.zero_add]
  | cons t ts ih => rw [List.cons_append, extent, extent, ih, Nat.add_assoc]

theorem Laid.stop_eq (h : Laid a ts b) : b = a + extent ts := by
  induction h with
  | nil => rfl
  | cons _ _ ih => rw [ih, stop, extent, Nat.add_assoc]

theorem laid_shift : Laid (a + k) (ts.map (shift k)) (b + k) ↔ Laid a ts b := by
  induction ts generalizing a with
  | nil => rw [List.map_nil, Laid.nil_iff, Laid.nil_iff, Nat.add_right_cancel_iff]
  | cons t ts ih =>
    rw [List.map_cons, Laid.cons_iff, Laid.cons_iff, stop_shift, ih, start_shift,
      Nat.add_right_cancel_iff, omitted_shift]

theorem Nests.of_shift {room : Nat} {awaited : Option Kind}
    (h : Nests room awaited (ts.map (shift k))) : Nests room awaited ts := by
  generalize hu : ts.map (shift k) = us at h
  induction h generalizing ts with
  | nil => exact List.map_eq_nil_iff.mp hu ▸ .nil
  | leaf plain other alone _ ih =>
    obtain ⟨t, ts, rfl, rfl, hts⟩ := List.map_eq_cons_iff.mp hu
    exact .leaf plain other alone (ih hts)
  | @block room awaited opener closer inner us paired inside alone _ _ ihContent ihRest =>
    obtain ⟨o, rest, rfl, rfl, hrest⟩ := List.map_eq_cons_iff.mp hu
    obtain ⟨inner, later, rfl, rfl, hlater⟩ := List.map_eq_append_iff.mp hrest
    obtain ⟨c, ts, rfl, rfl, hts⟩ := List.map_eq_cons_iff.mp hlater
    refine .block paired ?_ alone (ihContent rfl) (ihRest hts)
    rwa [List.length_map] at inside

@[simp] theorem word_shift (t : Token) : (t.shift k).word = t.word := rfl

theorem words_shift (ts : List Token) : (ts.map (shift k)).map word = ts.map word := by
  rw [List.map_map]
  rfl

end

namespace Removes

variable {gone old new : List Token} {first : Bool} {a b : Nat}

/-- What is left is nested. -/
theorem nests {room : Nat} {awaited : Option Kind} (closed : Closed gone)
    (h : Removes gone first old new) (nests : Nests room awaited old) : Nests room awaited new := by
  induction h generalizing room awaited with
  | here => exact (nests.of_append closed).2.of_shift
  | @joined w u back before behind =>
    have plain : w.kind.opensBlock = false := by rw [before]; rfl
    obtain ⟨other, alone, rest⟩ := nests.of_leaf plain
    obtain ⟨-, rest⟩ := rest.of_append closed
    have last : Nests room awaited (u :: back) := rest.of_shift
    exact .leaf plain other alone (last.of_leaf (by rw [behind]; rfl)).2.2
  | past _ front _ _ _ ih =>
    obtain ⟨before, rest⟩ := nests.of_append front
    exact before.append (ih rest)
  | @inside first front inner inner' back opener closer front' opens closes inside _ ih =>
    obtain ⟨before, rest⟩ := nests.of_append front'
    have paired : opener.kind.closing = some closer.kind := by rw [opens, closes]; rfl
    rw [List.map_cons] at rest
    obtain ⟨less, rfl, alone, content, rest⟩ := rest.of_block (by exact paired) inside
    exact before.append (.block paired rfl alone (ih content) rest.of_shift)

/-- What is left stands one behind the other. -/
theorem laid (h : Removes gone first old new) (laid : Laid a old (b + extent gone)) :
    Laid a new b := by
  induction h generalizing a b with
  | here =>
    obtain ⟨m, before, behind⟩ := Laid.append_iff.mp laid
    rw [before.stop_eq] at behind
    exact laid_shift.mp behind
  | @joined w u back _ _ =>
    obtain ⟨start, full, rest⟩ := Laid.cons_iff.mp laid
    obtain ⟨m, before, behind⟩ := Laid.append_iff.mp rest
    rw [before.stop_eq] at behind
    obtain ⟨meets, -, back⟩ := Laid.cons_iff.mp (laid_shift.mp behind)
    have stop : Token.stop { w with text := w.text ++ u.text } = u.stop := by
      rw [Token.stop, String.utf8ByteSize_append, ← Nat.add_assoc, Token.stop, ← meets, Token.stop]
    exact Laid.cons_iff.mpr ⟨start, full, stop ▸ back⟩
  | past _ _ _ _ _ ih =>
    obtain ⟨m, before, rest⟩ := Laid.append_iff.mp laid
    exact Laid.append_iff.mpr ⟨m, before, ih rest⟩
  | @inside first front inner inner' back opener closer _ _ _ _ _ ih =>
    obtain ⟨m, before, rest⟩ := Laid.append_iff.mp laid
    obtain ⟨rfl, full, rest⟩ := Laid.cons_iff.mp rest
    obtain ⟨m, content, rest⟩ := Laid.append_iff.mp rest
    obtain ⟨rfl, fullCloser, rest⟩ := Laid.cons_iff.mp rest
    rw [stop_shift] at rest
    refine Laid.append_iff.mpr ⟨opener.start, before, Laid.cons_iff.mpr ⟨rfl, full, ?_⟩⟩
    exact Laid.append_iff.mpr ⟨closer.start, ih content,
      Laid.cons_iff.mpr ⟨rfl, fullCloser, laid_shift.mp rest⟩⟩

/-- What stands in front of the removed tokens and behind them. -/
theorem eq_of_first (h : Removes gone true old new) :
    old = gone ++ new.map (shift (extent gone)) := by
  cases h
  rfl

end Removes

/-- The tokens that are taken out stand in one piece among the others, where what is before them
begins afresh, and white space on both sides of them is put together. The flag tells whether nothing
may stand before them. -/
inductive Parts (gone : List Token) (first : Bool) (old new : List Token) : Prop
  | apart (front back : List Token) (before : old = front ++ (gone ++ back))
    (words : new.map word = (front ++ back).map word) (ne : first = false → front ≠ [])
    (fresh : Kind.Fresh (front.map kind))
    (apart : ∀ t ∈ front.getLast?, t.kind = .whiteSpace → ∀ u ∈ back.head?, u.kind ≠ .whiteSpace)
  | joined (front back : List Token) {w u : Token} (before : old = front ++ w :: (gone ++ u :: back))
    (words : new.map word = (front ++ { w with text := w.text ++ u.text } :: back).map word)
    (fresh : Kind.Fresh (front.map kind)) (left : w.kind = .whiteSpace) (right : u.kind = .whiteSpace)

namespace Parts

variable {gone old new whole less : List Token} {first : Bool}

/-- More may stand around the tokens. -/
theorem within (front back : List Token) (h : Parts gone first old new) (before : whole = front ++ (old ++ back))
    (words : less.map word = (front ++ (new ++ back)).map word) (ne : front ≠ [])
    (fresh : Kind.Fresh (front.map kind))
    (left : first = true → ∀ t ∈ front.getLast?, t.kind ≠ .whiteSpace)
    (right : ∀ u ∈ back.head?, u.kind ≠ .whiteSpace) : Parts gone false whole less := by
  cases h with
  | apart front' back' before' words' ne' fresh' apart =>
    refine .apart (front ++ front') (back' ++ back) ?_ ?_ ?_ ?_ ?_
    · rw [before, before']
      simp only [List.append_assoc]
    · rw [words]
      simp only [List.map_append, List.append_assoc] at words' ⊢
      rw [words']
      simp only [List.append_assoc]
    · exact fun _ => List.append_ne_nil_of_left_ne_nil ne _
    · rw [List.map_append]
      exact fresh.append fresh'
    · intro t ht white u hu
      cases back' with
      | nil => exact right u hu
      | cons v vs =>
        obtain rfl | ⟨f, l, rfl⟩ := List.eq_nil_or_concat front'
        · rw [List.append_nil] at ht
          cases first with
          | true => exact absurd white (left rfl t ht)
          | false => exact absurd rfl (ne' rfl)
        · rw [List.concat_eq_append, ← List.append_assoc, List.getLast?_concat] at ht
          rw [List.concat_eq_append, List.getLast?_concat] at apart
          exact apart t ht white u hu
  | @joined front' back' w u before' words' fresh' left' right' =>
    refine .joined (front ++ front') (back' ++ back) ?_ ?_ ?_ left' right'
    · rw [before, before']
      simp only [List.append_assoc, List.cons_append]
    · rw [words]
      simp only [List.map_append] at words' ⊢
      rw [words']
      simp only [List.map_cons, List.map_append, List.append_assoc, List.cons_append]
    · rw [List.map_append]
      exact fresh.append fresh'

end Parts

theorem Removes.parts {gone old new : List Token} {first : Bool} (h : Removes gone first old new) :
    Parts gone first old new := by
  induction h with
  | here =>
    refine .apart [] _ rfl ?_ (by rintro ⟨⟩) .nil (by rintro _ ⟨⟩)
    rw [List.nil_append, words_shift]
  | @joined w u back before behind =>
    refine .joined [] _ rfl ?_ .nil before behind
    rw [List.nil_append, List.map_cons, List.map_cons, words_shift]
    rfl
  | @past first front old new ne closed fresh apart rest ih =>
    cases first with
    | false =>
      refine ih.within front [] ?_ ?_ ne fresh (by rintro ⟨⟩) (by rintro _ ⟨⟩)
      · rw [List.append_nil]
      · rw [List.append_nil]
    | true =>
      refine .apart front (new.map (shift (extent gone))) ?_ ?_ (fun _ => ne) fresh ?_
      · exact congrArg (front ++ ·) rest.eq_of_first
      · rw [List.map_append, List.map_append, words_shift]
      · intro t ht white u hu
        obtain ⟨us, hus⟩ := List.head?_eq_some_iff.mp hu
        obtain ⟨v, vs, hnew, rfl, -⟩ := List.map_eq_cons_iff.mp hus
        exact apart rfl t ht white v (by rw [hnew]; rfl)
  | @inside first front inner inner' back opener closer closed opens closes inside content ih =>
    refine ih.within (front ++ [opener]) ((closer :: back).map (shift (extent gone)))
      ?_ ?_ ?_ ?_ ?_ ?_
    · simp only [List.append_assoc, List.singleton_append]
    · simp only [List.map_append, words_shift, List.append_assoc, List.map_cons]
      rfl
    · exact List.append_ne_nil_of_right_ne_nil front (List.cons_ne_nil opener [])
    · rw [List.map_append]
      refine .of_getLast ?_
      rw [List.map_singleton, List.getLast?_concat]
      rintro _ ⟨⟩
      rw [opens]
      rfl
    · intro _ t ht
      rw [List.getLast?_concat] at ht
      cases ht
      rw [opens]
      rintro ⟨⟩
    · rintro _ ⟨⟩
      rw [kind_shift, closes]
      rintro ⟨⟩

end Token

end Stylesheet
