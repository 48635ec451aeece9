import Stylesheet.Proofs.Patch.Splice
import Stylesheet.Proofs.Removal.Token

/-!
# Texts without some of their tokens

The bytes of some tokens are cut out of a text. If what stands before them begins afresh there, the
text that is left is read as the tokens that are left.
-/

namespace Stylesheet

namespace Token

variable {x : String} {gone old new ts us front back : List Token} {first : Bool} {a b : Nat}

/-- The characters of some tokens. -/
def letters (ts : List Token) : List Char := ts.flatMap fun t => t.text.toList

theorem letters_append (ts us : List Token) : letters (ts ++ us) = letters ts ++ letters us :=
  List.flatMap_append

theorem width_letters (ts : List Token) : Text.width (letters ts) = extent ts := by
  induction ts with
  | nil => rfl
  | cons t ts ih =>
    rw [letters, List.flatMap_cons, Text.width_append, Text.width_toList]
    change _ + Text.width (letters ts) = _
    rw [ih, extent]

/-- Lexemes spell what the tokens made of them do. -/
theorem spelling_eq {xs : List (Lexeme × List Char)} (words : xs.map wordOf = ts.map word) :
    spelling xs = letters ts := by
  have spelt := congrArg (List.flatMap fun w : Kind × Option String × List Char => w.2.2) words
  rwa [List.flatMap_map, List.flatMap_map] at spelt

theorem kinds_eq {xs : List (Lexeme × List Char)} (words : xs.map wordOf = ts.map word) :
    kinds xs = ts.map kind := by
  have kinds := congrArg (List.map fun w : Kind × Option String × List Char => w.1) words
  rwa [List.map_map, List.map_map] at kinds

/-- The tokens of a text spell it. -/
theorem letters_tokenize (h : (tokenize x).Closed) : letters (tokenize x).tokens = x.toList := by
  obtain ⟨-, -, words⟩ := tokenize_nests h
  rw [← spelling_eq words]
  exact lexemes_flatMap x.toList

theorem kind_of_wordOf {y : Lexeme × List Char} {t : Token} (h : wordOf y = t.word) :
    y.1.kind = t.kind :=
  congrArg Prod.fst h

/-- The lexemes of what is left are those of the tokens that are left. -/
theorem lexemes_parts (words : (lexemes x.toList).map wordOf = old.map word) (ne : gone ≠ [])
    (h : Parts gone first old new) :
    ∃ front back, old = front ++ (gone ++ back) ∧
      (lexemes (letters front ++ letters back)).map wordOf = new.map word := by
  cases h with
  | apart front back before words' _ fresh apart =>
    refine ⟨front, back, before, ?_⟩
    rw [before, List.map_append, List.map_append] at words
    obtain ⟨xs, rest, split, hxs, hrest⟩ := List.map_eq_append_iff.mp words
    obtain ⟨gs, ys, rfl, hgs, hys⟩ := List.map_eq_append_iff.mp hrest
    rw [← spelling_eq hxs, ← spelling_eq hys, lexemes_without split, List.map_append, hxs, hys,
      words', List.map_append]
    · rw [kinds_eq hxs]
      exact fresh
    · rintro rfl
      exact ne (List.map_eq_nil_iff.mp hgs.symm)
    · intro x hx white y hy
      obtain ⟨f, rfl⟩ := List.getLast?_eq_some_iff.mp hx
      obtain ⟨b, rfl⟩ := List.head?_eq_some_iff.mp hy
      rw [List.map_append, List.map_singleton] at hxs
      obtain ⟨f', l, rfl, -, hl⟩ := List.map_eq_append_iff.mp hxs.symm
      obtain ⟨t, rfl, ht⟩ := List.map_eq_singleton_iff.mp hl
      obtain ⟨u, us, rfl, hu, -⟩ := List.map_eq_cons_iff.mp hys.symm
      rw [kind_of_wordOf ht.symm] at white
      rw [kind_of_wordOf hu.symm]
      exact apart t (List.getLast?_concat ..) white u rfl
  | @joined front back w u before words' fresh left right =>
    refine ⟨front ++ [w], u :: back, ?_, ?_⟩
    · rw [before, List.append_assoc, List.singleton_append]
    rw [before, List.map_append, List.map_cons, List.map_append, List.map_cons] at words
    obtain ⟨xs, rest, split, hxs, hrest⟩ := List.map_eq_append_iff.mp words
    obtain ⟨w', rest, rfl, hw, hrest⟩ := List.map_eq_cons_iff.mp hrest
    obtain ⟨gs, rest, rfl, hgs, hrest⟩ := List.map_eq_append_iff.mp hrest
    obtain ⟨u', ys, rfl, hu, hys⟩ := List.map_eq_cons_iff.mp hrest
    have hw' : w'.2 = w.text.toList := congrArg (fun w => w.2.2) hw
    have hu' : u'.2 = u.text.toList := congrArg (fun w => w.2.2) hu
    have whole : letters (front ++ [w]) ++ letters (u :: back) =
        spelling xs ++ (w'.2 ++ (u'.2 ++ spelling ys)) := by
      rw [letters_append, spelling_eq hxs, spelling_eq hys, hw', hu']
      simp [letters]
    have freshly : Kind.Fresh (kinds xs) := by
      rw [kinds_eq hxs]
      exact fresh
    rw [whole, lexemes_joined split freshly (by rw [kind_of_wordOf hw, left])
      (by rw [kind_of_wordOf hu, right]), List.map_append, List.map_cons, hxs, hys, words',
      List.map_append, List.map_cons]
    have both : wordOf (joined w' u') = word { w with text := w.text ++ u.text } := by
      have kind := congrArg Prod.fst hw
      have value := congrArg (fun w => w.2.1) hw
      rw [wordOf, joined, word, String.toList_append, ← hw', ← hu']
      exact Prod.ext kind (Prod.ext value rfl)
    rw [both]

theorem Laid.start_eq (h : Laid a (ts ++ us) b) (ne : us ≠ []) (next : Nat) :
    startOf us next = a + extent ts := by
  obtain ⟨m, before, rest⟩ := Laid.append_iff.mp h
  obtain ⟨u, us, rfl⟩ := List.exists_cons_of_ne_nil ne
  rw [← before.stop_eq, (Laid.cons_iff.mp rest).1]
  rfl

/-- Where the last of some tokens ends. -/
theorem Laid.scope_stop (h : Laid a ts b) (ne : ts ≠ []) (next : Nat) :
    Scope.stop ⟨ts, next⟩ = b := by
  obtain ⟨front, t, rfl⟩ := (List.eq_nil_or_concat ts).resolve_left ne
  rw [List.concat_eq_append] at h ⊢
  obtain ⟨m, -, last⟩ := Laid.append_iff.mp h
  rw [Scope.stop, List.getLast?_concat]
  exact Laid.nil_iff.mp (Laid.cons_iff.mp last).2.2

/-- The bytes that some adjacent tokens cover. -/
theorem span_eq (laid : Laid 0 (front ++ (gone ++ back)) b) (ne : gone ≠ []) (next : Nat) :
    Scope.span ⟨gone, next⟩ = ⟨extent front, extent front + extent gone⟩ := by
  obtain ⟨m, before, rest⟩ := Laid.append_iff.mp laid
  obtain ⟨m', middle, -⟩ := Laid.append_iff.mp rest
  have start : Scope.start ⟨gone, next⟩ = 0 + extent front :=
    Laid.start_eq (Laid.append_iff.mpr ⟨m, before, middle⟩) ne next
  have stop : Scope.stop ⟨gone, next⟩ = m' := middle.scope_stop ne next
  rw [Scope.span, start, stop, middle.stop_eq, before.stop_eq, Nat.zero_add]

/-- A text without the bytes of some adjacent tokens is spelt by the others. -/
theorem splice?_gap (h : (tokenize x).Closed) (tokens : (tokenize x).tokens = front ++ (gone ++ back))
    (ne : gone ≠ []) (next target : Nat) :
    Replacement.splice? x 0 [⟨target, Scope.span ⟨gone, next⟩, ""⟩] =
      some (String.ofList (letters front ++ letters back)) := by
  obtain ⟨-, laid, -⟩ := tokenize_nests h
  have chars := letters_tokenize h
  rw [tokens] at laid chars
  rw [letters_append, letters_append] at chars
  have kept : Text.Stands x 0 (letters front) := ⟨[], letters gone ++ letters back, chars.symm, rfl⟩
  have rest : Text.Stands x (extent front + extent gone) (letters back) := by
    refine ⟨letters front ++ letters gone, [], ?_, ?_⟩
    · rw [← chars, List.append_nil, List.append_assoc]
    · rw [Text.width_append, width_letters, width_letters]
  have stop : extent front + extent gone + Text.width (letters back) = x.utf8ByteSize := by
    rw [← Text.width_toList, ← chars]
    simp only [Text.width_append, width_letters, Nat.add_assoc]
  have first := kept.slice?
  have last := rest.slice?
  rw [width_letters, Nat.zero_add] at first
  rw [stop] at last
  rw [span_eq laid ne, Replacement.splice?, Replacement.splice?]
  simp [first, last, String.ofList_append]

end Token

open Token in
/-- The text that is left without the bytes of some tokens is read as the tokens that are left. -/
theorem tokenize_removes {x y : String} {gone new : List Token} {first : Bool} {next target : Nat}
    (h : (tokenize x).Closed) (removes : Removes gone first (tokenize x).tokens new)
    (closed : Closed gone) (ne : gone ≠ [])
    (left : Replacement.splice? x 0 [⟨target, Scope.span ⟨gone, next⟩, ""⟩] = some y) :
    tokenize y = ⟨new, [], (tokenize x).size - extent gone⟩ := by
  obtain ⟨nests, laid, words⟩ := tokenize_nests h
  obtain ⟨front, back, before, words'⟩ := lexemes_parts words ne removes.parts
  rw [splice?_gap h before ne, Option.some.injEq] at left
  have fits : extent gone ≤ (tokenize x).size := by
    rw [laid.stop_eq, before, extent_append, extent_append]
    omega
  refine tokenize_eq_of_nests (removes.nests closed nests) (removes.laid ?_) ?_
  · rwa [Nat.sub_add_cancel fits]
  · rw [← left, String.toList_ofList]
    exact words'

end Stylesheet
