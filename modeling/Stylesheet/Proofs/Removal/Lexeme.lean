import Stylesheet.Proofs.Concat.Tokens

/-!
# Cutting around a gap

Where text is taken out between two lexemes, what stood before the gap now stands in front of other
characters. A separator in front of the gap hardly looks at what follows it: a comment is closed, and
white space only takes up white space. Everything before the separators is settled if it ends with a
semicolon or a curly bracket, so the text is cut into the lexemes that are left, but for white space
on both sides of the gap, which becomes one lexeme.
-/

namespace Stylesheet.Token

open Text

namespace Kind

/-- White space, comments and the marks that hide style sheets from old readers of HTML. -/
def separates (k : Kind) : Bool := k.isTrivia || k = .cdo || k = .cdc

/-- Semicolons and curly brackets stand where items begin and end. -/
def bounds (k : Kind) : Bool := k = .semicolon || k = .leftCurly || k = .rightCurly

theorem separates_cases {k : Kind} (h : k.separates = true) :
    k = .whiteSpace ∨ k = .comment ∨ k = .cdo ∨ k = .cdc := by
  cases k <;> first | cases h; done | simp

theorem separates_plain {k : Kind} (h : k.separates = true) : k.opensBlock = false := by
  obtain rfl | rfl | rfl | rfl := separates_cases h <;> rfl

/-- Nothing but separators stands behind the last boundary, if there is any. -/
def Fresh (ks : List Kind) : Prop :=
  ∃ front seps, ks = front ++ seps ∧ (∀ k ∈ front.getLast?, k.bounds = true) ∧
    ∀ k ∈ seps, k.separates = true

namespace Fresh

variable {ks ls : List Kind} {k : Kind}

theorem nil : Fresh [] := ⟨[], [], rfl, by rintro _ ⟨⟩, by rintro _ ⟨⟩⟩

/-- What ends with a boundary is fresh, whatever stands in it. -/
theorem of_getLast (h : ∀ k ∈ ks.getLast?, k.bounds = true) : Fresh ks :=
  ⟨ks, [], (List.append_nil ks).symm, h, by rintro _ ⟨⟩⟩

theorem append (h : Fresh ks) (h' : Fresh ls) : Fresh (ks ++ ls) := by
  obtain ⟨front, seps, rfl, bounds, separate⟩ := h
  obtain ⟨front', seps', rfl, bounds', separate'⟩ := h'
  obtain rfl | ⟨before, last, rfl⟩ := List.eq_nil_or_concat front'
  · refine ⟨front, seps ++ seps', ?_, bounds, ?_⟩
    · rw [List.nil_append, List.append_assoc]
    · intro k hk
      exact (List.mem_append.mp hk).elim (separate k) (separate' k)
  · refine ⟨front ++ seps ++ before.concat last, seps', ?_, ?_, separate'⟩
    · simp only [List.append_assoc]
    · rw [List.concat_eq_append, ← List.append_assoc, List.getLast?_concat]
      rw [List.concat_eq_append, List.getLast?_concat] at bounds'
      exact bounds'

theorem separator (h : k.separates = true) : Fresh [k] :=
  ⟨[], [k], rfl, by rintro _ ⟨⟩, by simpa using h⟩

theorem boundary (h : k.bounds = true) : Fresh [k] := of_getLast (by rintro _ ⟨⟩; exact h)

end Fresh

end Kind

/-! ### What scanning says about the first characters -/

namespace Lexeme

/-- What stands at the front of a text where a separator or a curly bracket was scanned. -/
def Starts (c : Char) (cs : List Char) : Kind → Prop
  | .whiteSpace => isBlank c = true
  | .comment => c = '/' ∧ ∃ rest, cs = '*' :: rest
  | .cdo => c = '<' ∧ ∃ rest, cs = '!' :: '-' :: '-' :: rest
  | .cdc => c = '-' ∧ ∃ rest, cs = '-' :: '>' :: rest
  | .leftCurly => c = '{'
  | _ => True

theorem starts_numeric (c : Char) (ds cs : List Char) : Starts c ds (numeric cs).kind := by
  unfold numeric
  dsimp only
  split
  · trivial
  · split <;> trivial

theorem starts_string (c quote : Char) (ds cs : List Char) :
    Starts c ds (string quote cs).kind := by
  unfold string
  split <;> trivial

theorem starts_identLike (c : Char) (ds cs : List Char) : Starts c ds (identLike cs).kind := by
  unfold identLike
  dsimp only
  split
  · split
    · unfold url
      dsimp only
      split
      · trivial
      · trivial
      · split <;> trivial
    · trivial
  · trivial

theorem starts_scan (c : Char) (cs : List Char) : Starts c cs (scan c cs).kind := by
  unfold scan
  split
  · rename_i blank
    exact blank
  · split
    · exact starts_numeric c cs _
    · split
      case h_1 => exact starts_string _ _ _ _
      case h_2 => exact starts_string _ _ _ _
      case h_3 => split <;> trivial
      case h_13 => exact ⟨rfl, _, rfl⟩
      case h_14 => exact ⟨rfl, _, rfl⟩
      case h_15 => exact ⟨rfl, _, rfl⟩
      case h_16 => split <;> trivial
      case h_17 =>
        split
        · exact starts_identLike c cs _
        · trivial
      all_goals first | rfl | trivial

/-- Only these characters are scanned as boundaries. -/
theorem ender_of_bounds {c : Char} {cs : List Char} (h : (scan c cs).kind.bounds = true) :
    c ∈ enders := by
  have starts := starts_scan c cs
  cases hk : (scan c cs).kind with
  | leftCurly =>
    rw [hk] at starts
    rw [show c = '{' from starts]
    decide
  | semicolon => exact ender_of_scan (by rw [hk]; rfl)
  | rightCurly => exact ender_of_scan (by rw [hk]; rfl)
  | _ =>
    rw [hk] at h
    cases h

end Lexeme

theorem commentBody_cons (c : Char) (cs : List Char) :
    commentBody (c :: cs) = 2 ∨ commentBody (c :: cs) = 1 + commentBody cs := by
  by_cases closes : ∃ tail, c = '*' ∧ cs = '/' :: tail
  · obtain ⟨tail, rfl, rfl⟩ := closes
    exact .inl rfl
  · exact .inr (commentBody_char fun tail star slash => closes ⟨tail, star, slash⟩)

theorem commentBody_pos {cs : List Char} (ne : cs ≠ []) : 0 < commentBody cs := by
  obtain ⟨c, cs, rfl⟩ := List.exists_cons_of_ne_nil ne
  obtain h | h := commentBody_cons c cs <;> omega

/-- A comment that ends before its text does is closed, so what follows it is not looked at. -/
theorem commentBody_closed {body rest : List Char} (h : commentBody (body ++ rest) = body.length)
    (ne : rest ≠ []) (others : List Char) : commentBody (body ++ others) = body.length := by
  induction body using commentBody.induct with
  | case1 =>
    have pos := commentBody_pos ne
    rw [List.nil_append, List.length_nil] at h
    omega
  | case2 cs =>
    have two : 2 = cs.length + 1 + 1 := h
    obtain rfl : cs = [] := List.length_eq_zero_iff.mp (by omega)
    rfl
  | case3 c cs goes ih =>
    cases cs with
    | nil =>
      have pos := commentBody_pos ne
      have two := commentBody_cons c rest
      rw [List.singleton_append, List.length_singleton] at h
      omega
    | cons d ds =>
      have goes' (v tail : List Char) (star : c = '*') (slash : d :: ds ++ v = '/' :: tail) :
          False := by
        obtain rfl : d = '/' := List.head_eq_of_cons_eq slash
        exact goes ds star rfl
      rw [List.cons_append, commentBody_char (goes' rest), List.length_cons] at h
      rw [List.cons_append, commentBody_char (goes' others), List.length_cons, ih (by omega)]
      omega

/-! ### Lexemes in front of a text -/

/-- The characters of some lexemes. -/
def spelling (xs : List (Lexeme × List Char)) : List Char := xs.flatMap (·.2)

/-- The lexeme is scanned off the front of its own characters and those that follow. -/
def Scanned (x : Lexeme × List Char) (rest : List Char) : Prop :=
  ∃ c cs, x.2 = c :: cs ∧ Lexeme.scan c (cs ++ rest) = x.1 ∧ (cs ++ rest).take x.1.more = cs

/-- The text that starts with some lexemes is cut into them and into the lexemes of the rest. -/
def CutsOff (xs : List (Lexeme × List Char)) (rest : List Char) : Prop :=
  lexemes (spelling xs ++ rest) = xs ++ lexemes rest

section

variable {x : Lexeme × List Char} {xs ys : List (Lexeme × List Char)} {rest others : List Char}

theorem Scanned.drop (h : Scanned x rest) :
    ∃ c cs, x.2 = c :: cs ∧ (cs ++ rest).drop x.1.more = rest := by
  obtain ⟨c, cs, hx, -, taken⟩ := h
  refine ⟨c, cs, hx, ?_⟩
  have split := List.take_append_drop x.1.more (cs ++ rest)
  rw [taken] at split
  exact List.append_cancel_left split

/-- A lexeme that ends before its text takes as many characters as it says. -/
theorem Scanned.more_eq (h : Scanned x rest) (ne : rest ≠ []) :
    ∃ c cs, x.2 = c :: cs ∧ Lexeme.scan c (cs ++ rest) = x.1 ∧ x.1.more = cs.length := by
  obtain ⟨c, cs, hx, scanned, taken⟩ := h
  refine ⟨c, cs, hx, scanned, ?_⟩
  have length := congrArg List.length taken
  have pos := List.length_pos_iff.mpr ne
  rw [List.length_take, List.length_append] at length
  omega

theorem cutsOff_nil : CutsOff [] rest := rfl

theorem cutsOff_cons_iff :
    CutsOff (x :: xs) rest ↔ Scanned x (spelling xs ++ rest) ∧ CutsOff xs rest := by
  have whole : spelling (x :: xs) ++ rest = x.2 ++ (spelling xs ++ rest) := by
    rw [spelling, List.flatMap_cons, List.append_assoc]
    rfl
  have first (c : Char) (cs : List Char) (hx : x.2 = c :: cs) :
      lexemes (x.2 ++ (spelling xs ++ rest)) =
        (Lexeme.scan c (cs ++ (spelling xs ++ rest)),
          c :: (cs ++ (spelling xs ++ rest)).take
            (Lexeme.scan c (cs ++ (spelling xs ++ rest))).more) ::
          lexemes ((cs ++ (spelling xs ++ rest)).drop
            (Lexeme.scan c (cs ++ (spelling xs ++ rest))).more) := by
    rw [hx, List.cons_append, lexemes]
  rw [CutsOff, whole]
  constructor
  · intro h
    have chars : x.2 ≠ [] := lexemes_chars _ x (by rw [h]; exact List.mem_cons_self)
    obtain ⟨c, cs, hx⟩ := List.exists_cons_of_ne_nil chars
    rw [first c cs hx] at h
    obtain ⟨head, tail⟩ := List.cons.inj h
    obtain ⟨scanned, taken⟩ := Prod.mk.inj head
    rw [hx] at taken
    have found : Scanned x (spelling xs ++ rest) :=
      ⟨c, cs, hx, scanned, scanned ▸ List.tail_eq_of_cons_eq taken⟩
    refine ⟨found, ?_⟩
    obtain ⟨d, ds, hd, dropped⟩ := found.drop
    obtain ⟨rfl, rfl⟩ := List.cons.inj (hx.symm.trans hd)
    rwa [scanned, dropped] at tail
  · rintro ⟨found, later⟩
    obtain ⟨c, cs, hx, dropped⟩ := found.drop
    obtain ⟨d, ds, hd, scanned, taken⟩ := found
    obtain ⟨rfl, rfl⟩ := List.cons.inj (hx.symm.trans hd)
    rw [first c cs hx, scanned, dropped, taken, ← hx]
    exact congrArg (x :: ·) later

theorem cutsOff_append_iff :
    CutsOff (xs ++ ys) rest ↔ CutsOff xs (spelling ys ++ rest) ∧ CutsOff ys rest := by
  induction xs with
  | nil => exact ⟨fun h => ⟨cutsOff_nil, h⟩, fun h => h.2⟩
  | cons x xs ih =>
    have join : spelling (xs ++ ys) ++ rest = spelling xs ++ (spelling ys ++ rest) := by
      rw [spelling, List.flatMap_append, List.append_assoc]
      rfl
    rw [List.cons_append, cutsOff_cons_iff, cutsOff_cons_iff, ih, join, and_assoc]

/-- Any front part of the lexemes of a text is cut off before the rest. -/
theorem cutsOff_of_lexemes {cs : List Char} (xs ys : List (Lexeme × List Char))
    (h : lexemes cs = xs ++ ys) :
    CutsOff xs (spelling ys) ∧ lexemes (spelling ys) = ys := by
  have whole : CutsOff (xs ++ ys) [] := by
    have covers := lexemes_flatMap cs
    rw [h] at covers
    rw [CutsOff, List.append_nil, spelling, covers, h, lexemes, List.append_nil]
  obtain ⟨front, back⟩ := cutsOff_append_iff.mp whole
  rw [CutsOff, List.append_nil, lexemes, List.append_nil] at back
  rw [List.append_nil] at front
  exact ⟨front, back⟩

/-! ### Other characters behind the lexemes -/

/-- A lexeme that ends before a character of its own does not look at what follows that. -/
theorem CutsOff.before_ender {e : Char} (he : e ∈ enders) (h : CutsOff xs (e :: rest)) :
    CutsOff xs (e :: others) := by
  induction xs with
  | nil => exact cutsOff_nil
  | cons x xs ih =>
    obtain ⟨found, later⟩ := cutsOff_cons_iff.mp h
    obtain ⟨c, cs, hx, scanned, more⟩ := found.more_eq (by simp)
    have settled := Lexeme.scan_settled he c (cs ++ spelling xs) rest others
    rw [List.append_assoc, List.append_assoc, scanned] at settled
    refine cutsOff_cons_iff.mpr ⟨⟨c, cs, hx, settled ?_, ?_⟩, ih later⟩
    · rw [more, List.length_append]
      exact Nat.le_add_right _ _
    · rw [more, List.take_left]

/-- White space goes on to the first other character. -/
theorem scanned_blank {c : Char} {cs : List Char} (blank : isBlank c = true)
    (all : ∀ d ∈ cs, isBlank d = true) (stops : ∀ d ∈ rest.head?, isBlank d = false) :
    Scanned (⟨.whiteSpace, cs.length, none⟩, c :: cs) rest := by
  have none : rest.takeWhile isBlank = [] := by
    cases rest with
    | nil => rfl
    | cons d rest => exact List.takeWhile_cons_of_neg (by rw [stops d rfl]; exact Bool.false_ne_true)
  refine ⟨c, cs, rfl, ?_, List.take_left⟩
  rw [Lexeme.scan_blank blank, List.takeWhile_append_of_pos all, none, List.append_nil]

theorem Scanned.blank (h : Scanned x rest) (hk : x.1.kind = .whiteSpace) :
    ∃ c cs, x = (⟨.whiteSpace, cs.length, none⟩, c :: cs) ∧ isBlank c = true ∧
      (∀ d ∈ cs, isBlank d = true) ∧ ∀ d ∈ rest.head?, isBlank d = false := by
  obtain ⟨⟨kind, more, value⟩, chars⟩ := x
  obtain ⟨c, cs, rfl, scanned, taken⟩ := h
  have blank := Lexeme.starts_scan c (cs ++ rest)
  rw [scanned] at blank
  dsimp only at hk blank taken
  subst hk
  rw [Lexeme.scan_blank blank] at scanned
  cases scanned
  have white : (cs ++ rest).takeWhile isBlank = cs :=
    (List.prefix_iff_eq_take.mp (List.takeWhile_prefix _)).trans taken
  have all : ∀ d ∈ cs, isBlank d = true := by
    intro d hd
    have blanks : ((cs ++ rest).takeWhile isBlank).all isBlank = true := List.all_takeWhile
    rw [white] at blanks
    exact List.all_eq_true.mp blanks d hd
  refine ⟨c, cs, by rw [white], blank, all, ?_⟩
  intro d hd
  obtain ⟨rest, rfl⟩ := List.head?_eq_some_iff.mp hd
  rw [List.takeWhile_append_of_pos all, List.append_right_eq_self] at white
  cases hd : isBlank d with
  | false => rfl
  | true =>
    rw [List.takeWhile_cons_of_pos hd] at white
    cases white

/-- A separator looks at what follows it only to see whether there is more white space. -/
theorem Scanned.separator (h : Scanned x rest) (hk : x.1.kind.separates = true) (ne : rest ≠ [])
    (apart : x.1.kind = .whiteSpace → ∀ c ∈ others.head?, isBlank c = false) :
    Scanned x others := by
  by_cases white : x.1.kind = .whiteSpace
  · obtain ⟨c, cs, rfl, blank, all, -⟩ := h.blank white
    exact scanned_blank blank all (apart white)
  obtain ⟨c, cs, hx, scanned, more⟩ := h.more_eq ne
  refine ⟨c, cs, hx, ?_, by rw [more, List.take_left]⟩
  have starts := Lexeme.starts_scan c (cs ++ rest)
  rw [scanned] at starts
  obtain kind | kind | kind | kind := Kind.separates_cases hk
  · exact absurd kind white
  · rw [kind] at starts
    obtain ⟨rfl, tail, hcs⟩ := starts
    have read : (⟨.comment, 1 + commentBody tail, none⟩ : Lexeme) = x.1 := by
      rw [← scanned, hcs]
      rfl
    rw [← read] at more ⊢
    cases cs with
    | nil => exact absurd more (by dsimp only [List.length_nil]; omega)
    | cons d body =>
      have whole : d :: (body ++ rest) = '*' :: tail := hcs
      obtain ⟨rfl, htail⟩ := List.cons.inj whole
      have closed : commentBody (body ++ rest) = body.length := by
        rw [htail]
        dsimp only [List.length_cons] at more
        omega
      rw [← htail, closed, ← commentBody_closed closed ne others]
      rfl
  · rw [kind] at starts
    obtain ⟨rfl, tail, hcs⟩ := starts
    have read : (⟨.cdo, 3, none⟩ : Lexeme) = x.1 := by
      rw [← scanned, hcs]
      rfl
    rw [← read] at more ⊢
    obtain rfl : cs = ['!', '-', '-'] := List.append_inj_left hcs more.symm
    rfl
  · rw [kind] at starts
    obtain ⟨rfl, tail, hcs⟩ := starts
    have read : (⟨.cdc, 2, none⟩ : Lexeme) = x.1 := by
      rw [← scanned, hcs]
      rfl
    rw [← read] at more ⊢
    obtain rfl : cs = ['-', '>'] := List.append_inj_left hcs more.symm
    rfl

/-- Separators that are cut off before some text are cut off before any other, too, unless that
goes on with the white space that the last of them is. -/
theorem CutsOff.separators (h : CutsOff xs rest) (separate : ∀ x ∈ xs, x.1.kind.separates = true)
    (ne : rest ≠ [])
    (apart : ∀ x ∈ xs.getLast?, x.1.kind = .whiteSpace → ∀ c ∈ others.head?, isBlank c = false) :
    CutsOff xs others := by
  induction xs with
  | nil => exact cutsOff_nil
  | cons x xs ih =>
    obtain ⟨found, later⟩ := cutsOff_cons_iff.mp h
    obtain ⟨first, separate⟩ := List.forall_mem_cons.mp separate
    refine cutsOff_cons_iff.mpr ⟨found.separator first ?_ ?_, ih later separate ?_⟩
    · exact List.append_ne_nil_of_right_ne_nil _ ne
    · intro white
      cases xs with
      | nil => exact apart x rfl white
      | cons y ys =>
        -- The white space in front of the next lexeme ended there before, too.
        obtain ⟨-, -, -, -, -, stops⟩ := found.blank white
        obtain ⟨⟨d, ds, hy, -, -⟩, -⟩ := cutsOff_cons_iff.mp later
        have head (v : List Char) : (spelling (y :: ys) ++ v).head? = some d := by
          rw [spelling, List.flatMap_cons, hy]
          rfl
        rw [head] at stops ⊢
        exact stops
    · cases xs with
      | nil => rintro _ ⟨⟩
      | cons y ys => exact apart

/-- The kinds of some lexemes. -/
def kinds (xs : List (Lexeme × List Char)) : List Kind := xs.map fun x => x.1.kind

/-- Lexemes that end with a boundary are cut off before any text. -/
theorem CutsOff.bounded (h : CutsOff xs rest)
    (bounds : ∀ k ∈ (kinds xs).getLast?, k.bounds = true) : CutsOff xs others := by
  obtain rfl | ⟨front, x, rfl⟩ := List.eq_nil_or_concat xs
  · exact cutsOff_nil
  rw [List.concat_eq_append] at h bounds ⊢
  obtain ⟨before, alone⟩ := cutsOff_append_iff.mp h
  obtain ⟨⟨c, cs, hx, scanned, taken⟩, -⟩ := cutsOff_cons_iff.mp alone
  change Lexeme.scan c (cs ++ rest) = x.1 at scanned
  have kind : (Lexeme.scan c (cs ++ rest)).kind.bounds = true := by
    rw [scanned]
    exact bounds _ (by simp [kinds])
  have he : c ∈ enders := Lexeme.ender_of_bounds kind
  have single := (Lexeme.scan_ender he (cs ++ rest) rest).2
  rw [scanned] at single
  rw [single, List.take_zero] at taken
  subst taken
  have spelt : spelling [x] = [c] := by
    rw [spelling, List.flatMap_singleton, hx]
  rw [spelt] at before
  refine cutsOff_append_iff.mpr ⟨?_, cutsOff_cons_iff.mpr ⟨⟨c, [], hx, ?_, ?_⟩, cutsOff_nil⟩⟩
  · rw [spelt]
    exact before.before_ender he
  · rw [← scanned]
    exact (Lexeme.scan_ender he _ _).1
  · rw [single, List.take_zero]

/-- Lexemes with nothing but separators behind their last boundary are cut off before any text that
does not go on with their white space. -/
theorem CutsOff.fresh (h : CutsOff xs rest) (fresh : Kind.Fresh (kinds xs)) (ne : rest ≠ [])
    (apart : ∀ x ∈ xs.getLast?, x.1.kind = .whiteSpace → ∀ c ∈ others.head?, isBlank c = false) :
    CutsOff xs others := by
  obtain ⟨front, seps, split, bounds, separate⟩ := fresh
  obtain ⟨ys, zs, rfl, rfl, rfl⟩ := List.map_eq_append_iff.mp split
  obtain ⟨before, behind⟩ := cutsOff_append_iff.mp h
  refine cutsOff_append_iff.mpr ⟨before.bounded bounds, behind.separators ?_ ne ?_⟩
  · intro x hx
    exact separate _ (List.mem_map_of_mem hx)
  · intro x hx
    exact apart x (by rw [List.getLast?_append, hx]; rfl)

end

/-! ### Around the gap -/

section

variable {x : Lexeme × List Char} {rest : List Char}

/-- White space is what starts with a blank. -/
theorem Scanned.isBlank_iff (h : Scanned x rest) {c : Char} (hc : x.2.head? = some c) :
    isBlank c = true ↔ x.1.kind = .whiteSpace := by
  constructor
  · intro blank
    obtain ⟨d, cs, hx, scanned, -⟩ := h
    rw [hx] at hc
    cases hc
    rw [← scanned, Lexeme.scan_blank blank]
  · intro hk
    obtain ⟨d, cs, rfl, blank, -, -⟩ := h.blank hk
    cases hc
    exact blank

end

section

variable {cs : List Char} {front gone back : List (Lexeme × List Char)}
variable {w u : Lexeme × List Char}

/-- White space on both sides of a gap, put together. -/
def joined (w u : Lexeme × List Char) : Lexeme × List Char :=
  ({ w.1 with more := w.2.tail.length + u.2.length }, w.2 ++ u.2)

/-- Without some of its lexemes a text is cut into the others, if what is left begins afresh there
and white space does not meet white space. -/
theorem lexemes_without (h : lexemes cs = front ++ (gone ++ back)) (fresh : Kind.Fresh (kinds front))
    (ne : gone ≠ [])
    (apart : ∀ x ∈ front.getLast?, x.1.kind = .whiteSpace →
      ∀ y ∈ back.head?, y.1.kind ≠ .whiteSpace) :
    lexemes (spelling front ++ spelling back) = front ++ back := by
  obtain ⟨cut, later⟩ := cutsOff_of_lexemes _ _ h
  obtain ⟨-, last⟩ := cutsOff_of_lexemes _ _ later
  have follows : spelling (gone ++ back) ≠ [] := by
    intro empty
    rw [empty, lexemes] at later
    exact ne (List.append_eq_nil_iff.mp later.symm).1
  have others : CutsOff front (spelling back) := by
    refine cut.fresh fresh follows fun x hx white c hc => ?_
    cases back with
    | nil => cases hc
    | cons y ys =>
      have alone : CutsOff (y :: ys) [] := (cutsOff_of_lexemes _ [] (by simpa using last)).1
      obtain ⟨found, -⟩ := cutsOff_cons_iff.mp alone
      obtain ⟨d, ds, hy, -, -⟩ := id found
      have first : c = d := by
        rw [spelling, List.flatMap_cons, hy] at hc
        exact (Option.some.inj hc).symm
      rw [Bool.eq_false_iff, Ne, first, found.isBlank_iff (by rw [hy]; rfl)]
      exact apart x hx white y rfl
  rwa [CutsOff, last] at others

/-- White space that meets white space becomes one lexeme. -/
theorem lexemes_joined (h : lexemes cs = front ++ (w :: (gone ++ u :: back)))
    (fresh : Kind.Fresh (kinds front)) (hw : w.1.kind = .whiteSpace) (hu : u.1.kind = .whiteSpace) :
    lexemes (spelling front ++ (w.2 ++ (u.2 ++ spelling back))) = front ++ joined w u :: back := by
  obtain ⟨cut, later⟩ := cutsOff_of_lexemes _ _ h
  obtain ⟨before, -⟩ := cutsOff_cons_iff.mp (cutsOff_of_lexemes [w] _ later).1
  obtain ⟨c, cs, rfl, blank, all, -⟩ := before.blank hw
  obtain ⟨-, after⟩ := cutsOff_of_lexemes ((⟨.whiteSpace, cs.length, none⟩, c :: cs) :: gone)
    (u :: back) later
  obtain ⟨behind, last⟩ := cutsOff_of_lexemes [u] back after
  obtain ⟨d, ds, rfl, blank', all', stops⟩ := (cutsOff_cons_iff.mp behind).1.blank hu
  have others : CutsOff front ((c :: cs) ++ ((d :: ds) ++ spelling back)) := by
    refine cut.fresh fresh (List.cons_ne_nil c _) fun x hx white => ?_
    obtain ⟨f, rfl⟩ := List.getLast?_eq_some_iff.mp hx
    obtain ⟨found, -⟩ := cutsOff_cons_iff.mp (cutsOff_append_iff.mp cut).2
    obtain ⟨-, -, -, -, -, ends⟩ := found.blank white
    exact ends
  have whole : Scanned (joined (⟨.whiteSpace, cs.length, none⟩, c :: cs)
      (⟨.whiteSpace, ds.length, none⟩, d :: ds)) (spelling back) := by
    have blanks : ∀ e ∈ cs ++ d :: ds, isBlank e = true :=
      List.forall_mem_append.mpr ⟨all, List.forall_mem_cons.mpr ⟨blank', all'⟩⟩
    have found : Scanned (⟨.whiteSpace, (cs ++ d :: ds).length, none⟩, c :: (cs ++ d :: ds))
        (spelling back) := scanned_blank blank blanks stops
    rwa [List.length_append] at found
  have cutJoined : CutsOff [joined (⟨.whiteSpace, cs.length, none⟩, c :: cs)
      (⟨.whiteSpace, ds.length, none⟩, d :: ds)] (spelling back) :=
    cutsOff_cons_iff.mpr ⟨whole, cutsOff_nil⟩
  rw [CutsOff, last] at cutJoined
  refine Eq.trans others (congrArg (front ++ ·) (Eq.trans (congrArg lexemes ?_) cutJoined))
  simp [spelling, joined]

end

end Stylesheet.Token
