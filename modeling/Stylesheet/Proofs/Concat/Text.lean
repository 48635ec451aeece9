import Stylesheet.Token.Scan

/-!
# Reading up to a token of its own

A semicolon, a closing bracket and an opening curly bracket stand in no name, numeral or white
space. What looks ahead in a text stops at such a character, and what reads names, strings, urls and
comments does not depend on what follows the character so long as it does not take it.
-/

namespace Stylesheet.Token

open Text

/-- Characters that end a name, a numeral or white space in front of them and are tokens of their
own. -/
def enders : List Char := [')', ']', '}', ';', '{']

/-- The kinds of those of these tokens that open nothing. -/
def Kind.isEnder (k : Kind) : Bool :=
  k = .rightParen || k = .rightSquare || k = .rightCurly || k = .semicolon

/-- What holds of each of the characters holds of all. -/
@[elab_as_elim]
theorem ender_cases {motive : Char → Prop} {e : Char} (he : e ∈ enders) (paren : motive ')')
    (square : motive ']') (curly : motive '}') (semicolon : motive ';') (opening : motive '{') :
    motive e := by
  simp only [enders, List.mem_cons, List.not_mem_nil, or_false] at he
  obtain rfl | rfl | rfl | rfl | rfl := he
  · exact paren
  · exact square
  · exact curly
  · exact semicolon
  · exact opening

/-! ### Lengths -/

section

variable (cs : List Char)

theorem blankAfterHex_le : blankAfterHex cs ≤ cs.length := by
  unfold blankAfterHex
  split
  · simp
  · split <;> simp
  · exact Nat.le_refl 0

theorem hexDigits_le : ((cs.take 6).takeWhile isHex).length ≤ cs.length :=
  Nat.le_trans (List.takeWhile_prefix isHex).length_le (List.length_take_le' 6 cs)

theorem escape_le : (escape cs).1 ≤ cs.length := by
  cases cs with
  | nil => exact Nat.le_refl 0
  | cons c cs =>
    rw [escape]
    split
    · have digits := hexDigits_le (c :: cs)
      have blank := blankAfterHex_le
        ((c :: cs).drop (((c :: cs).take 6).takeWhile isHex).length)
      rw [List.length_drop] at blank
      dsimp only
      omega
    · exact Nat.le_add_left 1 cs.length

theorem drop_blankAfterHex (ds : List Char) :
    (cs ++ ds).drop (blankAfterHex cs) = cs.drop (blankAfterHex cs) ++ ds :=
  List.drop_append_of_le_length (blankAfterHex_le cs)

theorem drop_escape (ds : List Char) :
    (cs ++ ds).drop (escape cs).1 = cs.drop (escape cs).1 ++ ds :=
  List.drop_append_of_le_length (escape_le cs)

namespace Numeral

theorem sign_le : sign cs ≤ cs.length := by
  unfold sign
  split <;> simp

theorem digits_le : digits cs ≤ cs.length := (List.takeWhile_prefix _).length_le

theorem fraction_le : fraction cs ≤ cs.length := by
  unfold fraction
  split
  · rename_i cs
    have := digits_le cs
    split
    · exact Nat.zero_le _
    · rw [List.length_cons]
      omega
  · exact Nat.zero_le _

theorem exponent_le : exponent cs ≤ cs.length := by
  cases cs with
  | nil => exact Nat.le_refl 0
  | cons c cs =>
    rw [exponent]
    have signed := sign_le cs
    have power := digits_le (cs.drop (sign cs))
    rw [List.length_drop] at power
    rw [List.length_cons]
    split
    · dsimp only
      split <;> omega
    · exact Nat.zero_le _

theorem length_le : length cs ≤ cs.length := by
  have signed := sign_le cs
  have whole := digits_le (cs.drop (sign cs))
  have point := fraction_le (cs.drop (sign cs + digits (cs.drop (sign cs))))
  have power := exponent_le (cs.drop (sign cs + digits (cs.drop (sign cs)) +
    fraction (cs.drop (sign cs + digits (cs.drop (sign cs))))))
  simp only [List.length_drop] at whole point power
  rw [length]
  omega

end Numeral

end

/-! ### Looking ahead -/

section

variable {e : Char}

theorem takeWhile_before {p : Char → Bool} (h : p e = false) (cs t : List Char) :
    (cs ++ e :: t).takeWhile p = cs.takeWhile p := by
  induction cs with
  | nil => exact List.takeWhile_cons_of_neg (by rw [h]; exact Bool.false_ne_true)
  | cons c cs ih => rw [List.cons_append, List.takeWhile_cons, List.takeWhile_cons, ih]

variable (he : e ∈ enders) (cs t : List Char)
include he

theorem isBlank_ender : isBlank e = false := ender_cases he rfl rfl rfl rfl rfl

theorem isHex_ender : isHex e = false := ender_cases he rfl rfl rfl rfl rfl

theorem isDigit_ender : e.isDigit = false := ender_cases he rfl rfl rfl rfl rfl

theorem isNewline_ender : isNewline e = false := ender_cases he rfl rfl rfl rfl rfl

theorem isNameChar_ender : isNameChar e = false := ender_cases he rfl rfl rfl rfl rfl

theorem breaksUrl_ender : breaksUrl e = false := ender_cases he rfl rfl rfl rfl rfl

theorem ender_ne_backslash : e ≠ '\\' :=
  ender_cases he (by decide) (by decide) (by decide) (by decide) (by decide)

theorem escape_ender : (escape (e :: t)).1 = 1 := ender_cases he rfl rfl rfl rfl rfl

theorem isPrefixOf_before {pre : List Char} (other : ∀ c ∈ pre, c ∉ enders) :
    pre.isPrefixOf (cs ++ e :: t) = pre.isPrefixOf cs := by
  induction pre generalizing cs with
  | nil => rw [List.isPrefixOf_nil_left, List.isPrefixOf_nil_left]
  | cons c pre ih =>
    obtain ⟨first, later⟩ := List.forall_mem_cons.mp other
    cases cs with
    | nil =>
      show (c == e && pre.isPrefixOf t) = false
      rw [beq_false_of_ne (ne_of_mem_of_not_mem he first).symm, Bool.false_and]
    | cons d cs => rw [List.cons_append, List.isPrefixOf, List.isPrefixOf, ih cs later]

theorem atNewline_before : atNewline (cs ++ e :: t) = atNewline cs := by
  cases cs with
  | nil => exact ender_cases he rfl rfl rfl rfl rfl
  | cons c cs => rfl

theorem startsIdent_ender : startsIdent (e :: t) = false :=
  ender_cases he rfl rfl rfl rfl rfl

theorem startsIdent_before : startsIdent (cs ++ e :: t) = startsIdent cs := by
  cases cs with
  | nil => exact startsIdent_ender he t
  | cons c cs =>
    by_cases slash : c = '\\'
    · subst slash
      exact congrArg (!·) (atNewline_before he cs t)
    · by_cases hyphen : c = '-'
      · subst hyphen
        cases cs with
        | nil =>
          exact ender_cases he rfl rfl rfl rfl rfl
        | cons d cs => rfl
      · simp [startsIdent, hyphen]

omit he in
theorem blankAfterHex_before (blank : isBlank e = false) :
    blankAfterHex (cs ++ e :: t) = blankAfterHex cs := by
  have feed : e ≠ '\n' := by
    rintro rfl
    cases blank
  have return' : e ≠ '\r' := by
    rintro rfl
    cases blank
  rcases cs with - | ⟨c, - | ⟨d, cs⟩⟩
  · simp [blankAfterHex, blank, return']
  · simp [blankAfterHex, feed]
  · by_cases return' : c = '\r'
    · by_cases feed : d = '\n'
      · subst return' feed
        rfl
      · simp [blankAfterHex, feed]
    · simp [blankAfterHex, return']

omit he in
/-- The digits of a hexadecimal escape, of which there are at most six. -/
theorem hexDigits_before (hex : isHex e = false) :
    ((cs ++ e :: t).take 6).takeWhile isHex = (cs.take 6).takeWhile isHex := by
  rw [List.take_append]
  cases 6 - cs.length with
  | zero => rw [List.take_zero, List.append_nil]
  | succ n => exact takeWhile_before hex _ _

omit he in
theorem escape_before (hex : isHex e = false) (blank : isBlank e = false) (c : Char) :
    escape (c :: cs ++ e :: t) = escape (c :: cs) := by
  have digits := hexDigits_before (c :: cs) t hex
  rw [List.cons_append] at digits
  rw [List.cons_append, escape, escape, digits]
  dsimp only
  rw [← List.cons_append, List.drop_append_of_le_length (hexDigits_le (c :: cs)),
    blankAfterHex_before _ _ blank]

/-- An escape that does not take the character. -/
theorem escape_within (fits : (escape (cs ++ e :: t)).1 ≤ cs.length) (u : List Char) :
    escape (cs ++ e :: u) = escape cs := by
  cases cs with
  | nil =>
    rw [List.nil_append, escape_ender he] at fits
    exact absurd fits (Nat.not_succ_le_zero 0)
  | cons c cs => exact escape_before cs u (isHex_ender he) (isBlank_ender he) c

namespace Numeral

theorem digits_before : digits (cs ++ e :: t) = digits cs :=
  congrArg List.length (takeWhile_before (isDigit_ender he) cs t)

theorem sign_before : sign (cs ++ e :: t) = sign cs := by
  cases cs with
  | nil => exact ender_cases he rfl rfl rfl rfl rfl
  | cons c cs =>
    rw [List.cons_append]
    unfold sign
    split <;> simp_all

theorem fraction_before : fraction (cs ++ e :: t) = fraction cs := by
  cases cs with
  | nil => exact ender_cases he rfl rfl rfl rfl rfl
  | cons c cs =>
    by_cases point : c = '.'
    · subst point
      rw [List.cons_append, fraction, fraction, digits_before he]
    · simp [fraction, point]

theorem exponent_before : exponent (cs ++ e :: t) = exponent cs := by
  cases cs with
  | nil => exact ender_cases he rfl rfl rfl rfl rfl
  | cons c cs =>
    rw [List.cons_append, exponent, exponent, sign_before he,
      List.drop_append_of_le_length (sign_le cs), digits_before he]

theorem length_before : length (cs ++ e :: t) = length cs := by
  have signed := sign_le cs
  have whole := digits_le (cs.drop (sign cs))
  have point := fraction_le (cs.drop (sign cs + digits (cs.drop (sign cs))))
  simp only [List.length_drop] at whole point
  rw [length, length, sign_before he, List.drop_append_of_le_length signed, digits_before he,
    List.drop_append_of_le_length (by omega), fraction_before he,
    List.drop_append_of_le_length (by omega), exponent_before he]

theorem starts_before : starts (cs ++ e :: t) = starts cs := by
  rw [starts, starts, sign_before he, List.drop_append_of_le_length (sign_le cs)]
  cases cs.drop (sign cs) with
  | nil => exact ender_cases he rfl rfl rfl rfl rfl
  | cons c rest =>
    rw [List.cons_append]
    simp only [digits_before he]

end Numeral

end

/-! ### Scanners -/

/-- Where `f` takes no more than what stands before the character `e`, what follows `e` does not
matter. -/
def Settled {β : Type} (e : Char) (size : β → Nat) (f : List Char → β) : Prop :=
  ∀ cs t u, size (f (cs ++ e :: t)) ≤ cs.length → f (cs ++ e :: u) = f (cs ++ e :: t)

theorem name_escaped {cs : List Char} (line : ¬atNewline cs = true) :
    name ('\\' :: cs) =
      (1 + (escape cs).1 + (name (cs.drop (escape cs).1)).1,
        (escape cs).2 :: (name (cs.drop (escape cs).1)).2) := by
  rw [name, if_pos rfl, if_neg line]

theorem name_char {c : Char} {cs : List Char} (slash : c ≠ '\\') (char : isNameChar c = true) :
    name (c :: cs) = (1 + (name cs).1, plain c :: (name cs).2) := by
  rw [name, if_neg slash, if_pos char]

theorem name_stop {c : Char} {cs : List Char} (slash : c ≠ '\\') (char : ¬isNameChar c = true) :
    name (c :: cs) = (0, []) := by
  rw [name, if_neg slash, if_neg char]

theorem name_settled {e : Char} (he : e ∈ enders) : Settled e Prod.fst name := by
  intro cs t u
  induction cs using name.induct with
  | case1 =>
    intro _
    have stop (v : List Char) : name (e :: v) = (0, []) :=
      name_stop (ender_ne_backslash he) (by rw [isNameChar_ender he]; exact Bool.false_ne_true)
    rw [List.nil_append, List.nil_append, stop, stop]
  | case2 cs line =>
    intro _
    rw [List.cons_append, List.cons_append, name, name, if_pos rfl, if_pos rfl, atNewline_before he,
      atNewline_before he, if_pos line, if_pos line]
  | case3 cs line used meant found rest value after ih =>
    intro fits
    obtain rfl : (escape cs).1 = used := congrArg Prod.fst found
    have line' (v : List Char) : ¬atNewline (cs ++ e :: v) = true := by
      rw [atNewline_before he]
      exact line
    rw [List.cons_append, name_escaped (line' t), List.length_cons] at fits
    dsimp only at fits
    have within : (escape (cs ++ e :: t)).1 ≤ cs.length := by omega
    have same := escape_within he cs t within
    rw [same, drop_escape] at fits
    rw [List.cons_append, List.cons_append, name_escaped (line' t), name_escaped (line' u), same,
      same, drop_escape, drop_escape, ih (by rw [List.length_drop]; omega)]
  | case4 c cs slash char rest value after ih =>
    intro fits
    rw [List.cons_append, name_char slash char, List.length_cons] at fits
    rw [List.cons_append, List.cons_append, name_char slash char, name_char slash char,
      ih (by omega)]
  | case5 c cs slash char =>
    intro _
    rw [List.cons_append, List.cons_append, name_stop slash char, name_stop slash char]

section

variable {quote c d : Char} {cs ds : List Char}

theorem quoted_end : quoted quote (quote :: cs) = (1, some []) := by
  rw [quoted.eq_def]
  dsimp only
  rw [if_pos rfl]

theorem quoted_line (end' : c ≠ quote) (line : isNewline c = true) :
    quoted quote (c :: cs) = (0, none) := by
  rw [quoted.eq_def]
  dsimp only
  rw [if_neg end', if_pos line]

theorem quoted_char (end' : c ≠ quote) (line : ¬isNewline c = true) (slash : c ≠ '\\') :
    quoted quote (c :: cs) =
      (1 + (quoted quote cs).1, (quoted quote cs).2.map (plain c :: ·)) := by
  rw [quoted.eq_def quote (c :: cs)]
  dsimp only
  rw [if_neg end', if_neg line, if_neg slash]

theorem quoted_continued (end' : '\\' ≠ quote) (line : isNewline d = true) :
    quoted quote ('\\' :: d :: ds) =
      (1 + blankAfterHex (d :: ds) + (quoted quote ((d :: ds).drop (blankAfterHex (d :: ds)))).1,
        (quoted quote ((d :: ds).drop (blankAfterHex (d :: ds)))).2) := by
  rw [quoted.eq_def quote ('\\' :: _)]
  dsimp only
  rw [if_neg end', if_neg (by decide), if_pos rfl, if_pos line]

theorem quoted_escaped (end' : '\\' ≠ quote) (line : ¬isNewline d = true) :
    quoted quote ('\\' :: d :: ds) =
      (1 + (escape (d :: ds)).1 + (quoted quote ((d :: ds).drop (escape (d :: ds)).1)).1,
        (quoted quote ((d :: ds).drop (escape (d :: ds)).1)).2.map
          ((escape (d :: ds)).2 :: ·)) := by
  rw [quoted.eq_def quote ('\\' :: _)]
  dsimp only
  rw [if_neg end', if_neg (by decide), if_pos rfl, if_neg line]

end

theorem quoted_settled {e quote : Char} (he : e ∈ enders) (other : quote ∉ enders) :
    Settled e Prod.fst (quoted quote) := by
  intro cs t u
  induction cs using quoted.induct quote with
  | case1 =>
    intro fits
    rw [List.nil_append, quoted_char (ne_of_mem_of_not_mem he other)
      (by rw [isNewline_ender he]; exact Bool.false_ne_true) (ender_ne_backslash he)] at fits
    exact absurd fits (by simp)
  | case2 cs =>
    intro _
    rw [List.cons_append, List.cons_append, quoted_end, quoted_end]
  | case3 c cs end' line =>
    intro _
    rw [List.cons_append, List.cons_append, quoted_line end' line, quoted_line end' line]
  | case4 end' =>
    intro fits
    rw [List.cons_append, List.nil_append, quoted_escaped end'
      (by rw [isNewline_ender he]; exact Bool.false_ne_true), escape_ender he,
      List.length_singleton] at fits
    dsimp only at fits
    omega
  | case5 c cs line used rest value after end' _ ih =>
    intro fits
    replace ih :
        (quoted quote ((c :: cs).drop (blankAfterHex (c :: cs)) ++ e :: t)).1 ≤
            ((c :: cs).drop (blankAfterHex (c :: cs))).length → _ := ih
    have short := blankAfterHex_le (c :: cs)
    have same (v : List Char) : blankAfterHex (c :: (cs ++ e :: v)) = blankAfterHex (c :: cs) :=
      blankAfterHex_before (c :: cs) v (isBlank_ender he)
    have split (v : List Char) : (c :: (cs ++ e :: v)).drop (blankAfterHex (c :: cs)) =
        (c :: cs).drop (blankAfterHex (c :: cs)) ++ e :: v :=
      drop_blankAfterHex (c :: cs) (e :: v)
    rw [List.cons_append, List.cons_append, quoted_continued end' line, same, split,
      List.length_cons] at fits
    dsimp only at fits
    rw [List.cons_append, List.cons_append, List.cons_append, List.cons_append,
      quoted_continued end' line, quoted_continued end' line, same, same, split, split,
      ih (by rw [List.length_drop]; omega)]
  | case6 c cs line used meant found rest value after end' _ ih =>
    intro fits
    obtain rfl : (escape (c :: cs)).1 = used := congrArg Prod.fst found
    have short := escape_le (c :: cs)
    have same (v : List Char) : escape (c :: (cs ++ e :: v)) = escape (c :: cs) :=
      escape_before cs v (isHex_ender he) (isBlank_ender he) c
    have split (v : List Char) : (c :: (cs ++ e :: v)).drop (escape (c :: cs)).1 =
        (c :: cs).drop (escape (c :: cs)).1 ++ e :: v :=
      drop_escape (c :: cs) (e :: v)
    rw [List.cons_append, List.cons_append, quoted_escaped end' line, same, split,
      List.length_cons] at fits
    dsimp only at fits
    rw [List.cons_append, List.cons_append, List.cons_append, List.cons_append,
      quoted_escaped end' line, quoted_escaped end' line, same, same, split, split,
      ih (by rw [List.length_drop]; omega)]
  | case7 c cs end' line slash rest value after ih =>
    intro fits
    rw [List.cons_append, quoted_char end' line slash, List.length_cons] at fits
    rw [List.cons_append, List.cons_append, quoted_char end' line slash,
      quoted_char end' line slash, ih (by omega)]

section

variable {c d : Char} {cs ds : List Char}

theorem badUrlRest_char (close : c ≠ ')') (slash : c ≠ '\\') :
    badUrlRest (c :: cs) = 1 + badUrlRest cs := by
  rw [badUrlRest]
  · exact close
  · rintro _ _ rfl
    exact absurd rfl slash

theorem badUrlRest_escaped (special : d = ')' ∨ d = '\\') :
    badUrlRest ('\\' :: d :: ds) = 2 + badUrlRest ds := by
  rw [badUrlRest, if_pos special]

theorem badUrlRest_slash (special : ¬(d = ')' ∨ d = '\\')) :
    badUrlRest ('\\' :: d :: ds) = 1 + badUrlRest (d :: ds) := by
  rw [badUrlRest, if_neg special]

end

/-- A malformed url goes on at least through the next character. -/
theorem badUrlRest_pos (c : Char) (t : List Char) : 0 < badUrlRest (c :: t) := by
  by_cases close : c = ')'
  · rw [close, badUrlRest]
    exact Nat.one_pos
  · by_cases slash : c = '\\'
    · subst slash
      cases t with
      | nil =>
        rw [badUrlRest]
        · exact Nat.succ_pos _
        · decide
        · rintro _ _ _ ⟨⟩
      | cons d ds =>
        rw [badUrlRest]
        split <;> omega
    · rw [badUrlRest_char close slash]
      omega

theorem badUrlRest_settled {e : Char} : Settled e id badUrlRest := by
  intro cs t u
  induction cs using badUrlRest.induct with
  | case1 =>
    intro fits
    exact absurd fits (Nat.not_le_of_lt (badUrlRest_pos e t))
  | case2 cs => intro _; rfl
  | case3 c cs special ih =>
    intro fits
    simp only [List.cons_append, badUrlRest_escaped special, id_eq, List.length_cons] at fits ih ⊢
    rw [ih (by omega)]
  | case4 c cs special ih =>
    intro fits
    simp only [List.cons_append, badUrlRest_slash special, id_eq, List.length_cons] at fits ih ⊢
    rw [ih (by omega)]
  | case5 c cs close slash ih =>
    intro fits
    by_cases backslash : c = '\\'
    · subst backslash
      cases cs with
      | nil =>
        have pos := badUrlRest_pos e t
        rw [List.cons_append, List.nil_append, id_eq, List.length_singleton] at fits
        by_cases special : e = ')' ∨ e = '\\'
        · rw [badUrlRest_escaped special] at fits
          omega
        · rw [badUrlRest_slash special] at fits
          omega
      | cons d ds => exact (slash d ds rfl rfl).elim
    · simp only [List.cons_append, badUrlRest_char close backslash, id_eq, List.length_cons]
        at fits ih ⊢
      rw [ih (by omega)]

section

variable {c : Char} {cs : List Char}

theorem urlEnd_blank (close : c ≠ ')') (blank : isBlank c = true) :
    urlEnd (c :: cs) = (1 + (urlEnd cs).1, (urlEnd cs).2) := by
  rw [urlEnd, if_pos blank]
  exact close

theorem urlEnd_other (close : c ≠ ')') (blank : ¬isBlank c = true) :
    urlEnd (c :: cs) = (1 + badUrlRest cs, false) := by
  rw [urlEnd, if_neg blank]
  exact close

end

theorem urlEnd_pos (c : Char) (t : List Char) : 0 < (urlEnd (c :: t)).1 := by
  by_cases close : c = ')'
  · rw [close, urlEnd]
    exact Nat.one_pos
  · by_cases blank : isBlank c = true
    · rw [urlEnd_blank close blank]
      exact Nat.add_pos_left Nat.one_pos _
    · rw [urlEnd_other close blank]
      exact Nat.add_pos_left Nat.one_pos _

theorem urlEnd_settled {e : Char} : Settled e Prod.fst urlEnd := by
  intro cs t u
  induction cs using urlEnd.induct with
  | case1 =>
    intro fits
    exact absurd fits (Nat.not_le_of_lt (urlEnd_pos e t))
  | case2 cs => intro _; rfl
  | case3 c cs close blank rest good after ih =>
    intro fits
    rw [List.cons_append, urlEnd_blank close blank, List.length_cons] at fits
    rw [List.cons_append, List.cons_append, urlEnd_blank close blank, urlEnd_blank close blank,
      ih (by omega)]
  | case4 c cs close blank =>
    intro fits
    rw [List.cons_append, urlEnd_other close blank, List.length_cons] at fits
    rw [List.cons_append, List.cons_append, urlEnd_other close blank, urlEnd_other close blank,
      badUrlRest_settled cs t u (by dsimp only [id] at fits ⊢; omega)]

section

variable {c : Char} {cs : List Char}

theorem urlBody_close : urlBody (')' :: cs) = (1, some []) := by
  rw [urlBody, if_pos rfl]

theorem urlBody_blank (close : c ≠ ')') (blank : isBlank c = true) :
    urlBody (c :: cs) = (1 + (urlEnd cs).1, if (urlEnd cs).2 then some [] else none) := by
  rw [urlBody, if_neg close, if_pos blank]

theorem urlBody_broken (close : c ≠ ')') (blank : ¬isBlank c = true)
    (broken : breaksUrl c = true) :
    urlBody (c :: cs) = (1 + badUrlRest cs, none) := by
  rw [urlBody, if_neg close, if_neg blank, if_pos broken]

theorem urlBody_newline (line : atNewline cs = true) :
    urlBody ('\\' :: cs) = (1 + badUrlRest cs, none) := by
  rw [urlBody, if_neg (by decide), if_neg (by decide), if_neg (by decide), if_pos rfl, if_pos line]

theorem urlBody_escaped (line : ¬atNewline cs = true) :
    urlBody ('\\' :: cs) =
      (1 + (escape cs).1 + (urlBody (cs.drop (escape cs).1)).1,
        (urlBody (cs.drop (escape cs).1)).2.map ((escape cs).2 :: ·)) := by
  rw [urlBody, if_neg (by decide), if_neg (by decide), if_neg (by decide), if_pos rfl, if_neg line]

theorem urlBody_char (close : c ≠ ')') (blank : ¬isBlank c = true) (sound : ¬breaksUrl c = true)
    (slash : c ≠ '\\') :
    urlBody (c :: cs) = (1 + (urlBody cs).1, (urlBody cs).2.map (plain c :: ·)) := by
  rw [urlBody, if_neg close, if_neg blank, if_neg sound, if_neg slash]

end

theorem urlBody_ender_pos {e : Char} (he : e ∈ enders) (t : List Char) :
    0 < (urlBody (e :: t)).1 := by
  by_cases close : e = ')'
  · rw [close, urlBody_close]
    exact Nat.one_pos
  · rw [urlBody_char close (by rw [isBlank_ender he]; exact Bool.false_ne_true)
      (by rw [breaksUrl_ender he]; exact Bool.false_ne_true) (ender_ne_backslash he)]
    exact Nat.add_pos_left Nat.one_pos _

theorem urlBody_settled {e : Char} (he : e ∈ enders) : Settled e Prod.fst urlBody := by
  intro cs t u
  induction cs using urlBody.induct with
  | case1 =>
    intro fits
    exact absurd fits (Nat.not_le_of_lt (urlBody_ender_pos he t))
  | case2 cs =>
    intro _
    rw [List.cons_append, List.cons_append, urlBody_close, urlBody_close]
  | case3 c cs close blank rest good after =>
    intro fits
    rw [List.cons_append, urlBody_blank close blank, List.length_cons] at fits
    rw [List.cons_append, List.cons_append, urlBody_blank close blank, urlBody_blank close blank,
      urlEnd_settled cs t u (by dsimp only at fits; omega)]
  | case4 c cs close blank broken =>
    intro fits
    rw [List.cons_append, urlBody_broken close blank broken, List.length_cons] at fits
    rw [List.cons_append, List.cons_append, urlBody_broken close blank broken,
      urlBody_broken close blank broken,
      badUrlRest_settled cs t u (by dsimp only [id] at fits ⊢; omega)]
  | case5 cs line =>
    intro fits
    have line' (v : List Char) : atNewline (cs ++ e :: v) = true := by
      rw [atNewline_before he]
      exact line
    rw [List.cons_append, urlBody_newline (line' t), List.length_cons] at fits
    rw [List.cons_append, List.cons_append, urlBody_newline (line' t), urlBody_newline (line' u),
      badUrlRest_settled cs t u (by dsimp only [id] at fits ⊢; omega)]
  | case6 cs line used meant found rest value after _ _ _ ih =>
    intro fits
    obtain rfl : (escape cs).1 = used := congrArg Prod.fst found
    have line' (v : List Char) : ¬atNewline (cs ++ e :: v) = true := by
      rw [atNewline_before he]
      exact line
    rw [List.cons_append, urlBody_escaped (line' t), List.length_cons] at fits
    dsimp only at fits
    have within : (escape (cs ++ e :: t)).1 ≤ cs.length := by omega
    have same := escape_within he cs t within
    rw [same, drop_escape] at fits
    rw [List.cons_append, List.cons_append, urlBody_escaped (line' t), urlBody_escaped (line' u),
      same, same, drop_escape, drop_escape, ih (by rw [List.length_drop]; omega)]
  | case7 c cs close blank broken slash rest value after ih =>
    intro fits
    rw [List.cons_append, urlBody_char close blank broken slash, List.length_cons] at fits
    rw [List.cons_append, List.cons_append, urlBody_char close blank broken slash,
      urlBody_char close blank broken slash, ih (by dsimp only at fits; omega)]

theorem commentBody_char {c : Char} {cs : List Char}
    (goes : ∀ tail, c = '*' → cs = '/' :: tail → False) :
    commentBody (c :: cs) = 1 + commentBody cs := by
  rw [commentBody]
  exact goes

theorem commentBody_settled {e : Char} (he : e ∈ enders) : Settled e id commentBody := by
  intro cs t u
  induction cs using commentBody.induct with
  | case1 =>
    intro fits
    have plain (tail : List Char) (star : e = '*') (_ : t = '/' :: tail) : False :=
      ne_of_mem_of_not_mem he (by decide) star
    rw [List.nil_append, commentBody_char plain, id_eq, List.length_nil] at fits
    omega
  | case2 cs => intro _; rfl
  | case3 c cs goes ih =>
    intro fits
    have goes' (v : List Char) (tail : List Char) (star : c = '*')
        (slash : cs ++ e :: v = '/' :: tail) : False := by
      cases cs with
      | nil => exact ne_of_mem_of_not_mem he (by decide) (List.head_eq_of_cons_eq slash)
      | cons d ds =>
        obtain rfl : d = '/' := List.head_eq_of_cons_eq slash
        exact goes ds star rfl
    simp only [List.cons_append, commentBody_char (goes' t), commentBody_char (goes' u), id_eq,
      List.length_cons] at fits ih ⊢
    rw [ih (by omega)]

end Stylesheet.Token
