import Stylesheet.Proofs.Concat.Text
import Stylesheet.Proofs.Tokenize

/-!
# Scanning up to a token of its own

A lexeme that ends before a semicolon or a closing bracket does not depend on what follows it, and a
text whose last lexeme is one of them is cut into the same lexemes in front of any other text.
-/

namespace Stylesheet.Token

open Text

namespace Lexeme

theorem string_settled {e quote : Char} (he : e ∈ enders) (other : quote ∉ enders) :
    Settled e Lexeme.more (string quote) := by
  intro cs t u fits
  rw [string] at fits
  have same : quoted quote (cs ++ e :: u) = quoted quote (cs ++ e :: t) := by
    refine quoted_settled he other cs t u ?_
    split at fits
    · rename_i heq
      rw [heq]
      exact fits
    · rename_i heq
      rw [heq]
      exact fits
  rw [string, string, same]

section

variable {cs rest : List Char}

theorem numeric_percent (h : cs.drop (Numeral.length cs) = '%' :: rest) :
    numeric cs = ⟨.percentage, Numeral.length cs, none⟩ := by
  rw [numeric, h]
  rfl

theorem numeric_plain (h : cs.drop (Numeral.length cs) = rest) (plain : rest.head? ≠ some '%') :
    numeric cs =
      if startsIdent rest then ⟨.dimension, Numeral.length cs + (name rest).1 - 1, none⟩
      else ⟨.number, Numeral.length cs - 1, none⟩ := by
  rw [numeric, h]
  split
  · exact absurd rfl plain
  · rfl

theorem numeric_settled {e : Char} (he : e ∈ enders) (t u : List Char)
    (fits : (numeric (cs ++ e :: t)).more < cs.length) :
    numeric (cs ++ e :: u) = numeric (cs ++ e :: t) := by
  have split (v : List Char) : (cs ++ e :: v).drop (Numeral.length (cs ++ e :: v)) =
      cs.drop (Numeral.length cs) ++ e :: v := by
    rw [Numeral.length_before he]
    exact List.drop_append_of_le_length (Numeral.length_le cs)
  by_cases percent : ∃ rest, cs.drop (Numeral.length cs) = '%' :: rest
  · obtain ⟨rest, h⟩ := percent
    have found (v : List Char) := (split v).trans (congrArg (· ++ e :: v) h)
    rw [numeric_percent (found u), numeric_percent (found t), Numeral.length_before he,
      Numeral.length_before he]
  · have short : (cs.drop (Numeral.length cs)).length = cs.length - Numeral.length cs :=
      List.length_drop
    generalize cs.drop (Numeral.length cs) = rest at *
    have plain (v : List Char) : (rest ++ e :: v).head? ≠ some '%' := by
      cases rest with
      | nil =>
        rintro ⟨⟩
        exact absurd he (by decide)
      | cons c rest =>
        rintro ⟨⟩
        exact percent ⟨rest, rfl⟩
    rw [numeric_plain (split t) (plain t), startsIdent_before he, Numeral.length_before he] at fits
    rw [numeric_plain (split u) (plain u), numeric_plain (split t) (plain t), startsIdent_before he,
      startsIdent_before he, Numeral.length_before he, Numeral.length_before he]
    split
    · rename_i ident
      rw [if_pos ident] at fits
      rw [name_settled he rest t u (by dsimp only at fits; omega)]
    · rfl

theorem url_quoted {opening : Nat} {quote : Char} (hq : quote = '"' ∨ quote = '\'')
    (h : cs.drop (cs.takeWhile isBlank).length = quote :: rest) :
    url opening cs = ⟨.function, opening, none⟩ := by
  rw [url, h]
  obtain rfl | rfl := hq <;> rfl

/-- What is left of an unquoted url. -/
def urlFrom (used : Nat) (cs : List Char) : Lexeme :=
  match urlBody cs with
  | (n, some value) => ⟨.url, used + n, some (String.ofList value)⟩
  | (n, none) => ⟨.badUrl, used + n, none⟩

theorem more_urlFrom (used : Nat) : (urlFrom used cs).more = used + (urlBody cs).1 := by
  rw [urlFrom]
  split
  · rename_i heq
    rw [heq]
  · rename_i heq
    rw [heq]

theorem url_unquoted {opening : Nat} (h : cs.drop (cs.takeWhile isBlank).length = rest)
    (plain : ∀ quote, rest.head? = some quote → ¬(quote = '"' ∨ quote = '\'')) :
    url opening cs = urlFrom (opening + (cs.takeWhile isBlank).length) rest := by
  rw [url, h]
  split
  · exact absurd (.inl rfl) (plain _ rfl)
  · exact absurd (.inr rfl) (plain _ rfl)
  · rfl

theorem url_settled {e : Char} (he : e ∈ enders) {opening : Nat} (t u : List Char)
    (fits : (url opening (cs ++ e :: t)).more ≤ opening + cs.length) :
    url opening (cs ++ e :: u) = url opening (cs ++ e :: t) := by
  have blanks (v : List Char) : (cs ++ e :: v).takeWhile isBlank = cs.takeWhile isBlank :=
    takeWhile_before (isBlank_ender he) cs v
  have split (v : List Char) :
      (cs ++ e :: v).drop ((cs ++ e :: v).takeWhile isBlank).length =
        cs.drop (cs.takeWhile isBlank).length ++ e :: v := by
    rw [blanks]
    exact List.drop_append_of_le_length (List.takeWhile_prefix _).length_le
  by_cases quoted : ∃ quote rest, (quote = '"' ∨ quote = '\'') ∧
      cs.drop (cs.takeWhile isBlank).length = quote :: rest
  · obtain ⟨quote, rest, hq, h⟩ := quoted
    have found (v : List Char) := (split v).trans (congrArg (· ++ e :: v) h)
    rw [url_quoted hq (found u), url_quoted hq (found t)]
  · have short : (cs.drop (cs.takeWhile isBlank).length).length =
        cs.length - (cs.takeWhile isBlank).length :=
      List.length_drop
    generalize cs.drop (cs.takeWhile isBlank).length = rest at *
    have plain (v : List Char) (quote : Char) (first : (rest ++ e :: v).head? = some quote) :
        ¬(quote = '"' ∨ quote = '\'') := by
      cases rest with
      | nil =>
        cases first
        rintro (rfl | rfl) <;> exact absurd he (by decide)
      | cons c rest =>
        cases first
        exact fun hq => quoted ⟨_, rest, hq, rfl⟩
    rw [url_unquoted (split t) (plain t), more_urlFrom, blanks] at fits
    rw [url_unquoted (split u) (plain u), url_unquoted (split t) (plain t), blanks, blanks, urlFrom,
      urlFrom, urlBody_settled he rest t u (by omega)]

theorem identLike_paren (h : cs.drop (name cs).1 = '(' :: rest) :
    identLike cs =
      if (name cs).2.map Char.toLower = ['u', 'r', 'l'] then url (name cs).1 rest
      else ⟨.function, (name cs).1, none⟩ := by
  rw [identLike]
  dsimp only
  rw [h]
  rfl

theorem identLike_plain (h : cs.drop (name cs).1 = rest) (plain : rest.head? ≠ some '(') :
    identLike cs = ⟨.ident, (name cs).1 - 1, none⟩ := by
  rw [identLike]
  dsimp only
  rw [h]
  split
  · exact absurd rfl plain
  · rfl

theorem le_more_url (opening : Nat) : opening ≤ (url opening cs).more := by
  rw [url]
  split
  · exact Nat.le_refl _
  · exact Nat.le_refl _
  · split
    · dsimp only
      omega
    · dsimp only
      omega

theorem name_le_identLike (cs : List Char) : (name cs).1 ≤ (identLike cs).more + 1 := by
  rw [identLike]
  dsimp only
  split
  · rename_i rest _
    split
    · exact Nat.le_trans (le_more_url _) (Nat.le_succ _)
    · exact Nat.le_succ _
  · dsimp only
    omega

theorem identLike_settled {e : Char} (he : e ∈ enders) (t u : List Char)
    (fits : (identLike (cs ++ e :: t)).more < cs.length) :
    identLike (cs ++ e :: u) = identLike (cs ++ e :: t) := by
  have used := name_le_identLike (cs ++ e :: t)
  have short : (name (cs ++ e :: t)).1 ≤ cs.length := by omega
  have same : name (cs ++ e :: u) = name (cs ++ e :: t) := name_settled he cs t u short
  have splitT : (cs ++ e :: t).drop (name (cs ++ e :: t)).1 =
      cs.drop (name (cs ++ e :: t)).1 ++ e :: t :=
    List.drop_append_of_le_length short
  have splitU : (cs ++ e :: u).drop (name (cs ++ e :: u)).1 =
      cs.drop (name (cs ++ e :: t)).1 ++ e :: u := by
    rw [same]
    exact List.drop_append_of_le_length short
  have left : (cs.drop (name (cs ++ e :: t)).1).length =
      cs.length - (name (cs ++ e :: t)).1 :=
    List.length_drop
  rcases hd : cs.drop (name (cs ++ e :: t)).1 with - | ⟨c, rest⟩
  · rw [hd] at splitT splitU
    have plain (v : List Char) : (e :: v).head? ≠ some '(' := by
      rintro ⟨⟩
      exact absurd he (by decide)
    rw [identLike_plain splitU (plain u), identLike_plain splitT (plain t), same]
  · rw [hd, List.cons_append] at splitT splitU
    rw [hd, List.length_cons] at left
    by_cases paren : c = '('
    · subst paren
      rw [identLike_paren splitT] at fits
      rw [identLike_paren splitU, identLike_paren splitT, same]
      split
      · rename_i named
        rw [if_pos named] at fits
        exact url_settled he t u (by omega)
      · rfl
    · have plain (v : List Char) : (c :: (rest ++ e :: v)).head? ≠ some '(' := by
        rintro ⟨⟩
        exact paren rfl
      rw [identLike_plain splitU (plain u), identLike_plain splitT (plain t), same]

end

/-- Characters that are scanned in their own way. -/
def marks : List Char :=
  ['"', '\'', '#', '@', '-', '<', '/', '(', ')', '[', ']', '{', '}', ',', ':', ';']

section

variable {c : Char} {cs : List Char}

theorem scan_blank (blank : isBlank c = true) :
    scan c cs = ⟨.whiteSpace, (cs.takeWhile isBlank).length, none⟩ := by
  unfold scan
  rw [if_pos blank]

theorem scan_number (blank : ¬isBlank c = true) (number : Numeral.starts (c :: cs) = true) :
    scan c cs = numeric (c :: cs) := by
  unfold scan
  rw [if_neg blank, if_pos number]

theorem scan_other (blank : ¬isBlank c = true) (number : ¬Numeral.starts (c :: cs) = true)
    (mark : c ∉ marks) :
    scan c cs = if startsIdent (c :: cs) then identLike (c :: cs) else ⟨.delim, 0, none⟩ := by
  unfold scan
  rw [if_neg blank, if_neg number]
  split
  case h_17 => rfl
  all_goals exact absurd (by decide) mark

theorem scan_hash (d : Char) :
    scan '#' (d :: cs) = if startsIdent (d :: cs) ∨ d.isDigit ∨ d = '-'
      then ⟨.hash, (name (d :: cs)).1, none⟩ else ⟨.delim, 0, none⟩ := by
  unfold scan
  rw [if_neg (by decide), if_neg (by exact Bool.false_ne_true)]
  rfl

theorem scan_at :
    scan '@' cs =
      if startsIdent cs then ⟨.atKeyword, (name cs).1, none⟩ else ⟨.delim, 0, none⟩ := by
  unfold scan
  rw [if_neg (by decide), if_neg (by exact Bool.false_ne_true)]
  rfl

theorem scan_hyphen (number : ¬Numeral.starts ('-' :: cs) = true) :
    scan '-' cs = if ['-', '>'].isPrefixOf cs then ⟨.cdc, 2, none⟩
      else if startsIdent ('-' :: cs) then identLike ('-' :: cs) else ⟨.delim, 0, none⟩ := by
  unfold scan
  rw [if_neg (by decide), if_neg number]
  by_cases h : ['-', '>'].isPrefixOf cs
  · obtain ⟨rest, rfl⟩ := List.isPrefixOf_iff_prefix.mp h
    rfl
  · rw [if_neg h]
    split
    case h_13 => exact (h rfl).elim
    case h_17 => rfl
    all_goals contradiction

theorem scan_less :
    scan '<' cs = if ['!', '-', '-'].isPrefixOf cs then ⟨.cdo, 3, none⟩
      else ⟨.delim, 0, none⟩ := by
  unfold scan
  rw [if_neg (by decide), if_neg (by exact Bool.false_ne_true)]
  by_cases h : ['!', '-', '-'].isPrefixOf cs
  · obtain ⟨rest, rfl⟩ := List.isPrefixOf_iff_prefix.mp h
    rfl
  · rw [if_neg h]
    split
    case h_14 => exact (h rfl).elim
    case h_17 => rfl
    all_goals contradiction

theorem scan_slash :
    scan '/' cs = if ['*'].isPrefixOf cs then ⟨.comment, 1 + commentBody cs.tail, none⟩
      else ⟨.delim, 0, none⟩ := by
  unfold scan
  rw [if_neg (by decide), if_neg (by exact Bool.false_ne_true)]
  by_cases h : ['*'].isPrefixOf cs
  · obtain ⟨rest, rfl⟩ := List.isPrefixOf_iff_prefix.mp h
    rfl
  · rw [if_neg h]
    split
    case h_15 => exact (h rfl).elim
    case h_17 => rfl
    all_goals contradiction

end

theorem scan_hash_settled {e : Char} (he : e ∈ enders) : Settled e Lexeme.more (scan '#') := by
  intro cs t u fits
  cases cs with
  | nil =>
    have stops (v : List Char) : scan '#' (e :: v) = ⟨.delim, 0, none⟩ := by
      rw [scan_hash, if_neg]
      rw [startsIdent_ender he, isDigit_ender he]
      rintro (h | h | h)
      · cases h
      · cases h
      · exact ne_of_mem_of_not_mem he (by decide) h
    exact (stops u).trans (stops t).symm
  | cons d cs =>
    have ident (v : List Char) : startsIdent (d :: (cs ++ e :: v)) = startsIdent (d :: cs) :=
      startsIdent_before he (d :: cs) v
    rw [List.cons_append, scan_hash, ident] at fits
    rw [List.cons_append, List.cons_append, scan_hash, scan_hash, ident, ident]
    split
    · rename_i starts
      rw [if_pos starts] at fits
      exact congrArg (fun n => Lexeme.mk .hash n.1 none) (name_settled he (d :: cs) t u fits)
    · rfl

theorem scan_at_settled {e : Char} (he : e ∈ enders) : Settled e Lexeme.more (scan '@') := by
  intro cs t u fits
  rw [scan_at, startsIdent_before he] at fits
  rw [scan_at, scan_at, startsIdent_before he, startsIdent_before he]
  split
  · rename_i starts
    rw [if_pos starts] at fits
    rw [name_settled he cs t u fits]
  · rfl

/-- What an identifier at `c` or nothing longer than `c` is read as. -/
theorem ident_settled {e : Char} (he : e ∈ enders) (c : Char) : Settled e Lexeme.more fun cs =>
    if startsIdent (c :: cs) then identLike (c :: cs) else ⟨.delim, 0, none⟩ := by
  intro cs t u fits
  have ident (v : List Char) : startsIdent (c :: (cs ++ e :: v)) = startsIdent (c :: cs) :=
    startsIdent_before he (c :: cs) v
  dsimp only at fits ⊢
  rw [ident] at fits
  rw [ident, ident]
  split
  · rename_i starts
    rw [if_pos starts] at fits
    have settled : identLike ((c :: cs) ++ e :: u) = identLike ((c :: cs) ++ e :: t) :=
      identLike_settled he t u (Nat.lt_succ_of_le fits)
    exact settled
  · rfl

theorem scan_slash_settled {e : Char} (he : e ∈ enders) : Settled e Lexeme.more (scan '/') := by
  intro cs t u fits
  rw [scan_slash, isPrefixOf_before he _ _ (by simp [enders])] at fits
  rw [scan_slash, scan_slash, isPrefixOf_before he _ _ (by simp [enders]),
    isPrefixOf_before he _ _ (by simp [enders])]
  split
  · rename_i star
    rw [if_pos star] at fits
    obtain ⟨rest, rfl⟩ := List.isPrefixOf_iff_prefix.mp star
    rw [List.singleton_append, List.cons_append, List.tail_cons, List.length_cons] at fits
    have body : commentBody (rest ++ e :: t) ≤ rest.length := by
      dsimp only at fits
      omega
    exact congrArg (fun n => Lexeme.mk .comment (1 + n) none)
      (commentBody_settled he rest t u body)
  · rfl

/-- A lexeme that ends before such a character does not depend on what follows it. -/
theorem scan_settled {e : Char} (he : e ∈ enders) (c : Char) : Settled e Lexeme.more (scan c) := by
  intro cs t u fits
  have number (v : List Char) :
      Numeral.starts (c :: (cs ++ e :: v)) = Numeral.starts (c :: cs) :=
    Numeral.starts_before he (c :: cs) v
  by_cases blank : isBlank c = true
  · have white (v : List Char) : (cs ++ e :: v).takeWhile isBlank = cs.takeWhile isBlank :=
      takeWhile_before (isBlank_ender he) cs v
    rw [scan_blank blank, scan_blank blank, white, white]
  by_cases starts : Numeral.starts (c :: cs) = true
  · rw [scan_number blank ((number t).trans starts)] at fits
    rw [scan_number blank ((number t).trans starts), scan_number blank ((number u).trans starts)]
    have settled : numeric ((c :: cs) ++ e :: u) = numeric ((c :: cs) ++ e :: t) :=
      numeric_settled he t u (Nat.lt_succ_of_le fits)
    exact settled
  have none (v : List Char) : ¬Numeral.starts (c :: (cs ++ e :: v)) = true := by
    rw [number]
    exact starts
  by_cases mark : c ∈ marks
  · simp only [marks, List.mem_cons, List.not_mem_nil, or_false] at mark
    obtain rfl | rfl | rfl | rfl | rfl | rfl | rfl | alone := mark
    · exact string_settled he (by decide) cs t u fits
    · exact string_settled he (by decide) cs t u fits
    · exact scan_hash_settled he cs t u fits
    · exact scan_at_settled he cs t u fits
    · have arrow (v : List Char) : ['-', '>'].isPrefixOf (cs ++ e :: v) = _ :=
        isPrefixOf_before he cs v (by simp [enders])
      rw [scan_hyphen (none t), arrow] at fits
      rw [scan_hyphen (none t), scan_hyphen (none u), arrow, arrow]
      split
      · rfl
      · rename_i other
        rw [if_neg other] at fits
        exact ident_settled he '-' cs t u fits
    · rw [scan_less, scan_less, isPrefixOf_before he _ _ (by simp [enders]),
        isPrefixOf_before he _ _ (by simp [enders])]
    · exact scan_slash_settled he cs t u fits
    · -- Every other mark is a token of its own.
      obtain rfl | rfl | rfl | rfl | rfl | rfl | rfl | rfl | rfl := alone <;> rfl
  · rw [scan_other blank (none t) mark] at fits
    rw [scan_other blank (none t) mark, scan_other blank (none u) mark]
    exact ident_settled he c cs t u fits

/-- A character that is a token of its own is read alike before any text. -/
theorem scan_ender {e : Char} (he : e ∈ enders) (t u : List Char) :
    scan e t = scan e u ∧ (scan e t).more = 0 :=
  ender_cases he ⟨rfl, rfl⟩ ⟨rfl, rfl⟩ ⟨rfl, rfl⟩ ⟨rfl, rfl⟩ ⟨rfl, rfl⟩

theorem kind_numeric_mem (cs : List Char) :
    (numeric cs).kind ∈ [Kind.number, .percentage, .dimension] := by
  unfold numeric
  dsimp only
  split
  · simp
  · split <;> simp

theorem kind_string_mem (quote : Char) (cs : List Char) :
    (string quote cs).kind ∈ [Kind.string, .badString] := by
  unfold string
  split <;> simp

theorem kind_url_mem (opening : Nat) (cs : List Char) :
    (url opening cs).kind ∈ [Kind.function, .url, .badUrl] := by
  unfold url
  dsimp only
  split
  · simp
  · simp
  · split <;> simp

theorem kind_identLike_mem (cs : List Char) :
    (identLike cs).kind ∈ [Kind.ident, .function, .url, .badUrl] := by
  unfold identLike
  dsimp only
  split
  · split
    · exact List.mem_cons_of_mem _ (kind_url_mem _ _)
    · simp
  · simp

/-- What a token is scanned as: a numeral or what starts with one, a string, a name or what starts
with one, or something of another kind. -/
theorem scan_cases (c : Char) (cs : List Char) :
    (Numeral.starts (c :: cs) = true ∧ scan c cs = numeric (c :: cs)) ∨
    scan c cs = string c cs ∨
    (startsIdent (c :: cs) = true ∧ scan c cs = identLike (c :: cs)) ∨
    (scan c cs).kind ∉ [Kind.number, .percentage, .dimension, .string, .badString, .ident,
      .function, .url, .badUrl] := by
  unfold scan
  split
  · simp
  · split
    · rename_i starts
      exact .inl ⟨starts, rfl⟩
    · split
      case h_1 | h_2 => exact .inr (.inl rfl)
      case h_3 | h_16 => split <;> simp
      case h_17 =>
        split
        · rename_i starts
          exact .inr (.inr (.inl ⟨starts, rfl⟩))
        · simp
      all_goals simp

theorem kind_numeric (cs : List Char) : (numeric cs).kind.isEnder = false := by
  have plain : ∀ k ∈ [Kind.number, .percentage, .dimension], k.isEnder = false := by decide
  exact plain _ (kind_numeric_mem cs)

theorem kind_string (quote : Char) (cs : List Char) : (string quote cs).kind.isEnder = false := by
  have plain : ∀ k ∈ [Kind.string, .badString], k.isEnder = false := by decide
  exact plain _ (kind_string_mem quote cs)

theorem kind_identLike (cs : List Char) : (identLike cs).kind.isEnder = false := by
  have plain : ∀ k ∈ [Kind.ident, .function, .url, .badUrl], k.isEnder = false := by decide
  exact plain _ (kind_identLike_mem cs)

/-- Only these characters are scanned as tokens of these kinds. -/
theorem ender_of_scan {c : Char} {cs : List Char} (h : (scan c cs).kind.isEnder = true) :
    c ∈ enders := by
  unfold scan at h
  split at h
  · cases h
  · split at h
    · rw [kind_numeric] at h
      cases h
    · split at h
      case h_1 =>
        rw [kind_string] at h
        cases h
      case h_2 =>
        rw [kind_string] at h
        cases h
      case h_3 => split at h <;> cases h
      case h_16 => split at h <;> cases h
      case h_17 =>
        split at h
        · rw [kind_identLike] at h
          cases h
        · cases h
      -- What is left are tokens of one kind each.
      all_goals first | decide | cases h

end Lexeme

/-- A text whose last lexeme is a semicolon or a closing bracket ends with that character, and is
cut into the same lexemes in front of any other text. -/
theorem lexemes_append {cs : List Char} {x : Lexeme × List Char}
    (h : (lexemes cs).getLast? = some x) (own : x.1.kind.isEnder = true) :
    (∃ front, ∃ e ∈ enders, cs = front ++ [e]) ∧
      ∀ t, lexemes (cs ++ t) = lexemes cs ++ lexemes t := by
  fun_induction lexemes cs with
  | case1 => cases h
  | case2 c cs y ih =>
    rcases hrest : lexemes (cs.drop y.more) with - | ⟨z, zs⟩
    · -- The character is all there is.
      rw [hrest] at h
      cases h
      have he : c ∈ enders := Lexeme.ender_of_scan own
      have alone : y.more = 0 := (Lexeme.scan_ender he cs cs).2
      rw [alone, List.drop_zero] at hrest
      obtain rfl : cs = [] := by
        rw [← lexemes_flatMap cs, hrest]
        rfl
      refine ⟨⟨[], c, he, rfl⟩, fun t => ?_⟩
      obtain ⟨same, none⟩ := Lexeme.scan_ender he t []
      rw [List.singleton_append, lexemes, none, same, List.take_nil, List.take_zero,
        List.drop_zero]
      rfl
    · rw [hrest, List.getLast?_cons_cons, ← hrest] at h
      obtain ⟨⟨front, e, he, ends⟩, goesOn⟩ := ih h
      have fits : y.more ≤ cs.length := by
        have taken := congrArg List.length ends
        rw [List.length_drop, List.length_append, List.length_singleton] at taken
        omega
      have split : cs = cs.take y.more ++ front ++ [e] := by
        rw [List.append_assoc, ← ends, List.take_append_drop]
      refine ⟨⟨c :: (cs.take y.more ++ front), e, he, ?_⟩, fun t => ?_⟩
      · rw [List.cons_append, ← split]
      have same : Lexeme.scan c (cs ++ t) = y := by
        have settled := Lexeme.scan_settled he c (cs.take y.more ++ front) [] t
        rw [← split, List.append_cons, ← split] at settled
        refine settled ?_
        rw [List.length_append, List.length_take_of_le fits]
        exact Nat.le_add_right y.more front.length
      rw [List.cons_append, lexemes, same, List.take_append_of_le_length fits,
        List.drop_append_of_le_length fits, goesOn t, ← hrest, List.cons_append]

end Stylesheet.Token
