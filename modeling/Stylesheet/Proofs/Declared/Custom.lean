import Stylesheet.Proofs.Declared.Node

/-!
# Values of custom properties

The value of a custom property is kept as it is written, from the colon on. It is the text that its
place cuts out, with one exception: where nothing but white space and comments stands between the
colon and the flag of an important declaration, the place covers these, and the value is empty.
-/

namespace Stylesheet

namespace Grammar

open Located Scope Token

variable {source : String} {s v : Scope} {property colon t : Token} {gap after ts : List Token}

/-- A scope that is trimmed ends with a token that matters. -/
theorem trim_last (h : s.trim.tokens = ts ++ [t]) : t.kind.isTrivia = false := by
  have first := List.head?_dropWhile_not (fun t : Token => t.kind.isTrivia)
    (significant s.tokens).reverse
  have turned : significant (significant s.tokens).reverse = t :: ts.reverse := by
    rw [← List.reverse_inj]
    simpa [Scope.trim] using h
  rw [show List.dropWhile _ _ = _ from turned] at first
  simpa using first

/-- Without a flag nothing is taken off a value. -/
theorem splitImportant_plain (h : (splitImportant v).2 = false) : (splitImportant v).1 = v := by
  obtain same | ⟨front, bang, back, -, same⟩ := splitImportant_eq v
  · rw [same]
  · rw [same] at h
    cases h

/-- The flag is taken off the end of a value, and nothing off its front. -/
theorem splitImportant_front (solid : ∀ t ∈ v.tokens.head?, t.kind.isTrivia = false) :
    ∃ back, v.tokens = (splitImportant v).1.tokens ++ back ∧
      (splitImportant v).1.next = startOf back v.next := by
  obtain same | ⟨front, bang, back, tokens, same⟩ := splitImportant_cases v
  · exact ⟨[], by rw [same, List.append_nil], by rw [same]; rfl⟩
  · have solid : ∀ t ∈ front.head?, t.kind.isTrivia = false := by
      intro t ht
      refine solid t ?_
      rw [tokens, List.head?_append, Option.mem_def.mp ht]
      rfl
    obtain ⟨trail, split, next, -⟩ := trim_split_solid (s := ⟨front, bang.start⟩) solid
    refine ⟨trail ++ bang :: back, ?_, ?_⟩
    · rw [same, tokens, ← List.append_assoc]
      exact congrArg (· ++ bang :: back) split
    · rw [same, startOf_append]
      exact next

/-- What stands between the colon and the end of the value that is taken for the declaration. -/
def rawScope (after : List Token) (next : Nat) : Scope :=
  let value := (splitImportant (trim ⟨after, next⟩)).1
  ⟨(after.takeWhile fun t => t.kind.isTrivia) ++ value.tokens, value.next⟩

theorem rawScope_split (after : List Token) (next : Nat) :
    ∃ back, after = (rawScope after next).tokens ++ back ∧
      (rawScope after next).next = startOf back next := by
  obtain ⟨trail, tokens, stop, -⟩ := trim_split ⟨after, next⟩
  have solid : ∀ t ∈ (trim ⟨after, next⟩).tokens.head?, t.kind.isTrivia = false := fun t ht => by
    obtain ⟨rest, front⟩ := List.head?_eq_some_iff.mp ht
    exact trim_head front
  obtain ⟨back, value, stop'⟩ := splitImportant_front solid
  refine ⟨back ++ trail, ?_, ?_⟩
  · rw [rawScope]
    dsimp only
    rw [List.append_assoc, ← List.append_assoc _ back, ← value]
    exact tokens
  · rw [startOf_append, ← stop]
    exact stop'

theorem rawScope_isPart (after : List Token) (next : Nat) :
    (rawScope after next).IsPart ⟨after, next⟩ := by
  obtain ⟨back, tokens, stop⟩ := rawScope_split after next
  exact ⟨[], back, tokens, stop⟩

/-- It holds nothing that matters if and only if the value is empty. -/
theorem rawScope_all_trivia {next : Nat} : (rawScope after next).tokens.all (·.kind.isTrivia) =
    (splitImportant (trim ⟨after, next⟩)).1.tokens.isEmpty := by
  have before : (after.takeWhile fun t => t.kind.isTrivia).all (·.kind.isTrivia) = true :=
    List.all_takeWhile
  rw [rawScope, List.all_append, before, Bool.true_and]
  cases hv : (splitImportant (trim ⟨after, next⟩)).1.tokens with
  | nil => rfl
  | cons t ts =>
    have solid : t.kind.isTrivia = false := by
      obtain same | ⟨front, bang, back, -, same⟩ := splitImportant_cases (trim ⟨after, next⟩)
      · exact trim_head (same ▸ hv)
      · exact trim_head (same ▸ hv)
    rw [List.all_cons, solid]
    rfl

variable {next : Nat}

/-- It starts right behind the colon. -/
theorem rawScope_start (h : LiesIn source ⟨colon :: after, next⟩) (separator : colon.kind = .colon) :
    (rawScope after next).start = colon.stop := by
  have plain : colon.kind.opensBlock = false := by rw [separator]; rfl
  have reach := Run.reach_eq_stop h List.mem_cons_self plain
  obtain ⟨-, -, -, rest⟩ := Run.cons_iff.mp h
  obtain ⟨back, tokens, stop⟩ := rawScope_split after next
  rw [Scope.start, stop, ← startOf_append, ← tokens, rest.startOf_eq, reach]

/-- It stops where the value does. -/
theorem rawScope_stop (h : LiesIn source ⟨after, next⟩) :
    (rawScope after next).stop = (splitImportant (trim ⟨after, next⟩)).1.stop := by
  have lies := (rawScope_isPart after next).liesIn h
  by_cases none : (splitImportant (trim ⟨after, next⟩)).1.tokens = []
  · have tokens : (rawScope after next).tokens = after.takeWhile fun t => t.kind.isTrivia := by
      rw [rawScope, none, List.append_nil]
    rw [stop_eq_next none]
    obtain empty | ⟨front, last, split⟩ := List.eq_nil_or_concat (rawScope after next).tokens
    · exact stop_eq_next empty
    · rw [List.concat_eq_append] at split
      have trivia : last.kind.isTrivia = true :=
        (List.mem_takeWhile_imp (tokens ▸ split ▸ List.mem_append_right front List.mem_cons_self :
          last ∈ after.takeWhile fun t => t.kind.isTrivia) :)
      exact (next_eq_stop lies split (trivia_opens trivia)).symm
  · have last := List.getLast?_eq_some_getLast none
    rw [Scope.stop, Scope.stop, rawScope, List.getLast?_append, last]
    rfl

/-- What is kept of a custom property. -/
theorem customValue_eq (h : LiesIn source ⟨colon :: after, next⟩) (separator : colon.kind = .colon) :
    customValue colon after (splitImportant (trim ⟨after, next⟩)).1 =
      leaf .raw (.value (if (rawScope after next).tokens.all (·.kind.isTrivia) then ""
        else (rawScope after next).text)) (rawScope after next).span := by
  rw [customValue, rawScope_all_trivia, Scope.span, rawScope_start h separator,
    rawScope_stop (isPart_tail.liesIn h)]
  rfl

/-- Without a flag there is nothing if there is nothing that matters. -/
theorem rawScope_nil (last : ∀ front t, colon :: after = front ++ [t] → t.kind.isTrivia = false)
    (plain : (splitImportant (trim ⟨after, next⟩)).2 = false)
    (trivia : (rawScope after next).tokens.all (·.kind.isTrivia) = true) :
    (rawScope after next).tokens = [] := by
  rw [rawScope_all_trivia, splitImportant_plain plain, List.isEmpty_iff] at trivia
  obtain ⟨all, -⟩ := trim_empty trivia
  obtain rfl | ⟨front, t, rfl⟩ := List.eq_nil_or_concat after
  · rw [rawScope, splitImportant_plain plain, trivia]
    rfl
  · rw [List.concat_eq_append] at all
    have matters := last (colon :: front) t (by simp)
    rw [all t (by simp)] at matters
    cases matters

end Grammar

open Token

/-- The declaration holds raw text that stands from behind its colon on, and that the text spells
`own`. -/
structure Node.HoldsRaw (text : String) (n raw : Node Mark) (place : Span) (own : String) : Prop where
  child : n.children = [raw]
  kind : raw.kind = .raw
  stands : raw.note.span = some place
  start : ∃ span colon, n.note.span = some span ∧
    ((tokenize text).fromColon span).head? = some colon ∧ place.start = colon.stop
  slice : Text.slice? text place.start place.stop = some own

/-- What is kept of a custom property, wherever its declaration stands in a text. -/
theorem Document.treeOf_custom (text : String) (context : Context) {n : Node Mark}
    (hn : n ∈ (treeOf true context (tokenize text)).value.nodes) (kind : n.kind = .declaration)
    (custom : n.detail.declaresCustom = true) :
    ∃ raw place own, n.HoldsRaw text raw place own ∧
      raw.detail = .value
        (if ((tokenize text).within place).all (·.kind.isTrivia) then "" else own) ∧
      (n.detail.important = false → raw.detail = .value own) := by
  obtain ⟨s, property, colon, after, declared⟩ := treeOf_declares text context hn kind
  have lies := (Grammar.wholeScope_legible text).lies
  have trimmed := (Scope.trim_isPart s).trans declared.piece.part
  obtain ⟨gap, tokens, -⟩ := declared.declares.tokens
  have behind : Scope.IsPart ⟨colon :: after, s.trim.next⟩ s.trim :=
    ⟨property :: gap, [], by rw [tokens]; simp, rfl⟩
  have rest := behind.liesIn (trimmed.liesIn lies)
  have part := (Grammar.rawScope_isPart after s.trim.next).trans
    ((Scope.isPart_tail (t := colon)).trans (behind.trans trimmed))
  obtain ⟨child, read, made⟩ := declared.declares.read
  rw [declared.detail] at custom
  have children := congrArg Node.children declared.read
  rw [read, made custom, Grammar.customValue_eq rest declared.declares.separator, Node.map_children,
    Node.map_children, List.map_singleton, List.map_eq_singleton_iff] at children
  obtain ⟨raw, child, same⟩ := children
  have detail := congrArg Node.detail same
  have place := congrArg Node.note same
  rw [Node.map_detail, Node.map_detail] at detail
  rw [Node.map_note, Node.map_note] at place
  have slice := (part.liesIn lies).slice?
  refine ⟨raw, _, _, ⟨child, ?_, place, ⟨_, colon, declared.span, ?_, ?_⟩, slice⟩, ?_, ?_⟩
  · have kind := congrArg Node.kind same
    rwa [Node.map_kind, Node.map_kind] at kind
  · rw [declared.fromColon]
    rfl
  · exact Grammar.rawScope_start rest declared.declares.separator
  · change _ = Detail.value (if ((tokenize text).within (Scope.span _)).all _ then _ else _)
    rw [detail, Grammar.within_span part]
    rfl
  · intro plain
    rw [declared.detail] at plain
    have last (front : List Token) (t : Token) (split : colon :: after = front ++ [t]) :
        t.kind.isTrivia = false := by
      have whole : s.trim.tokens = (property :: (gap ++ front)) ++ [t] := by
        rw [tokens, split, List.cons_append, List.append_assoc]
      exact Grammar.trim_last whole
    rw [detail]
    refine congrArg Detail.value ?_
    split
    · rename_i trivia
      rw [Scope.text, Grammar.rawScope_nil last plain trivia]
      rfl
    · rfl

/-- Read as any part of a style sheet, a text without limits always has a tree with spans. In every
tree that is read with spans, the only child of the declaration of a custom property is raw text that
stands from right behind the colon on, and its value is what the text has there: always if the
declaration is not important, and otherwise if anything but white space and comments stands there.
Else the value is empty. -/
theorem parseAs_custom (text : String) (context : Context) (options : ParseOptions)
    (clock : Clock) :
    (∃ d, parseAs text context { options with captureSpans := true, budgets := {} } clock =
        .ok d) ∧
      ∀ d, parseAs text context { options with captureSpans := true } clock = .ok d ∨
          parse text { options with captureSpans := true } clock = .ok d →
        ∀ n ∈ d.root.nodes, n.kind = .declaration → n.detail.declaresCustom = true →
          ∃ raw place own, n.HoldsRaw text raw place own ∧
            raw.detail = .value
              (if ((tokenize text).within place).all (·.kind.isTrivia) then "" else own) ∧
            (n.detail.important = false → raw.detail = .value own) := by
  constructor
  · exact exists_parseAs text context { options with captureSpans := true } clock
  · rintro d (h | h)
    · rw [parseAs_root h]
      exact fun n => Document.treeOf_custom text context
    · rw [parse_root h]
      exact fun n => Document.treeOf_custom text .stylesheet

/-- The white space and the comment in front of a value belong to it. -/
theorem parseAs_custom_commented :
    ∃ d, parseAs "--x: /**/ [b] !important; --y: " .declarationList { captureSpans := true } =
        .ok d ∧
      ∃ n ∈ d.root.nodes, n.kind = .declaration ∧ n.detail.declaresCustom = true ∧
        ∃ raw, n.HoldsRaw "--x: /**/ [b] !important; --y: " raw ⟨4, 13⟩ " /**/ [b]" ∧
          raw.detail = .value " /**/ [b]" := by
  obtain ⟨⟨d, read⟩, all⟩ := parseAs_custom "--x: /**/ [b] !important; --y: " .declarationList {} {}
  have root : d.root = (Document.treeOf true .declarationList
      (tokenize "--x: /**/ [b] !important; --y: ")).value :=
    parseAs_root read
  obtain ⟨n, hn, kind, custom, children⟩ : ∃ n ∈ d.root.nodes, n.kind = .declaration ∧
      n.detail.declaresCustom = true ∧ n.children.map (·.note.span) = [some ⟨4, 13⟩] := by
    rw [root]
    decide +kernel
  obtain ⟨raw, place, own, held, value, -⟩ := all d (.inl read) n hn kind custom
  rw [held.child, List.map_singleton, held.stands] at children
  obtain rfl : place = ⟨4, 13⟩ := Option.some.inj (List.singleton_inj.mp children)
  have slice : Text.slice? "--x: /**/ [b] !important; --y: " 4 13 = some " /**/ [b]" := by
    decide +kernel
  obtain rfl : own = " /**/ [b]" := Option.some.inj (held.slice.symm.trans slice)
  have matters : ((tokenize "--x: /**/ [b] !important; --y: ").within ⟨4, 13⟩).all
      (·.kind.isTrivia) = false := by decide +kernel
  rw [matters, if_neg Bool.false_ne_true] at value
  exact ⟨d, read, n, hn, kind, custom, raw, held, value⟩

/-- What stands in front of the flag is not the value where that is empty. -/
theorem parse_custom_empty :
    ∃ d, parse "a\x7b--x: !important\x7d" { captureSpans := true } = .ok d ∧
      ∃ n ∈ d.root.nodes, n.kind = .declaration ∧ n.detail.declaresCustom = true ∧
        ¬∃ raw place own, n.HoldsRaw "a\x7b--x: !important\x7d" raw place own ∧
          raw.detail = .value own := by
  obtain ⟨d, read⟩ := exists_parse "a\x7b--x: !important\x7d" { captureSpans := true } {}
  have root : d.root =
      (Document.treeOf true .stylesheet (tokenize "a\x7b--x: !important\x7d")).value :=
    parse_root read
  obtain ⟨n, hn, kind, custom, children⟩ : ∃ n ∈ d.root.nodes, n.kind = .declaration ∧
      n.detail.declaresCustom = true ∧
        n.children.map (fun c => (c.detail, c.note.span)) = [(.value "", some ⟨6, 7⟩)] := by
    rw [root]
    decide +kernel
  refine ⟨d, read, n, hn, kind, custom, ?_⟩
  rintro ⟨raw, place, own, held, value⟩
  rw [held.child, List.map_singleton, value, held.stands] at children
  obtain ⟨rfl, rfl⟩ : own = "" ∧ place = ⟨6, 7⟩ := by simpa using children
  exact absurd held.slice (by decide +kernel)

end Stylesheet
