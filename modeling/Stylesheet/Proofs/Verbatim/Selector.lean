import Stylesheet.Proofs.Inherited
import Stylesheet.Proofs.Verbatim.Value

/-!
# Selectors are verbatim

Simple selectors and combinators are read from one to three tokens that follow each other at once.
Nothing is left out between them, so the text of a node is that of its tokens, one after the other.
-/

namespace Stylesheet.Grammar

open Located Scope

variable {source : String} {limit : Nat} {kind : Option NodeKind} {space : Option Token}
variable {s rest after : Scope} {t last : Token} {ts : List Token} {next : Nat} {p : Simple}
variable {n : Located} {ns : List Located}

theorem sourceText_singleton (t : Token) : Token.sourceText [t] = t.text := by
  rw [Token.sourceText, Token.pieces, String.join_cons, String.join_nil, String.append_empty]

/-- A delimiter is the character that it is told by. -/
theorem text_of_delim? {c : Char} (marked : Token.Marked t.kind t.text) (h : t.delim? = some c) :
    t.kind = .delim ∧ t.text = String.ofList [c] := by
  unfold Token.delim? at h
  split at h
  · rename_i hk
    obtain ⟨d, text⟩ := marked.delim hk
    rw [text, List.head?_cons, Option.some.injEq] at h
    exact ⟨hk, by rw [← h, ← text, String.ofList_toList]⟩
  · cases h

theorem text_of_colon (marked : Token.Marked t.kind t.text) (h : t.kind = .colon) :
    t.text = ":" := by
  rw [← String.ofList_toList (s := t.text), marked.colon h]

/-- Two tokens at the front of a scope, of which the first is a known one that opens no block. -/
theorem slice?_two {u : Token} {mark : String} (h : LiesIn source ⟨t :: u :: ts, next⟩)
    (hk : t.kind.opensBlock = false) (text : t.text = mark) :
    Text.slice? source t.start u.stop = some (mark ++ u.text) := by
  have slice := h.slice?_front [t]
  rwa [List.singleton_append, h.sourceText_cons hk [], sourceText_singleton, text] at slice

/-! ### Combinators and simple selectors -/

/-- A combinator that is written out stands where it was read, and is one of four. -/
theorem explicitCombinator_slice? {name : String}
    (h : Legible source ⟨t :: rest.tokens, rest.next⟩)
    (hx : explicitCombinator t rest = some (name, last, after)) :
    Text.slice? source t.start last.stop = some name ∧ name ∈ [">", "+", "~", "||"] := by
  have marked := h.marked t List.mem_cons_self
  have slice := h.lies.slice?_head
  unfold explicitCombinator at hx
  split at hx
  · rename_i hd
    cases hx
    rw [(text_of_delim? marked hd).2] at slice
    exact ⟨slice, by simp⟩
  · rename_i hd
    cases hx
    rw [(text_of_delim? marked hd).2] at slice
    exact ⟨slice, by simp⟩
  · rename_i hd
    cases hx
    rw [(text_of_delim? marked hd).2] at slice
    exact ⟨slice, by simp⟩
  · rename_i hd
    split at hx
    · rename_i bar more hs
      split at hx
      · rename_i hbar
        obtain ⟨rfl, rfl, rfl⟩ : "||" = name ∧ bar = last ∧ (⟨more, rest.next⟩ : Scope) = after := by
          simpa using hx
        rw [hs] at h
        obtain ⟨hk, text⟩ := text_of_delim? marked hd
        obtain ⟨-, text'⟩ := text_of_delim? (h.tail.marked bar List.mem_cons_self)
          (show bar.delim? = some '|' by simpa [Token.isDelim] using hbar)
        have both := slice?_two h.lies (by rw [hk]; rfl) text
        rw [text'] at both
        exact ⟨both, by simp⟩
      · cases hx
    · cases hx
  · cases hx

theorem typeSelector_verbatim (h : Legible source ⟨t :: rest.tokens, rest.next⟩) :
    Verbatim source false (typeSelector t rest).1 := by
  have plain : Verbatim source false (leaf .typeSelector (.name t.text) t.span) :=
    verbatim_leaf (readsAt_of_slice? h.lies.slice?_head rfl)
  unfold typeSelector
  dsimp only
  split
  · rename_i bar name more hs
    split
    · rw [hs] at h
      have slice := h.lies.slice?_front [t, bar]
      exact verbatim_leaf (readsAt_of_slice? slice rfl)
    · exact plain
  · exact plain

/-- A simple selector that is verbatim, or will be once its argument is read. -/
inductive Simple.IsVerbatim (source : String) : Simple → Prop
  | node {n : Located} (verbatim : Verbatim source false n) : IsVerbatim source (.node n)
  | functional {kind : NodeKind} {name : String} {span : Span} {argument : Scope}
      (pseudo : kind = .pseudoClassSelector ∨ kind = .pseudoElementSelector)
      (legible : argument.Legible source) :
    IsVerbatim source (.functional kind name span argument)

theorem attributeSelector_verbatim (h : attributeSelector limit t rest = .ok (p, after)) :
    p.IsVerbatim source := by
  unfold attributeSelector at h
  dsimp only at h
  split at h
  · cases h
  · obtain ⟨detail, -, h⟩ := bind_eq_ok_iff.mp h
    cases h
    exact .node (verbatim_leaf fun _ _ => trivial)

/-- The mark of a pseudo selector of a kind. -/
inductive PseudoMark : NodeKind → String → Prop
  | class : PseudoMark .pseudoClassSelector ":"
  | element : PseudoMark .pseudoElementSelector "::"

/-- A pseudo selector is read from its colons and its name. -/
theorem pseudoNamed_verbatim {kind : NodeKind} {mark : String} {colon : Token} (more : List Token)
    (h : Legible source ⟨colon :: more ++ ts, next⟩) (pseudo : PseudoMark kind mark)
    (text : ∀ name us, ts = name :: us →
      Token.sourceText (colon :: more ++ [name]) = mark ++ name.text)
    (hx : pseudoNamed limit kind colon ⟨ts, next⟩ = .ok (p, after)) : p.IsVerbatim source := by
  unfold pseudoNamed at hx
  split at hx
  · cases hx
  · rename_i name us hs
    obtain rfl : ts = name :: us := hs
    split at hx
    · cases hx
      have slice := h.lies.slice?_front (colon :: more)
      rw [text name us rfl] at slice
      refine .node (verbatim_leaf (readsAt_of_slice? slice ?_))
      cases pseudo <;> exact ⟨name.text, rfl, fun _ => rfl⟩
    · dsimp only at hx
      split at hx
      · cases hx
      · cases hx
        have legible : Legible source ⟨us, next⟩ := h.part (isPart_of_suffix
          (s := ⟨colon :: more ++ name :: us, next⟩)
          ((List.suffix_cons name us).trans (List.suffix_append (colon :: more) _)))
        exact .functional (by cases pseudo <;> simp)
          (legible.part ((trim_isPart _).trans (enter_inner_isPart name ⟨us, next⟩)))
    · cases hx

theorem pseudoSelector_verbatim (h : Legible source ⟨t :: rest.tokens, rest.next⟩)
    (hk : t.kind = .colon) (hx : pseudoSelector limit t rest = .ok (p, after)) :
    p.IsVerbatim source := by
  have text := text_of_colon (h.marked t List.mem_cons_self) hk
  have leaves : t.kind.opensBlock = false := by rw [hk]; rfl
  have one (u : Token) (us : List Token) (hs : rest.tokens = u :: us) :
      Token.sourceText [t, u] = ":" ++ u.text := by
    rw [hs] at h
    rw [h.lies.sourceText_cons leaves [], sourceText_singleton, text]
  unfold pseudoSelector at hx
  split at hx
  · rename_i second ts hs
    split at hx
    · rename_i hk'
      rw [hs] at h
      have text' := text_of_colon (h.tail.marked second List.mem_cons_self) hk'
      have leaves' : second.kind.opensBlock = false := by rw [hk']; rfl
      refine pseudoNamed_verbatim [second] h .element ?_ hx
      rintro u us rfl
      show Token.sourceText [t, second, u] = "::" ++ u.text
      rw [h.lies.sourceText_cons leaves [u], h.tail.lies.sourceText_cons leaves' [],
        sourceText_singleton, text, text', ← String.append_assoc]
      rfl
    · exact pseudoNamed_verbatim [] h .class one hx
  · exact pseudoNamed_verbatim [] h .class one hx

theorem classSelector_verbatim (h : Legible source ⟨t :: rest.tokens, rest.next⟩)
    (hd : t.delim? = some '.') (hx : classSelector t rest = .ok (p, after)) :
    p.IsVerbatim source := by
  obtain ⟨hk, text⟩ := text_of_delim? (h.marked t List.mem_cons_self) hd
  unfold classSelector at hx
  split at hx
  · cases hx
  · rename_i name ts hs
    split at hx
    · cases hx
      rw [hs] at h
      have slice := slice?_two h.lies (by rw [hk]; rfl) text
      exact .node (verbatim_leaf (readsAt_of_slice? slice ⟨name.text, rfl, rfl⟩))
    · cases hx

theorem simpleSelector_verbatim (h : Legible source ⟨t :: rest.tokens, rest.next⟩)
    (hx : simpleSelector limit t rest = .ok (p, after)) : p.IsVerbatim source := by
  have slice := h.lies.slice?_head
  have named (hx : Except.ok (ε := SyntaxError)
      (Simple.node (typeSelector t rest).1, (typeSelector t rest).2) = .ok (p, after)) :
      p.IsVerbatim source := by
    cases hx
    exact .node (typeSelector_verbatim h)
  unfold simpleSelector at hx
  split at hx
  · exact named hx
  · rename_i hk
    cases hx
    obtain ⟨rest', text⟩ := (h.spelt t List.mem_cons_self).hash hk
    exact .node (verbatim_leaf (readsAt_of_slice? slice ⟨_, rfl, append_tail text⟩))
  · exact attributeSelector_verbatim hx
  · rename_i hk
    exact pseudoSelector_verbatim h hk hx
  · split at hx
    · exact named hx
    · rename_i hd
      cases hx
      obtain ⟨-, text⟩ := text_of_delim? (h.marked t List.mem_cons_self) hd
      exact .node (verbatim_leaf (readsAt_of_slice? slice text))
    · rename_i hd
      exact classSelector_verbatim h hd hx
    · cases hx
  · cases hx

/-! ### Lists of selectors and the parts of a selector -/

/-- Reading a list of selectors in `s` answers with verbatim selectors. -/
def ListVerbatim (source : String) (limit : Nat) (s : Scope) : Prop :=
  ∀ ns, selectors limit s = .ok ns → s.Legible source → ∀ n ∈ ns, Verbatim source false n

/-- Reading the parts of a selector in `s` answers with verbatim parts. -/
def PartsVerbatim (source : String) (limit : Nat) (kind : Option NodeKind) (space : Option Token)
    (s : Scope) : Prop :=
  ∀ ns, selectorParts limit kind space s = .ok ns → s.Legible source →
    ∀ n ∈ ns, Verbatim source false n

/-- The combinator that white space stands for holds no text. -/
theorem descendant_verbatim (kind : Option NodeKind) (space : Option Token) :
    ∀ n ∈ descendant kind space, Verbatim source false n := by
  unfold descendant
  split
  · split
    · rintro _ ⟨⟩
    · exact List.forall_mem_singleton.mpr (verbatim_leaf fun _ _ => .inl rfl)
  · rintro _ ⟨⟩

/-- A simple selector is verbatim if its argument, when it is a list of selectors, is. -/
theorem finish_verbatim (verbatim : p.IsVerbatim source) (h : p.finish limit = .ok n)
    (list : ∀ kind name span argument, p = .functional kind name span argument →
      (kind = .pseudoClassSelector && takesSelectors name) = true →
        argument.tokens.isEmpty = false → ListVerbatim source limit argument) :
    Verbatim source false n := by
  cases verbatim with
  | node verbatim =>
    cases h
    exact verbatim
  | @functional kind name span argument pseudo legible =>
    rw [Simple.finish] at h
    obtain ⟨child, hc, h⟩ := bind_eq_ok_iff.mp h
    cases h
    suffices held : Verbatim source false child by
      refine verbatim_node (fun _ _ => ?_) rfl (List.forall_mem_singleton.mpr held)
      obtain rfl | rfl := pseudo <;> exact ⟨name, rfl, by rintro ⟨⟩⟩
    unfold argumentNode at hc
    split at hc
    · rename_i takes
      split at hc
      · cases hc
      · rename_i he
        obtain ⟨items, hi, hc⟩ := bind_eq_ok_iff.mp hc
        cases hc
        have held := list _ _ _ _ rfl takes (by simpa using he) items hi legible
        exact verbatim_node (fun _ _ => trivial) rfl held
    · cases hc
      exact verbatim_raw legible.lies

theorem verbatim_selector (h : n.kind = .selector ∧ n.detail = .none ∧
    ∀ c ∈ n.children, Verbatim source false c) : Verbatim source false n := by
  obtain ⟨_, _, _, _⟩ := n
  obtain ⟨rfl, rfl, parts⟩ := h
  exact verbatim_node (fun _ _ => trivial) rfl parts

theorem selectors_verbatim_all : (∀ s, ListVerbatim source limit s) ∧
    ∀ kind space s, PartsVerbatim source limit kind space s := by
  have all := selectors_forall (S := Legible source) (P := Verbatim source false) limit ?part
    ?descendant ?combinator ?simple
  case part => exact fun part legible => legible.part part
  case descendant => exact descendant_verbatim
  case combinator =>
    intro t ts next name last after legible found
    obtain ⟨slice, written⟩ := explicitCombinator_slice? legible found
    exact verbatim_leaf (readsAt_of_slice? slice (.inr ⟨rfl, written⟩))
  case simple =>
    intro t ts next p after n legible read made list
    refine finish_verbatim (simpleSelector_verbatim legible read) made ?_
    intro kind name span argument same takes some ns h inside m hm
    exact verbatim_selector (list kind name span argument same takes some inside ns h m hm)
  constructor
  · exact fun s ns h legible n hn => verbatim_selector (all.1 s legible ns h n hn)
  · exact fun kind space s ns h legible => all.2 kind space s legible ns h

theorem selectorList_verbatim (h : selectorList limit s = .ok n) (legible : s.Legible source) :
    Verbatim source false n := by
  obtain ⟨items, hi, h⟩ := bind_eq_ok_iff.mp h
  cases h
  exact verbatim_node (fun _ _ => trivial) rfl (selectors_verbatim_all.1 s items hi legible)

theorem selector_verbatim (h : selector limit s = .ok n) (legible : s.Legible source) :
    Verbatim source false n := by
  obtain ⟨children, hc, h⟩ := bind_eq_ok_iff.mp h
  cases h
  exact verbatim_node (fun _ _ => trivial) rfl
    (selectors_verbatim_all.2 none none s children hc legible)

/-- What is read as a selector is verbatim, and so is the text that is kept instead. -/
theorem orRaw_verbatim {r : SelectorResult Located} (legible : s.Legible source)
    (h : ∀ n, r = .ok n → Verbatim source false n) : Verbatim source false (orRaw s r).value := by
  cases r with
  | ok n => exact h n rfl
  | error e => exact verbatim_raw legible.lies

end Stylesheet.Grammar
