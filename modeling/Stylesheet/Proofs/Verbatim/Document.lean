import Stylesheet.Proofs.Kept.Document
import Stylesheet.Proofs.Placement.Error
import Stylesheet.Proofs.Verbatim.Selector

/-!
# Documents are verbatim

An at-rule is read from its keyword on and a declaration from its property on, so what stands at
their places starts with their names. Everything else in a list of items is verbatim as soon as what
it holds is. Numbering the nodes keeps their places, and so each node of a document spells the text
that its place cuts out.
-/

namespace Stylesheet

namespace Grammar

open Located Scope

variable {source : String} {s rest : Scope} {f : Token.Kind → Bool} {t l : Token}
variable {ts : List Token} {next : Nat} {b : Block} {items : Parsed (List Located)}

/-- What stands between the start of a scope and the end of one of its tokens starts with the first
token. -/
theorem exists_rest {own : String} (h : LiesIn source ⟨t :: ts, next⟩) (hl : l ∈ t :: ts)
    (slice : Text.slice? source t.start l.stop = some own) : ∃ rest, own = t.text ++ rest := by
  obtain ⟨first, size⟩ := Text.stands_of_slice? h.slice?_head
  obtain ⟨whole, size'⟩ := Text.stands_of_slice? slice
  have le : t.stop ≤ l.stop := by
    obtain rfl | later := List.mem_cons.mp hl
    · exact Nat.le_refl _
    · have split : Scope.tokens ⟨t :: ts, next⟩ = [t] ++ ts := rfl
      exact Nat.le_trans (stop_le_start h split (List.mem_singleton.mpr rfl) later)
        l.start_le_stop
  obtain ⟨rest, more⟩ := first.starts whole (by omega)
  refine ⟨String.ofList rest, String.toList_inj.mp ?_⟩
  rw [more, String.toList_append, String.toList_ofList]

/-! ### Declarations -/

/-- The value of a custom property may hold less than what stands at its place. -/
theorem customValue_verbatim (colon : Token) (after : List Token) (value : Scope) :
    Verbatim source true (customValue colon after value) :=
  verbatim_leaf fun _ _ => ⟨_, rfl, by rintro ⟨⟩⟩

theorem plainValue_verbatim (colon : Token) (h : s.Legible source) :
    Verbatim source false (plainValue colon s).value :=
  verbatim_node (fun _ _ => trivial) rfl (componentSequence_verbatim h)

/-- A declaration starts with its property. -/
theorem declaration_verbatim (h : s.Legible source) :
    Verbatim source false (declaration s).value := by
  have legible := h.part (trim_isPart s)
  unfold declaration
  dsimp only
  generalize s.trim = s at legible
  have text : Verbatim source false (raw s) := verbatim_raw legible.lies
  split
  · exact text
  · rename_i t ts hs
    split
    · exact text
    · split
      · exact text
      · rename_i colon after hc
        split
        · exact text
        · have value := legible.part ((splitImportant_isPart _).trans
            ((trim_isPart _).trans (follows_significant hs hc).isPart))
          refine verbatim_iff.mpr ⟨fun own slice => ?_, List.forall_mem_singleton.mpr ?_⟩
          · obtain ⟨last, hl, stop⟩ := stop_mem (s := s) (by rw [hs]; exact List.cons_ne_nil t ts)
            obtain ⟨tokens, next⟩ := s
            obtain rfl : tokens = t :: ts := hs
            change Text.slice? source t.start (Scope.stop ⟨t :: ts, next⟩) = some own at slice
            rw [stop] at slice
            obtain ⟨rest, starts⟩ := exists_rest legible.lies hl slice
            exact ⟨t.text, _, rest, rfl, starts⟩
          · change Verbatim source (isCustomProperty t.text) _
            cases custom : isCustomProperty t.text with
            | true => exact customValue_verbatim colon after _
            | false => exact plainValue_verbatim colon value

/-! ### Items -/

theorem rulePrelude_verbatim (keyframes : Bool) (limit : Nat) (h : s.Legible source) :
    Verbatim source false (rulePrelude keyframes limit s).value := by
  have legible := h.part (trim_isPart s)
  unfold rulePrelude
  dsimp only
  split
  · exact verbatim_raw legible.lies
  · split
    · exact verbatim_raw legible.lies
    · exact orRaw_verbatim legible fun n hn => selectorList_verbatim hn legible

theorem withBlock_verbatim (h : ∀ n ∈ items.value, Verbatim source false n) :
    Verbatim source false (withBlock b items).value :=
  verbatim_node (fun _ _ => trivial) rfl h

/-- A style rule is verbatim if the items of its block are. -/
theorem styleRule_verbatim {start limit : Nat} {keyframes : Bool} (h : s.Legible source)
    (inner : ∀ n ∈ items.value, Verbatim source false n) :
    Verbatim source false
      (styleRule start (rulePrelude keyframes limit s) (withBlock b items)).value :=
  verbatim_node (fun _ _ => trivial) rfl (List.forall_mem_cons.mpr
    ⟨rulePrelude_verbatim keyframes limit h,
      List.forall_mem_singleton.mpr (withBlock_verbatim inner)⟩)

theorem preludeNodes_verbatim (name : String) (h : s.Legible source) :
    ∀ n ∈ (preludeNodes name s).value, Verbatim source false n := by
  unfold preludeNodes
  split
  · rintro _ ⟨⟩
  · exact List.forall_mem_singleton.mpr (atRulePrelude_verbatim name h)

/-- An at-rule that stops with one of its tokens starts with its name, behind the at sign. -/
theorem atRuleOf_verbatim {item : Item} {block : Parsed Located}
    (h : Legible source ⟨t :: rest.tokens, rest.next⟩) (keyword : t.kind = .atKeyword)
    (prelude : item.prelude.Legible source)
    (last : ∃ l ∈ t :: rest.tokens, (atRuleOf t rest item block).value.note.stop = l.stop)
    (inner : ∀ b, item.ending = .block b → Verbatim source false block.value) :
    Verbatim source false (atRuleOf t rest item block).value := by
  have preludes := preludeNodes_verbatim (atRuleName t) (prelude.part (trim_isPart _))
  obtain ⟨stop, blocks, node, -, held⟩ := exists_atRuleOf_value t rest item block
  rw [node] at last ⊢
  refine verbatim_node ?_ rfl (List.forall_mem_append.mpr ⟨preludes, fun n hn => ?_⟩)
  · intro own slice
    obtain ⟨l, hl, ends⟩ := last
    rw [show stop = l.stop from ends] at slice
    obtain ⟨more, starts⟩ := exists_rest h.lies hl slice
    obtain ⟨name, text⟩ := (h.marked t List.mem_cons_self).atKeyword keyword
    exact ⟨atRuleName t, more, rfl, by rw [starts]; exact congrArg (· ++ more) (append_tail text)⟩
  · obtain ⟨rfl, b, hb⟩ := held n hn
    exact inner b hb

/-- Reading an at-rule answers with a verbatim node. -/
def AtRuleVerbatim (source : String) (nested : Bool) (t : Token) (rest : Scope) : Prop :=
  t.kind = .atKeyword → Legible source ⟨t :: rest.tokens, rest.next⟩ →
    Verbatim source false (atRule nested t rest).value

/-- Reading the items of a scope answers with verbatim nodes. -/
def ItemsVerbatim (source : String) (read : Scope → Parsed (List Located)) (s : Scope) : Prop :=
  s.Legible source → ∀ n ∈ (read s).value, Verbatim source false n

theorem items_verbatim_all : (∀ nested t rest, AtRuleVerbatim source nested t rest) ∧
    (∀ top keyframes nested s, ItemsVerbatim source (ruleList top keyframes nested) s) ∧
      ∀ nested s, ItemsVerbatim source (blockItems nested) s := by
  have all := items_forall (S := Legible source) (P := Verbatim source false) ?inherits ?raw
    ?declaration ?rule ?atRule
  case inherits => exact .of_part fun part legible => legible.part part
  case raw => exact fun legible => verbatim_raw legible.lies
  case declaration => exact declaration_verbatim
  case rule =>
    exact fun legible _ => styleRule_verbatim (legible.part (item_prelude_isPart _ _))
  case atRule =>
    intro nested t rest block legible keyword read items
    have last := (items_placed_all.1 nested t rest legible.lies).last
    have prelude := legible.tail.part (item_prelude_isPart endsPrelude rest)
    rw [read] at last ⊢
    refine atRuleOf_verbatim legible keyword prelude last fun b hb => ?_
    obtain ⟨items, rfl, held⟩ := items b hb
    exact withBlock_verbatim held
  obtain ⟨atRules, rules, items⟩ := all
  exact ⟨fun nested t rest keyword legible => atRules nested t rest legible keyword, rules, items⟩

/-! ### Entry points -/

theorem rawRest_verbatim (fault : Fault) (h : s.Legible source) :
    Verbatim source false (rawRest fault s).1.value :=
  verbatim_raw (h.part (trim_isPart s)).lies

theorem qualifiedRule_verbatim (h : s.Legible source) :
    Verbatim source false (qualifiedRule s).1.value := by
  unfold qualifiedRule
  dsimp only
  split
  · rename_i b hb
    exact styleRule_verbatim (h.part (item_prelude_isPart _ _))
      (items_verbatim_all.2.2 true b.inner (h.part (item_inner_isPart hb)))
  · exact verbatim_raw (h.part (trim_isPart s)).lies

theorem oneAtRule_verbatim (h : s.Legible source) :
    Verbatim source false (oneAtRule s).value := by
  have legible := h.part (trimStart_isPart s)
  unfold oneAtRule
  dsimp only
  rw [noMore_value]
  generalize s.trimStart = s at legible
  split
  · rename_i t ts ht
    obtain ⟨tokens, next⟩ := s
    obtain rfl : tokens = t :: ts := ht
    split
    · rename_i keyword
      exact items_verbatim_all.1 false t ⟨ts, next⟩ keyword legible
    · exact rawRest_verbatim _ legible
  · exact rawRest_verbatim _ legible

theorem oneRule_verbatim (h : s.Legible source) : Verbatim source false (oneRule s).value := by
  have legible := h.part (trimStart_isPart s)
  unfold oneRule
  dsimp only
  rw [noMore_value]
  generalize s.trimStart = s at legible
  split
  · rename_i t ts ht
    obtain ⟨tokens, next⟩ := s
    obtain rfl : tokens = t :: ts := ht
    split
    · rename_i keyword
      exact items_verbatim_all.1 false t ⟨ts, next⟩ keyword legible
    · exact qualifiedRule_verbatim legible
  · exact rawRest_verbatim _ legible

/-- Whatever the tokens of a text are read as, each node of the tree spells what stands at its
place. -/
theorem readScope_verbatim (context : Context) {list : TokenList}
    (h : (wholeScope list).Legible source) :
    Verbatim source false (readScope context list).value := by
  have rules (top keyframes nested : Bool) {s : Scope} (h : s.Legible source) :=
    items_verbatim_all.2.1 top keyframes nested s h
  have items {s : Scope} (h : s.Legible source) := items_verbatim_all.2.2 false s h
  have trimmed := h.part (trim_isPart (wholeScope list))
  unfold readScope
  dsimp only
  cases context with
  | stylesheet => exact verbatim_node (fun _ _ => trivial) rfl (rules true false false h)
  | atrule => exact oneAtRule_verbatim h
  | rule => exact oneRule_verbatim h
  | atrulePrelude => exact sequenceNode_verbatim (.inr (.inl rfl)) trimmed
  | mediaQueryList => exact mediaQueryList_verbatim trimmed
  | mediaQuery => exact sequenceNode_verbatim (.inr (.inr (.inl rfl))) trimmed
  | condition => exact sequenceNode_verbatim (.inr (.inr (.inr rfl))) trimmed
  | selectorList =>
    exact orRaw_verbatim trimmed fun n hn => selectorList_verbatim hn trimmed
  | selector =>
    dsimp only
    split
    · exact verbatim_raw trimmed.lies
    · exact orRaw_verbatim trimmed fun n hn => selector_verbatim hn trimmed
  | block => exact verbatim_node (fun _ _ => trivial) rfl (items h)
  | declarationList => exact verbatim_node (fun _ _ => trivial) rfl (items h)
  | declaration =>
    exact declaration_verbatim
      ((h.part (trim_isPart _)).part (item_prelude_isPart (· = .semicolon) _))
  | value => exact sequenceNode_verbatim (.inl rfl) trimmed

/-- The tokens of a text are legible in it. -/
theorem wholeScope_legible (text : String) : (wholeScope (tokenize text)).Legible text := by
  refine ⟨?_, Token.tokenize_spelt text, Token.tokenize_marked text⟩
  obtain ⟨run, -⟩ := tokenize_run text
  rw [Scope.LiesIn, Scope.start, wholeScope, run.startOf_eq]
  exact run

end Grammar

/-! ### Numbered trees -/

namespace Node

open Located

variable {text : String} {custom : Bool} {n : Node Mark} {m : Located}

/-- The node knows where it stands in the text, and it spells what can be cut out there. -/
def StandsIn (text : String) (custom : Bool) (n : Node Mark) : Prop :=
  ∃ span own, n.note.span = some span ∧ Text.slice? text span.start span.stop = some own ∧
    n.Spells custom own

/-- Numbered, a node stands where it was read. -/
theorem Nested.standsIn (nested : n.Nested text) (same : n.map Mark.span = m.map some)
    (reads : ReadsAt text custom m) : n.StandsIn text custom := by
  obtain ⟨-, span, note, -, lies, -⟩ := nested
  obtain ⟨own, slice⟩ := Text.exists_slice? lies.edge_start lies.edge_stop lies.le
  have place := congrArg Node.note same
  rw [map_note, map_note, note, Option.some.injEq] at place
  refine ⟨span, own, note, slice, ?_⟩
  rw [← spells_map Mark.span, same, spells_map]
  rw [place] at slice
  exact reads own slice

/-- A tree that is numbered like a verbatim one stands in the text. -/
theorem standsIn_of_verbatim (nested : ∀ m ∈ n.nodes, m.Nested text)
    (same : n.map Mark.span = m.map some) (verbatim : Verbatim text custom m) :
    n.StandsIn text custom ∧
      ∀ p ∈ n.nodes, ∀ c ∈ p.children, c.StandsIn text p.detail.declaresCustom := by
  obtain ⟨here, below⟩ := verbatim
  refine ⟨(nested n (mem_nodes_iff.mpr (.inl rfl))).standsIn same here, ?_⟩
  intro p hp c hc
  have found : p.map Mark.span ∈ (n.map Mark.span).nodes := by
    rw [nodes_map]
    exact List.mem_map_of_mem hp
  rw [same, nodes_map] at found
  obtain ⟨q, hq, like⟩ := List.mem_map.mp found
  have detail := congrArg Node.detail like
  have children := congrArg Node.children like
  rw [map_detail, map_detail] at detail
  rw [map_children, map_children] at children
  have child : c.map Mark.span ∈ q.children.map (map some) := by
    rw [children]
    exact List.mem_map_of_mem hc
  obtain ⟨d, hd, likeChild⟩ := List.mem_map.mp child
  rw [← detail]
  exact (nested c (child_mem_nodes n p hp c hc)).standsIn likeChild.symm (below q hq d hd)

end Node

namespace Document

/-- The tree of a text stands in the text. -/
theorem treeOf_standsIn (text : String) (context : Context) :
    (treeOf true context (tokenize text)).value.StandsIn text false ∧
      ∀ n ∈ (treeOf true context (tokenize text)).value.nodes, ∀ c ∈ n.children,
        c.StandsIn text n.detail.declaresCustom := by
  exact Node.standsIn_of_verbatim (treeOf_nested text context) (treeOf_spans text context)
    (Grammar.readScope_verbatim context (Grammar.wholeScope_legible text))

end Document

/-- Read as any part of a style sheet, a text without limits always has a tree, and in every tree
that is read with spans each node stands in the text: it spells what can be cut out of the text at
its place, and only the value of a custom property may hold less than that. -/
theorem parseAs_standsIn (text : String) (context : Context) (options : ParseOptions)
    (clock : Clock) :
    (∃ d, parseAs text context { options with captureSpans := true, budgets := {} } clock =
        .ok d) ∧
      ∀ d, parseAs text context { options with captureSpans := true } clock = .ok d ∨
          parse text { options with captureSpans := true } clock = .ok d →
        d.root.StandsIn text false ∧
          ∀ n ∈ d.root.nodes, ∀ c ∈ n.children, c.StandsIn text n.detail.declaresCustom := by
  constructor
  · exact exists_parseAs text context { options with captureSpans := true } clock
  · rintro d (h | h)
    · rw [parseAs_root h]
      exact Document.treeOf_standsIn text context
    · rw [parse_root h]
      exact Document.treeOf_standsIn text .stylesheet

end Stylesheet
