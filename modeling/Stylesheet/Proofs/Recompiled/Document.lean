import Stylesheet.Proofs.Inherited
import Stylesheet.Proofs.Recompiled.Source
import Stylesheet.Proofs.Signal

/-!
# Signals that are compiled again

The selectors of a style rule, wherever it is nested, are read right before a curly bracket, so no
backslash hides behind them. Hence the text that a signal shows is compiled into what the signal
says, if it is supported and its parts have not grown together.
-/

namespace Stylesheet

namespace Grammar

open Located Scope Node

variable {source : String} {whole s : Scope} {f : Token.Kind → Bool}
variable {b : Block} {list : Located} {items : Parsed (List Located)}

/-! ### Lists that are read before a curly bracket -/

/-- The list was read off tokens of `whole` that a curly bracket follows. -/
def ReadBeforeCurly (whole : Scope) (list : Located) : Prop :=
  ∃ (limit : Nat) (s : Scope) (front back : List Token) (curly : Token),
    whole.tokens = front ++ (s.tokens ++ curly :: back) ∧ curly.kind = .leftCurly ∧
      selectorList limit s.trim = .ok list

theorem matches_of_areMatchable {ns : List Located} (h : AreMatchable ns) :
    ∀ n ∈ ns, Matches n := by
  induction h with
  | compound nonempty simple => exact fun n hn => .inl (simple n hn)
  | joined nonempty simple joins _ ih =>
    refine List.forall_mem_append.mpr ⟨fun n hn => .inl (simple n hn), ?_⟩
    exact List.forall_mem_cons.mpr ⟨.inr joins.1, ih⟩

theorem areMatchable_of_supported {text : String}
    (selectors : ∀ n ∈ list.children, n.kind = .selector)
    (named : ∀ n ∈ list.children, ∀ c ∈ n.children, c.IsNamed)
    (supported : (SelectorList.ofNode text list []).supported = true) :
    ∀ n ∈ list.children, AreMatchable n.children := by
  intro n hn
  obtain ⟨i, hi, rfl⟩ := List.getElem_of_mem hn
  have all : (list.children.filter fun c => c.kind = .selector) = list.children :=
    List.filter_eq_self.mpr fun c hc => decide_eq_true (selectors c hc)
  have compiled :
      Selector.ofNode i list.children[i] ∈ (SelectorList.ofNode text list []).selectors := by
    rw [SelectorList.ofNode, all]
    exact List.mem_mapIdx.mpr ⟨i, hi, rfl⟩
  have able := (SelectorList.supported_iff.mp supported).2.2 _ compiled
  exact (Selector.represents_ofNode i (named _ hn)).supported.mp able

/-- A list of which all selectors can be matched is made of portable tokens, if a curly bracket
follows it in a text. -/
theorem ReadBeforeCurly.exists_listNode
    (read : ReadBeforeCurly (wholeScope (tokenize source)) list) {text : String}
    (supported : (SelectorList.ofNode text list []).supported = true) :
    ∃ x xs, list.SameShape (Portable.listNode (x :: xs)) := by
  obtain ⟨limit, s, front, back, curly, split, kind, read⟩ := read
  obtain ⟨ns, hns, read⟩ := bind_eq_ok_iff.mp read
  cases read
  have inside : s.trim.tokens ⊆ s.tokens := (trim_isPart s).subset
  have within : s.tokens ⊆ (tokenize source).tokens := by
    rw [show (tokenize source).tokens = _ from split]
    exact fun t ht => List.mem_append_right _ (List.mem_append_left _ ht)
  have filled : Filled s.trim.tokens :=
    fun t ht => Token.tokenize_filled source t (within (inside ht))
  obtain ⟨nonempty, regular⟩ := selectors_regular_all.1 _ ns hns
  have able := areMatchable_of_supported (fun n hn => (regular n hn).1)
    (selectors_named filled hns) supported
  have mated : Token.Mated (front ++ (s.tokens ++ curly :: back)) :=
    split ▸ Token.mated_of_matched (tokenize_matched source)
  have slashless : Token.Slashless s.tokens := by
    refine Token.slashless_of_trim (selectors_slashless_all.1 _ ns hns ?_ ?_)
    · exact mated.middle.of_isPart (trim_isPart s)
    · exact fun n hn => matches_of_areMatchable (able n hn)
  have portable : AllPortable s.tokens := Token.forall_portable split slashless
    (Token.isDelim_of_kind kind (by decide))
  obtain ⟨xs, shapes⟩ := Portable.exists_selectors
    (selectors_made (portable.of_subset inside) hns) able
  cases xs with
  | nil => exact absurd (List.map_eq_nil_iff.mp shapes) nonempty
  | cons x xs =>
    refine ⟨x, xs, ?_⟩
    have strip : strip ⟨.selectorList, .none, s.trim.span, ns⟩ = Portable.listNode (x :: xs) := by
      rw [Plain.strip_mk, shapes, Portable.listNode]
    rw [← strip]
    exact (strip_map _ _).symm

/-! ### Style rules -/

/-- The selectors of the node, if it is a style rule that has some, were read before a curly
bracket. -/
def ReadsSelectors (whole : Scope) (n : Located) : Prop :=
  n.kind = .rule → ∀ c ∈ n.children, c.kind = .selectorList → ReadBeforeCurly whole c

/-- So were those of all style rules at or below the node. -/
def ReadsAllSelectors (whole : Scope) (n : Located) : Prop := ∀ m ∈ n.nodes, ReadsSelectors whole m

/-- The block of an item comes right behind what stands before it. -/
theorem exists_curly (part : s.IsPart whole) (hb : (Item.take f s).ending = .block b) :
    ∃ front back curly, curly.kind = .leftCurly ∧
      whole.tokens = front ++ ((Item.take f s).prelude.tokens ++ curly :: back) := by
  obtain ⟨front, back, tokens, -⟩ := part
  obtain ⟨d, ds, ⟨opens, -⟩, cut, -, -⟩ := Item.exists_block hb
  refine ⟨front, ds ++ back, d, opens, ?_⟩
  have split : s.tokens = (s.cut f).1.tokens ++ (s.cut f).2.tokens :=
    (Token.spanTop_append f s.tokens).symm
  rw [tokens, split, cut, Item.take_prelude]
  simp

theorem rulePrelude_selectors {keyframes : Bool} {limit : Nat}
    (kind : (rulePrelude keyframes limit s).value.kind = .selectorList) :
    selectorList limit s.trim = .ok (rulePrelude keyframes limit s).value := by
  revert kind
  unfold rulePrelude
  dsimp only
  split
  · exact nofun
  · split
    · exact nofun
    · cases selectorList limit s.trim with
      | ok n => exact fun _ => rfl
      | error e => exact nofun

theorem styleRule_reads {start limit : Nat} {keyframes : Bool} (part : s.IsPart whole)
    (hb : (Item.take f s).ending = .block b) :
    ReadsSelectors whole (styleRule start
      (rulePrelude keyframes limit (Item.take f s).prelude) (withBlock b items)).value := by
  obtain ⟨front, back, curly, kind, split⟩ := exists_curly part hb
  refine fun _ => List.forall_mem_cons.mpr ⟨fun list => ?_, List.forall_mem_singleton.mpr nofun⟩
  exact ⟨limit, _, front, back, curly, split, kind, rulePrelude_selectors list⟩

/-- Reading parts of `whole` reads the selectors of rules before curly brackets alone. -/
theorem covers_reads (whole : Scope) : Covers (·.IsPart whole) (ReadsSelectors whole) where
  toInherits := .of_part fun part whole => part.trans whole
  ofDeclaration {s} _ rule := by
    obtain ⟨kind | kind, -⟩ := declaration_regular s <;> rw [rule] at kind <;> cases kind
  ofRule := styleRule_reads
  other _ other rule := absurd rule other

theorem stylesheet_reads (list : TokenList) :
    ReadsAllSelectors (wholeScope list) (readScope .stylesheet list).value :=
  (covers_reads (wholeScope list)).nodes_readScope .stylesheet (.refl _)

end Grammar

/-! ### Signals -/

namespace Signal

/-- The text of the selectors of a style rule is compiled as its nodes are, if all its selectors can
be matched and their parts have not grown together. -/
theorem ofText_styleRule {css : String} {n list : Node Mark}
    (h : (n, list) ∈ styleRules (sheetOf css))
    (supported : (SelectorList.ofNode list.canonical list []).supported = true)
    (apart : list.SetApart) :
    SelectorList.ofText list.canonical = SelectorList.ofNode list.canonical list [] := by
  obtain ⟨_, inTree, rule⟩ := List.mem_filterMap.mp h
  obtain ⟨_, ⟨⟩, kind, child, selectors⟩ := styleRule?_eq_some rule
  have shape := Document.treeOf_sameShape false .stylesheet (tokenize css)
  obtain ⟨m, found, same⟩ := shape.exists_node inTree
  obtain ⟨list', child', same'⟩ := same.exists_child child
  have read := Grammar.stylesheet_reads (tokenize css) m found (same.kind_eq ▸ kind) list' child'
    (same'.kind_eq ▸ selectors)
  rw [SelectorList.ofNode_sameShape same'] at supported
  obtain ⟨x, xs, listed⟩ := read.exists_listNode supported
  exact SelectorList.ofText_generate (same'.trans listed) apart

end Signal

/-- Each signal is that of a style rule and shows the text of its list of selectors. If all
selectors can be matched and the text is scanned as the texts of their parts, it is compiled into
the very selectors that the signal was made from. So it can be matched, and the specificities are
those of the signal in order. -/
theorem styleSignals_ofText (css : String) (options : SignalOptions) (clock : Clock)
    {rs : List RuleSignal} (h : styleSignals css options clock = .ok rs) :
    ∀ r ∈ rs, ∃ n list, (n, list) ∈ Signal.styleRules (sheetOf css) ∧ r.id = n.note.id ∧
      r.selectorText = list.canonical ∧
        (r.supported = true → list.SetApart →
          (SelectorList.ofText r.selectorText).supported = true ∧
            (SelectorList.ofText r.selectorText).selectors.map Selector.specificity =
              r.specificities) := by
  intro r hr
  unfold styleSignals at h
  split at h
  · rename_i d read
    have root : d.root = sheetOf css := parse_root read
    rw [root] at h
    obtain ⟨i, ⟨n, list⟩, found, rfl⟩ := Signal.exists_rule h r hr
    refine ⟨n, list, found, rfl, rfl, fun supported apart => ?_⟩
    have compiled : SelectorList.ofText (Signal.rule i (n, list)).selectorText =
        SelectorList.ofNode list.canonical list [] := Signal.ofText_styleRule found supported apart
    rw [compiled]
    exact ⟨supported, rfl⟩
  · cases h

/-- Comments and blanks around the parts make no difference. -/
theorem styleSignals_ofText_spaced :
    ∃ r, styleSignals "a /**/ > .b , #c \x7b \x7d" {} = .ok [r] ∧ r.selectorText = "a>.b,#c" ∧
      (SelectorList.ofText r.selectorText).supported = true ∧
        (SelectorList.ofText r.selectorText).selectors.map Selector.specificity =
          r.specificities := by
  have read : styleSignals "a /**/ > .b , #c \x7b \x7d" {} =
      .ok [⟨2, 0, "a>.b,#c", true, [⟨0, 1, 1⟩, ⟨1, 0, 0⟩], []⟩] := by decide +kernel
  obtain ⟨n, list, found, -, -, compiled⟩ :=
    styleSignals_ofText _ _ {} read _ (List.mem_singleton_self _)
  have apart : ∀ pair ∈ Signal.styleRules (sheetOf "a /**/ > .b , #c \x7b \x7d"),
      pair.2.SetApart := by decide +kernel
  exact ⟨_, read, rfl, compiled rfl (apart _ found)⟩

/-- Two types with only a comment between them grow together, so the text that the signal shows is
compiled into a selector that is less specific than the signal says. -/
theorem styleSignals_ofText_grown :
    ∃ r, styleSignals "a/**/b\x7b\x7d" {} = .ok [r] ∧ r.supported = true ∧
      r.selectorText = "ab" ∧ r.specificities = [⟨0, 0, 2⟩] ∧
        (SelectorList.ofText r.selectorText).supported = true ∧
          (SelectorList.ofText r.selectorText).selectors.map Selector.specificity =
            [⟨0, 0, 1⟩] := by
  refine ⟨⟨2, 0, "ab", true, [⟨0, 0, 2⟩], []⟩, ?_, rfl, rfl, rfl, ?_, ?_⟩
  · decide +kernel
  · decide +kernel
  · decide +kernel

end Stylesheet
