import Mathlib.Data.List.Forall2
import Stylesheet.Proofs.Compiled.Part
import Stylesheet.Proofs.Query
import Stylesheet.Specificity

/-!
# Selectors are compiled without loss

A selector can be matched if and only if its parts are compounds of types, ids, classes and
attributes with a blank or `>` between every two of them. Then its compounds and combinators stand
for these parts one by one, in order.

The compiler reads the parts one after the other. As long as it has refused none, what it has read
stands for the parts so far (`Says.read`); and it refuses none if they are as above
(`AreMatchable.foldl`).
-/

namespace Stylesheet

/-! ### Parts that can be matched -/

/-- The kinds of simple selectors that can be matched. -/
def NodeKind.isMatchable : NodeKind → Bool
  | typeSelector | idSelector | classSelector | attributeSelector => true
  | _ => false

namespace Node

variable {α : Type}

/-- A blank or `>` between two compounds. -/
def Joins (n : Node α) : Prop :=
  n.kind = .combinator ∧ (n.detail = .name " " ∨ n.detail = .name ">")

/-- Parts of a selector that can be matched: compounds of simple selectors that can be matched, none
of them empty, with one combinator between every two of them. -/
inductive AreMatchable : List (Node α) → Prop
  | compound {ns : List (Node α)} (nonempty : ns ≠ [])
      (simple : ∀ n ∈ ns, n.kind.isMatchable = true) : AreMatchable ns
  | joined {ns rest : List (Node α)} {c : Node α} (nonempty : ns ≠ [])
      (simple : ∀ n ∈ ns, n.kind.isMatchable = true) (joins : c.Joins)
      (after : AreMatchable rest) : AreMatchable (ns ++ c :: rest)

end Node

namespace Selector

variable {α : Type}

/-- What a test or a combinator stands for in a syntax tree. Names of types and attributes are put
in lower case. -/
inductive Stands : SimpleSelector ⊕ Combinator → Node α → Prop
  | type {name : String} {note : α} {children : List (Node α)} (other : name ≠ "*") :
    Stands (.inl (.type (Text.lower name))) ⟨.typeSelector, .name name, note, children⟩
  | universal {note : α} {children : List (Node α)} :
    Stands (.inl .universal) ⟨.typeSelector, .name "*", note, children⟩
  | id {value : String} {note : α} {children : List (Node α)} :
    Stands (.inl (.id value)) ⟨.idSelector, .name value, note, children⟩
  | className {value : String} {note : α} {children : List (Node α)} :
    Stands (.inl (.className value)) ⟨.classSelector, .name value, note, children⟩
  | attr {name : String} {matcher : Option Matcher} {value : Option AttributeValue}
      {flags : Option String} {note : α} {children : List (Node α)} :
    Stands (.inl (.attr (Text.lower name) matcher (value.map AttributeValue.text) flags))
      ⟨.attributeSelector, .attr name (matcher.map Matcher.operator) value flags, note, children⟩
  | combinator {c : Combinator} {note : α} {children : List (Node α)} :
    Stands (.inr c) ⟨.combinator, .name c.symbol, note, children⟩

/-- Compounds and combinators in turn. -/
def interleave : List Compound → List Combinator → List (SimpleSelector ⊕ Combinator)
  | c :: cs, j :: js => c.map .inl ++ .inr j :: interleave cs js
  | cs, [] => cs.flatten.map .inl
  | [], js => js.map .inr

section Interleave

variable {cs ds : List Compound} {js ks : List Combinator}

theorem interleave_append (h : cs.length = js.length) :
    interleave (cs ++ ds) (js ++ ks) = interleave cs js ++ interleave ds ks := by
  induction cs generalizing js with
  | nil =>
    obtain rfl := List.eq_nil_of_length_eq_zero h.symm
    rfl
  | cons c cs ih =>
    cases js with
    | nil => cases h
    | cons j js =>
      simp only [List.cons_append, interleave, ih (Nat.succ.inj h), List.append_assoc]

/-- The tests, without the combinators. -/
theorem filterMap_interleave (cs : List Compound) (js : List Combinator) :
    (interleave cs js).filterMap Sum.getLeft? = cs.flatten := by
  fun_induction interleave cs js with
  | case1 c cs j js ih =>
    rw [List.filterMap_append, List.filterMap_cons_none rfl, ih]
    simp [List.filterMap_map, Function.comp_def]
  | case2 cs => simp [List.filterMap_map, Function.comp_def]
  | case3 js => simp [List.filterMap_map, Function.comp_def]

end Interleave

section Stands

variable {x : SimpleSelector} {c : Combinator} {n : Node α} {ns : List (Node α)}

theorem Stands.isMatchable (h : Stands (.inl x) n) : n.kind.isMatchable = true := by
  cases h <;> rfl

theorem Stands.joins (h : Stands (.inr c) n) : n.Joins := by
  cases h
  cases c with
  | descendant => exact ⟨rfl, .inl rfl⟩
  | child => exact ⟨rfl, .inr rfl⟩

/-- What the front and the back of some parts stand for. -/
theorem exists_append_of_forall₂ {xs ys : List (SimpleSelector ⊕ Combinator)}
    (h : List.Forall₂ Stands (xs ++ ys) ns) :
    ∃ front back, ns = front ++ back ∧ List.Forall₂ Stands xs front ∧
      List.Forall₂ Stands ys back := by
  have front := List.forall₂_take xs.length h
  have back := List.forall₂_drop xs.length h
  rw [List.take_left] at front
  rw [List.drop_left] at back
  exact ⟨_, _, (List.take_append_drop _ _).symm, front, back⟩

theorem areMatchable_of_compound {xs : Compound} (stands : List.Forall₂ Stands (xs.map .inl) ns) :
    ∀ n ∈ ns, n.kind.isMatchable = true := by
  rw [List.forall₂_map_left_iff] at stands
  induction stands with
  | nil => rintro _ ⟨⟩
  | cons first _ ih => exact List.forall_mem_cons.mpr ⟨first.isMatchable, ih⟩

/-- Parts that compounds and combinators stand for can be matched. -/
theorem areMatchable_of_stands {cs : List Compound} {js : List Combinator}
    (length : cs.length = js.length + 1) (nonempty : ∀ c ∈ cs, c ≠ [])
    (stands : List.Forall₂ Stands (interleave cs js) ns) : Node.AreMatchable ns := by
  induction js generalizing cs ns with
  | nil =>
    obtain ⟨c, rfl⟩ := List.length_eq_one_iff.mp length
    rw [interleave, List.flatten_singleton] at stands
    refine .compound ?_ (areMatchable_of_compound stands)
    rintro rfl
    have empty := List.map_eq_nil_iff.mp (List.forall₂_nil_right_iff.mp stands)
    exact nonempty c List.mem_cons_self empty
  | cons j js ih =>
    obtain ⟨c, cs, rfl⟩ := List.exists_cons_of_length_eq_add_one length
    obtain ⟨filled, others⟩ := List.forall_mem_cons.mp nonempty
    rw [interleave] at stands
    obtain ⟨front, back, rfl, first, later⟩ := exists_append_of_forall₂ stands
    obtain ⟨n, rest, joins, after, rfl⟩ := List.forall₂_cons_left_iff.mp later
    refine .joined ?_ (areMatchable_of_compound first) joins.joins
      (ih (Nat.succ.inj length) others after)
    rintro rfl
    exact filled (List.map_eq_nil_iff.mp (List.forall₂_nil_right_iff.mp first))

end Stands

/-! ### Reading the parts -/

theorem ofOperator?_operator (m : Matcher) : Matcher.ofOperator? m.operator = some m := by
  cases m <;> rfl

/-- A simple selector that has a name is a test if its kind can be matched. -/
theorem exists_ofNode {n : Node α} (named : n.IsNamed) (simple : n.kind.isMatchable = true) :
    ∃ x, SimpleSelector.ofNode n = .ok x ∧ Stands (.inl x) n := by
  obtain ⟨kind, detail, note, children⟩ := n
  cases kind with
  | typeSelector =>
    obtain ⟨name, rfl, nonempty⟩ := named
    by_cases any : name = "*"
    · subst any
      exact ⟨.universal, rfl, .universal⟩
    · refine ⟨.type (Text.lower name), ?_, .type any⟩
      simp [SimpleSelector.ofNode, SimpleSelector.ofName, Detail.name?, nonempty, any]
  | idSelector =>
    obtain ⟨value, rfl, nonempty⟩ := named
    refine ⟨.id value, ?_, .id⟩
    simp [SimpleSelector.ofNode, SimpleSelector.ofName, Detail.name?, nonempty]
  | classSelector =>
    obtain ⟨value, rfl, nonempty⟩ := named
    refine ⟨.className value, ?_, .className⟩
    simp [SimpleSelector.ofNode, SimpleSelector.ofName, Detail.name?, nonempty]
  | attributeSelector =>
    obtain ⟨name, op, value, flags, rfl, nonempty, operator⟩ := named
    cases op with
    | none =>
      refine ⟨.attr (Text.lower name) none (value.map AttributeValue.text) flags, ?_, .attr⟩
      simp [SimpleSelector.ofNode, nonempty]
    | some op =>
      obtain ⟨m, rfl⟩ := operator op rfl
      refine ⟨.attr (Text.lower name) (some m) (value.map AttributeValue.text) flags, ?_, .attr⟩
      simp [SimpleSelector.ofNode, nonempty, ofOperator?_operator]
  | _ => cases simple

namespace Partial

variable {p : Partial} {n : Node α} {ns ms : List (Node α)}

/-- A simple selector that can be matched goes to the compound that is being read. -/
theorem read_simple (p : Partial) (named : n.IsNamed) (simple : n.kind.isMatchable = true) :
    ∃ x, Stands (.inl x) n ∧ p.read n = { p with current := p.current ++ [x] } := by
  obtain ⟨x, compiled, stands⟩ := exists_ofNode named simple
  have other : n.kind ≠ .combinator := by
    intro kind
    rw [kind] at simple
    cases simple
  refine ⟨x, stands, ?_⟩
  rw [read, if_neg other, compiled]

/-- A combinator that is written stands without blanks around it. -/
theorem trim_written : Text.trim " " = "" ∧
    ∀ symbol ∈ [">", "+", "~", "||"], Text.trim symbol = symbol := by
  decide

/-- A combinator after a compound ends it. -/
theorem combine_blank (current : p.current ≠ []) : p.combine " " = p.endCompound .descendant := by
  rw [combine, if_neg (by simpa using current), trim_written.1]
  rfl

theorem combine_child (current : p.current ≠ []) : p.combine ">" = p.endCompound .child := by
  rw [combine, if_neg (by simpa using current), trim_written.2 ">" (by decide)]
  rfl

theorem combine_other {symbol : String} (current : p.current ≠ [])
    (other : symbol ∈ ["+", "~", "||"]) :
    p.combine symbol = (p.endCompound .descendant).note .combinator (.combinator symbol) := by
  rw [combine, if_neg (by simpa using current),
    trim_written.2 symbol (List.mem_cons_of_mem _ other)]
  simp only [List.mem_cons, List.not_mem_nil, or_false] at other
  obtain rfl | rfl | rfl := other <;> rfl

/-- A combinator that can be matched ends the compound before it. -/
theorem read_joins (joins : n.Joins) (current : p.current ≠ []) :
    ∃ c, Stands (.inr c) n ∧ p.read n = p.endCompound c := by
  obtain ⟨kind, detail, note, children⟩ := n
  obtain ⟨rfl, rfl | rfl⟩ := joins
  · refine ⟨.descendant, .combinator, ?_⟩
    rw [read, if_pos rfl]
    exact combine_blank current
  · refine ⟨.child, .combinator, ?_⟩
    rw [read, if_pos rfl]
    exact combine_child current

/-- Anything else is noted. -/
theorem read_refused (named : n.IsNamed) (simple : n.kind.isMatchable = false)
    (joins : n.Joins → p.current = []) : (p.read n).unsupported ≠ [] := by
  obtain ⟨kind, detail, note, children⟩ := n
  by_cases hk : kind = .combinator
  · subst hk
    obtain ⟨name, rfl, written⟩ := named
    rw [read, if_pos rfl]
    change (p.combine name).unsupported ≠ []
    by_cases current : p.current = []
    · simp [combine, current, Partial.note]
    · obtain rfl | rfl | other : name = " " ∨ name = ">" ∨ name ∈ ["+", "~", "||"] := by
        simpa using written
      · exact absurd (joins ⟨rfl, .inl rfl⟩) current
      · exact absurd (joins ⟨rfl, .inr rfl⟩) current
      · simp [combine_other current other, Partial.note]
  · rw [read, if_neg hk]
    have refused :
        SimpleSelector.ofNode ⟨kind, detail, note, children⟩ = .error .simpleSelector := by
      cases kind <;> first | rfl | cases simple
    rw [refused]
    simp [Partial.note]

/-- What has been read stands for some parts, and none of them was refused. -/
structure Says (p : Partial) (ns : List (Node α)) : Prop where
  supported : p.unsupported = []
  balanced : p.Balanced
  stands : List.Forall₂ Stands (interleave (p.compounds ++ [p.current]) p.combinators) ns

theorem says_empty : Says {} ([] : List (Node α)) := ⟨rfl, ⟨rfl, by rintro _ ⟨⟩⟩, .nil⟩

theorem Says.simple {x : SimpleSelector} (h : p.Says ns) (stands : Stands (.inl x) n) :
    Says { p with current := p.current ++ [x] } (ns ++ [n]) := by
  refine ⟨h.supported, ⟨h.balanced.length_eq, h.balanced.nonempty⟩, ?_⟩
  have longer : interleave (p.compounds ++ [p.current ++ [x]]) p.combinators =
      interleave (p.compounds ++ [p.current]) p.combinators ++ [.inl x] := by
    have split (c : Compound) : interleave (p.compounds ++ [c]) p.combinators =
        interleave p.compounds p.combinators ++ interleave [c] [] := by
      rw [← interleave_append h.balanced.length_eq, List.append_nil]
    rw [split, split, List.append_assoc]
    simp [interleave]
  rw [longer]
  exact List.rel_append h.stands (.cons stands .nil)

theorem Says.endCompound {c : Combinator} (h : p.Says ns) (current : p.current ≠ [])
    (stands : Stands (.inr c) n) : (p.endCompound c).Says (ns ++ [n]) := by
  refine ⟨h.supported, h.balanced.endCompound current c, ?_⟩
  have longer : interleave (p.compounds ++ [p.current] ++ [[]]) (p.combinators ++ [c]) =
      interleave (p.compounds ++ [p.current]) p.combinators ++ [.inr c] := by
    have last : interleave (p.compounds ++ [p.current]) p.combinators =
        interleave p.compounds p.combinators ++ interleave [p.current] [] := by
      rw [← interleave_append h.balanced.length_eq, List.append_nil]
    rw [List.append_assoc, interleave_append h.balanced.length_eq, last, List.append_assoc]
    simp [interleave]
  rw [Partial.endCompound, longer]
  exact List.rel_append h.stands (.cons stands .nil)

/-- One more part is refused, or what has been read stands for it as well. -/
theorem Says.read (h : p.Says ns) (named : n.IsNamed) (supported : (p.read n).unsupported = []) :
    (p.read n).Says (ns ++ [n]) := by
  cases simple : n.kind.isMatchable with
  | true =>
    obtain ⟨x, stands, hread⟩ := p.read_simple named simple
    rw [hread]
    exact h.simple stands
  | false =>
    have joins : ¬(n.Joins → p.current = []) :=
      fun joins => read_refused named simple joins supported
    obtain ⟨joins, current⟩ := Classical.not_imp.mp joins
    obtain ⟨c, stands, hread⟩ := read_joins joins current
    rw [hread]
    exact h.endCompound current stands

/-- What was refused stays so. -/
theorem unsupported_of_read (h : (p.read n).unsupported = []) : p.unsupported = [] := by
  rw [Partial.read] at h
  split at h
  · rw [combine] at h
    split at h
    · simp [Partial.note] at h
    · split at h
      · exact h
      · exact h
      · simp [Partial.note] at h
  · split at h
    · exact h
    · simp [Partial.note] at h

theorem unsupported_of_foldl (h : (ns.foldl read p).unsupported = []) : p.unsupported = [] := by
  induction ns generalizing p with
  | nil => exact h
  | cons n ns ih => exact unsupported_of_read (ih h)

/-- If no part of a selector was refused, what has been read stands for all of them. -/
theorem Says.foldl (h : p.Says ns) (named : ∀ m ∈ ms, m.IsNamed)
    (supported : (ms.foldl Partial.read p).unsupported = []) :
    (ms.foldl Partial.read p).Says (ns ++ ms) := by
  induction ms generalizing p ns with
  | nil => rwa [List.append_nil]
  | cons m ms ih =>
    obtain ⟨first, others⟩ := List.forall_mem_cons.mp named
    rw [List.append_cons]
    exact ih (h.read first (unsupported_of_foldl supported)) others supported

/-- Reading simple selectors that can be matched refuses none and leaves a compound. -/
theorem foldl_simple (named : ∀ n ∈ ns, n.IsNamed) (simple : ∀ n ∈ ns, n.kind.isMatchable = true) :
    (ns.foldl read p).unsupported = p.unsupported ∧
      (p.current ≠ [] ∨ ns ≠ [] → (ns.foldl read p).current ≠ []) := by
  induction ns generalizing p with
  | nil => exact ⟨rfl, fun h => h.resolve_right fun h => h rfl⟩
  | cons n ns ih =>
    obtain ⟨hn, named⟩ := List.forall_mem_cons.mp named
    obtain ⟨sn, simple⟩ := List.forall_mem_cons.mp simple
    obtain ⟨x, -, hread⟩ := p.read_simple hn sn
    obtain ⟨same, some⟩ := ih (p := p.read n) named simple
    rw [List.foldl_cons, same]
    refine ⟨by rw [hread], fun _ => some (.inl ?_)⟩
    rw [hread]
    exact List.append_ne_nil_of_right_ne_nil _ (List.cons_ne_nil _ _)

/-- Reading parts that can be matched refuses none and leaves a compound. -/
theorem foldl_areMatchable (h : Node.AreMatchable ns) (named : ∀ n ∈ ns, n.IsNamed)
    (supported : p.unsupported = []) :
    (ns.foldl read p).unsupported = [] ∧ (ns.foldl read p).current ≠ [] := by
  induction h generalizing p with
  | compound nonempty simple =>
    obtain ⟨same, some⟩ := foldl_simple (p := p) named simple
    exact ⟨same.trans supported, some (.inr nonempty)⟩
  | @joined front rest c nonempty simple joins _ ih =>
    obtain ⟨first, later⟩ := List.forall_mem_append.mp named
    obtain ⟨-, others⟩ := List.forall_mem_cons.mp later
    obtain ⟨same, some⟩ := foldl_simple (p := p) first simple
    obtain ⟨_, -, hread⟩ := read_joins joins (some (.inr nonempty))
    rw [List.foldl_append, List.foldl_cons]
    refine ih others ?_
    rw [hread]
    exact same.trans supported

/-- A selector can be matched if no part was refused and it ends with a compound. -/
theorem finish_unsupported :
    p.finish.unsupported = [] ↔ p.unsupported = [] ∧ p.current ≠ [] := by
  unfold finish
  split
  · rename_i some
    exact ⟨fun h => ⟨h, by simpa using some⟩, And.left⟩
  · rename_i none
    have empty : p.current = [] := by simpa using none
    split <;> simp [Partial.note, empty]

end Partial

/-! ### Specificity -/

/-- The numbers of ids, of classes and attributes, and of types other than `*`. -/
def countParts (ns : List (Node α)) : Specificity where
  ids := ns.countP fun n => n.kind = .idSelector
  classes := ns.countP fun n => n.kind = .classSelector ∨ n.kind = .attributeSelector
  types := ns.countP fun n => n.kind = .typeSelector ∧ n.detail ≠ .name "*"

section Count

variable {n : Node α} {ns : List (Node α)}

theorem countParts_test {x : SimpleSelector} (h : Stands (.inl x) n) :
    countParts (n :: ns) = (Specificity.ofSimple x).add (countParts ns) := by
  cases h <;> simp [countParts, Specificity.ofSimple, Specificity.add, Nat.add_comm, *]

theorem countParts_combinator {c : Combinator} (h : Stands (.inr c) n) :
    countParts (n :: ns) = countParts ns := by
  cases h
  simp [countParts]

/-- Tests add up to the numbers of the parts that they stand for. -/
theorem foldl_specificity {xs : List (SimpleSelector ⊕ Combinator)}
    (h : List.Forall₂ Stands xs ns) (start : Specificity) :
    ((xs.filterMap Sum.getLeft?).map Specificity.ofSimple).foldl Specificity.add start =
      start.add (countParts ns) := by
  induction h generalizing start with
  | nil => rfl
  | @cons x n xs ns stands _ ih =>
    cases x with
    | inl x =>
      have test : Sum.getLeft? (.inl x : SimpleSelector ⊕ Combinator) = some x := rfl
      rw [List.filterMap_cons_some test, List.map_cons, List.foldl_cons, ih, countParts_test stands]
      simp only [Specificity.add, Nat.add_assoc]
    | inr c => rw [List.filterMap_cons_none rfl, ih, countParts_combinator stands]

end Count

/-! ### Compiled selectors -/

/-- What a selector was compiled into, compared with the node that it was read from. -/
structure Represents (s : Selector) (n : Node α) : Prop where
  /-- A selector can be matched if and only if all its parts can. -/
  supported : s.supported = true ↔ Node.AreMatchable n.children
  /-- There is a compound more than combinators, and no compound is empty. -/
  wellFormed : s.supported = true → s.WellFormed
  /-- Compounds and combinators in turn are the parts of the selector in order. -/
  stands : s.supported = true →
    List.Forall₂ Stands (interleave s.compounds s.combinators) n.children
  /-- A selector is as specific as the numbers of its parts say. -/
  specificity : s.supported = true → s.specificity = countParts n.children

/-- A selector whose parts are named is compiled without loss. -/
theorem represents_ofNode (i : Nat) {n : Node α} (named : ∀ c ∈ n.children, c.IsNamed) :
    (ofNode i n).Represents n := by
  let p := n.children.foldl Partial.read {}
  have supported_iff : (ofNode i n).supported = true ↔ p.unsupported = [] ∧ p.current ≠ [] := by
    rw [← Partial.finish_unsupported]
    simp [supported, ofNode, p]
  have stands (h : (ofNode i n).supported = true) :
      List.Forall₂ Stands (interleave (ofNode i n).compounds (ofNode i n).combinators)
        n.children := by
    obtain ⟨all, current⟩ := supported_iff.mp h
    have read : p.Says n.children := Partial.says_empty.foldl named all
    have finish : p.finish = { p with compounds := p.compounds ++ [p.current], current := [] } := by
      rw [Partial.finish, if_pos (by simpa using current)]
    change List.Forall₂ Stands (interleave p.finish.compounds p.finish.combinators) n.children
    rw [finish]
    exact read.stands
  refine ⟨⟨fun h => ?_, fun h => supported_iff.mpr ?_⟩, wellFormed_ofNode i n, stands, fun h => ?_⟩
  · obtain ⟨length_eq, nonempty⟩ := wellFormed_ofNode i n h
    exact areMatchable_of_stands length_eq nonempty (stands h)
  · exact Partial.foldl_areMatchable h named rfl
  · have sum := foldl_specificity (stands h) {}
    rw [filterMap_interleave] at sum
    rw [specificity, sum]
    simp [Specificity.add, countParts]

end Selector

/-! ### Lists of selectors -/

/-- A list was refused, not the tree that it was asked about. -/
def QueryFailure.IsStrict : QueryFailure → Prop
  | .budget _ => False
  | .parse _ | .unsupported _ => True

namespace SelectorList

variable {l : SelectorList} {root : Element} {strict : Bool} {limit : Option Nat}

theorem supported_iff : l.supported = true ↔
    l.errors = [] ∧ l.selectors ≠ [] ∧ ∀ s ∈ l.selectors, s.supported = true := by
  simp [supported, unsupported, Selector.supported, and_assoc]

/-- A list that can be matched is not refused, and any other one is if the query is strict. -/
theorem checkStrict_supported (h : l.supported = true) : l.checkStrict strict = .ok () := by
  simp [checkStrict, h]

theorem checkStrict_refused (h : l.supported = false) :
    ∃ e, e.IsStrict ∧ l.checkStrict true = .error e := by
  rw [checkStrict, h]
  cases l.errors with
  | nil => exact ⟨.unsupported l.unsupported.head?, trivial, rfl⟩
  | cons e es => exact ⟨.parse e, trivial, rfl⟩

/-- The tree that a query is about is never the reason to refuse its list. -/
theorem not_isStrict_index {options : QueryOptions} {e : QueryFailure}
    (h : index root options = .error e) : ¬e.IsStrict := by
  unfold index at h
  split at h
  · cases h
  · cases h
    exact id

/-- What `strict` does to a question about a tree: it fails if and only if the list cannot be
matched, and else has the answer that it has otherwise. -/
structure Refuses (l : SelectorList) {α : Type} (ask : Bool → Except QueryFailure α) : Prop where
  refused : (∃ e, e.IsStrict ∧ ask true = .error e) ↔ ¬l.supported = true
  answered : l.supported = true → ask true = ask false

theorem refuses {α : Type} (answer : TreeIndex → α) : l.Refuses fun strict =>
    l.checkStrict strict >>= fun _ =>
      index root { strict, maxVisitedNodes := limit } >>= fun index => .ok (answer index) := by
  refine ⟨⟨?_, fun h => ?_⟩, fun h => ?_⟩
  · rintro ⟨e, strict, failed⟩ supported
    rw [checkStrict_supported supported] at failed
    cases indexed : index root { strict := true, maxVisitedNodes := limit } with
    | ok index =>
      rw [indexed] at failed
      cases failed
    | error e' =>
      rw [indexed] at failed
      cases failed
      exact not_isStrict_index indexed strict
  · obtain ⟨e, strict, refused⟩ := l.checkStrict_refused (by simpa using h)
    refine ⟨e, strict, ?_⟩
    rw [refused]
    rfl
  · rw [checkStrict_supported h, checkStrict_supported h]
    rfl

/-- What a text is compiled into is read from it as a fragment. -/
theorem ofText_eq (text : String) : ∃ d, parseFragment text "selectorList" {} = .ok d ∧
    d.root = (Document.treeOf false .selectorList (tokenize text)).value ∧
      ofText text = ofNode text d.root d.errors := by
  obtain ⟨d, read⟩ := exists_parseAs text .selectorList {} {}
  have root := parseAs_root read
  refine ⟨d, read, root, ?_⟩
  rw [root, parseAs_errors read]
  rfl

/-- A text is compiled without loss. Each selector that was read is compiled, in order: it can be
matched if and only if its parts are compounds of types, ids, classes and attributes with a blank or
`>` between every two of them, and then its compounds and combinators stand for these parts one by
one, and its specificity is their number. The list can be matched if and only if it was read without
errors and all its selectors can, of which there is then at least one. A strict query is refused if
and only if the list cannot be matched, and has the answer of any other query if it can. -/
theorem ofText_represents (text : String) :
    ∃ d, parseFragment text "selectorList" {} = .ok d ∧
      (ofText text).errors = d.errors ∧
      (ofText text).selectors.map Selector.index = List.range (ofText text).selectors.length ∧
      List.Forall₂ Selector.Represents (ofText text).selectors
        (d.root.children.filter fun n => n.kind = .selector) ∧
      ((ofText text).supported = true ↔
        (ofText text).errors = [] ∧ ∀ s ∈ (ofText text).selectors, s.supported = true) ∧
      ((ofText text).errors = [] → (ofText text).selectors ≠ []) ∧
      ∀ root limit,
        ((ofText text).Refuses fun strict =>
          (ofText text).query root { strict, maxVisitedNodes := limit }) ∧
        ∀ position, (ofText text).Refuses fun strict =>
          (ofText text).matchesAt root position { strict, maxVisitedNodes := limit } := by
  obtain ⟨d, read, root, compiled⟩ := ofText_eq text
  obtain ⟨held, filled⟩ := Document.treeOf_holdsSelectors false text
  rw [← root] at filled
  rw [Node.HoldsSelectors, ← root] at held
  have all : (d.root.children.filter fun n => n.kind = .selector) = d.root.children :=
    List.filter_eq_self.mpr fun c hc => decide_eq_true (held c hc).1
  have selectors : (ofText text).selectors = d.root.children.mapIdx Selector.ofNode := by
    rw [compiled, ofNode, all]
  have nonempty (h : (ofText text).errors = []) : (ofText text).selectors ≠ [] := by
    rw [selectors, ne_eq, List.mapIdx_eq_nil_iff]
    exact filled (List.map_eq_nil_iff.mp h)
  refine ⟨d, read, congrArg SelectorList.errors compiled, ?_, ?_, ?_, nonempty, fun root limit =>
    ⟨refuses _, fun position => refuses _⟩⟩
  · rw [selectors, List.length_mapIdx]
    refine List.ext_getElem (by simp) fun i hi hj => ?_
    simp [Selector.ofNode]
  · rw [all, selectors, List.forall₂_iff_get]
    refine ⟨List.length_mapIdx, fun i hi hj => ?_⟩
    rw [List.get_eq_getElem, List.get_eq_getElem, List.getElem_mapIdx]
    exact Selector.represents_ofNode i (held _ (List.getElem_mem hj)).2
  · rw [supported_iff]
    constructor
    · rintro ⟨read, -, able⟩
      exact ⟨read, able⟩
    · rintro ⟨read, able⟩
      exact ⟨read, nonempty read, able⟩

end SelectorList

end Stylesheet
