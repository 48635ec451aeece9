import Stylesheet.Proofs.Patch.Plan
import Stylesheet.Proofs.Removal.Open
import Stylesheet.Proofs.Removal.Rule
import Stylesheet.Proofs.Removal.Text

/-!
# Style sheets without a node

An edit that removes a rule or a declaration takes out the bytes of its tokens. What is left is read
as the style sheet without that node.
-/

namespace Stylesheet

namespace Node

/-! ### Numbers -/

theorem nextId_pos (id : Nat) : 0 < Mark.nextId id :=
  Nat.lt_min.mpr ⟨Nat.succ_pos id, by decide⟩

mutual

theorem numberFrom_pos (size : Nat) : ∀ (n : Node (Option Span)) (next : Nat), 0 < next →
    (∀ m ∈ (n.numberFrom size next).1.nodes, 0 < m.note.id) ∧ 0 < (n.numberFrom size next).2
  | ⟨kind, detail, place, children⟩, next, pos => by
    obtain ⟨below, after⟩ := numberAllFrom_pos size children (Mark.nextId next) (nextId_pos next)
    rw [numberFrom]
    refine ⟨fun m hm => ?_, after⟩
    obtain rfl | ⟨c, hc, hm⟩ := mem_nodes_iff.mp hm
    · exact pos
    · exact below c hc m hm

/-- Zero is no node's number. -/
theorem numberAllFrom_pos (size : Nat) : ∀ (ns : List (Node (Option Span))) (next : Nat), 0 < next →
    (∀ n ∈ (numberAllFrom size next ns).1, ∀ m ∈ n.nodes, 0 < m.note.id) ∧
      0 < (numberAllFrom size next ns).2
  | [], next, pos => ⟨by rintro _ ⟨⟩, pos⟩
  | n :: ns, next, pos => by
    obtain ⟨first, after⟩ := numberFrom_pos size n next pos
    obtain ⟨rest, last⟩ := numberAllFrom_pos size ns _ after
    rw [numberAllFrom]
    exact ⟨List.forall_mem_cons.mpr ⟨first, rest⟩, last⟩

end

/-- The tree with other trees below its root. -/
def holding {α : Type} (n : Node α) (children : List (Node α)) : Node α := { n with children }

/-- Where no two nodes share a number, the index holds every node under its number. -/
theorem indexed?_self {root n : Node Mark} (hn : n ∈ root.nodes)
    (distinct : ∀ m ∈ root.nodes, m.note.id = n.note.id → m = n) :
    root.indexed? n.note.id = some n := by
  cases found : root.indexed? n.note.id with
  | none => exact absurd rfl (indexed?_eq_none_iff.mp found n hn)
  | some m =>
    obtain ⟨hm, same⟩ := indexed?_eq_some found
    rw [distinct m hm same]

end Node

open Node Token Grammar

namespace Document

variable {text : String} {d : Document} {n : Node Mark} {cs : List (Node Mark)}

/-- What is deleted from the numbered tree of a style sheet is deleted from the rules as they were
read. -/
theorem exists_located {text : String} (deletes : Deletes n
      (treeOf true .stylesheet (tokenize text)).value.children cs) :
    ∃ l ls, n.kind = l.kind ∧ n.note.provenance = .input ∧ n.note.span = some l.note ∧
      cs.map strip = ls.map strip ∧
        Deletes l (ruleList true false false (wholeScope (tokenize text))).value ls := by
  have placed := deletes.map (Mark.placeAt 0)
  rw [treeOf_children, Located.map_shift_zero] at placed
  obtain ⟨l, ls, same, left, deletes⟩ := placed.of_map
  have note := congrArg Node.note same
  rw [map_note, map_note] at note
  obtain ⟨provenance, span⟩ := Prod.mk.inj note
  refine ⟨l, ls, ?_, provenance, ?_, ?_, deletes⟩
  · have kind := congrArg Node.kind same
    rwa [map_kind, map_kind] at kind
  · obtain ⟨place, found, same⟩ := Option.map_eq_some_iff.mp span
    exact found.trans (congrArg some same)
  · have shapes := congrArg (List.map strip) left
    rw [List.map_map, List.map_map] at shapes
    calc cs.map strip
      _ = cs.map (strip ∘ Node.map (Mark.placeAt 0)) :=
        List.map_congr_left fun c _ => (strip_map _ c).symm
      _ = ls.map (strip ∘ Node.map (Located.known true)) := shapes
      _ = ls.map strip := List.map_congr_left fun c _ => strip_map _ c

/-- Zero is no node's number. -/
theorem treeOf_pos {spans : Bool} {context : Context} {list : TokenList} :
    ∀ n ∈ (treeOf spans context list).value.nodes, 0 < n.note.id := by
  rw [treeOf_eq]
  exact (numberFrom_pos list.size _ 1 Nat.one_pos).1

theorem strip_treeOf (spans : Bool) (list : TokenList) :
    (treeOf spans .stylesheet list).value.strip =
      ⟨.styleSheet, .none, (), (ruleList true false false (wholeScope list)).value.map strip⟩ := by
  rw [show (treeOf spans .stylesheet list).value.strip = _ from treeOf_sameShape _ _ list]
  exact strip_mk _ _ _ _

end Document

open Document

variable {text : String} {d : Document} {n : Node Mark} {cs : List (Node Mark)}

/-- Removing a node whose place is known takes the bytes of that place out of the text. -/
theorem planEdits_remove_eq_ok {span : Span} (read : d.IsReadFrom text) (pos : 0 < n.note.id)
    (found : d.root.indexed? n.note.id = some n) (input : n.note.provenance = .input)
    (place : n.note.span = some span) :
    ∃ plan, planEdits text [.remove n.note.id] = .ok plan ∧
      Replacement.splice? text 0 [⟨n.note.id, span, ""⟩] = some plan.result := by
  have resolves : Replacement.resolve d.root (.remove n.note.id) = .ok ⟨n.note.id, span, ""⟩ := by
    have valid : n.note.id ≠ 0 := Nat.pos_iff_ne_zero.mp pos
    simp [Replacement.resolve, Edit.target, Edit.range, Edit.css, valid, found, input, place]
  have resolved : [Edit.remove n.note.id].mapM (Replacement.resolve d.root) =
      .ok [⟨n.note.id, span, ""⟩] := by
    rw [List.mapM_cons, resolves]
    rfl
  obtain ⟨plan, planned, makes⟩ := planEdits_eq_ok (List.cons_ne_nil _ []) read resolved
    (List.pairwise_singleton _ _)
  refine ⟨plan, planned, ?_⟩
  have result := makes.result
  rwa [List.mergeSort_singleton] at result

/-- Without the tokens of a node that is deleted from its rules, a style sheet without errors is read
without errors as the rules that are left. -/
theorem exists_removed (read : d.IsReadFrom text) (none : d.errors = []) (pos : 0 < n.note.id)
    (found : d.root.indexed? n.note.id = some n) (hn : n.kind = .rule ∨ n.kind = .declaration)
    (deletes : Deletes n d.root.children cs) :
    ∃ plan, planEdits text [.remove n.note.id] = .ok plan ∧
      (treeOf true .stylesheet (tokenize plan.result)).errors = [] ∧
      (treeOf true .stylesheet (tokenize plan.result)).value.strip = (d.root.holding cs).strip := by
  have root : d.root = (treeOf true .stylesheet (tokenize text)).value := parse_root read.parsed
  have errors : d.errors = locate text (treeOf true .stylesheet (tokenize text)).errors :=
    parse_errors read.parsed
  rw [none] at errors
  replace errors := List.map_eq_nil_iff.mp errors.symm
  have closed := closed_of_errors errors
  rw [treeOf_errors closed.full] at errors
  rw [root] at deletes
  obtain ⟨l, ls, kind, input, place, left, deletes⟩ := exists_located deletes
  obtain ⟨plan, planned, result⟩ := planEdits_remove_eq_ok read pos found input place
  obtain ⟨-, laid, -⟩ := tokenize_nests closed
  have drops := items_drop_all.2.1 true false false (wholeScope (tokenize text)) closed.tokens
    ⟨0, laid⟩ errors l ls (kind ▸ hn) deletes
  obtain @⟨gone, new, first, next, m, ne, closed', span, removes, moved, errors', value⟩ := drops
  rw [span] at result
  have tokens := tokenize_removes closed removes closed' ne result
  change (tokenize text).size = next + extent gone at moved
  rw [moved, Nat.add_sub_cancel] at tokens
  have whole : wholeScope (tokenize plan.result) = ⟨new, next⟩ := by rw [tokens]; rfl
  refine ⟨plan, planned, ?_, ?_⟩
  · rw [treeOf_errors (by rw [tokens]), whole]
    exact errors'
  · rw [strip_treeOf, whole, value, ← left, root, Node.holding, strip_mk, treeOf_eq]
    rfl

/-- Removing a rule or a declaration of a style sheet without errors is always possible, and changes
nothing else: the text that is left is read without errors, and its tree is that of the style sheet
without the node and all that is below it. An edit names a node by the number that the index holds
it under, which is every node unless the tree is so large that numbers run out. -/
theorem planEdits_remove (text : String) :
    ∃ d, parse text { captureSpans := true } = .ok d ∧
      (d.root.size < UInt32.size → ∀ n ∈ d.root.nodes, d.root.indexed? n.note.id = some n) ∧
      (d.errors = [] → ∀ n ∈ d.root.nodes, n.kind = .rule ∨ n.kind = .declaration →
        d.root.indexed? n.note.id = some n →
          ∃ plan d', planEdits text [.remove n.note.id] = .ok plan ∧
            parse plan.result { captureSpans := true } = .ok d' ∧ d'.errors = [] ∧
            (∃ cs, Deletes n d.root.children cs) ∧
              ∀ cs, Deletes n d.root.children cs → d'.root.strip = (d.root.holding cs).strip) := by
  obtain ⟨d, read⟩ := exists_isReadFrom text
  have root := parse_root read.parsed
  refine ⟨d, read.parsed, ?_, ?_⟩
  · intro small n hn
    exact indexed?_self hn fun m hm same => read.distinct small m hm n hn same
  · intro none n hn kind found
    have pos : 0 < n.note.id := treeOf_pos n (root ▸ hn)
    have below : ∃ c ∈ d.root.children, n ∈ c.nodes := by
      refine (mem_nodes_iff.mp hn).resolve_left ?_
      rintro rfl
      rw [root, treeOf_eq] at kind
      obtain kind | kind := kind <;> cases kind
    obtain ⟨cs, deletes⟩ := exists_deletesAll _ below
    obtain ⟨plan, planned, errors, -⟩ := exists_removed read none pos found kind deletes
    obtain ⟨d', read'⟩ := exists_isReadFrom plan.result
    refine ⟨plan, d', planned, read'.parsed, ?_, ⟨cs, deletes⟩, ?_⟩
    · rw [parse_errors read'.parsed]
      exact List.map_eq_nil_iff.mpr errors
    · intro cs deletes
      obtain ⟨plan', planned', -, shape⟩ := exists_removed read none pos found kind deletes
      obtain rfl : plan' = plan := Except.ok.inj (planned'.symm.trans planned)
      rw [parse_root read'.parsed]
      exact shape

/-- A declaration between a custom property that holds a block and white space, in a rule inside an
at-rule. -/
theorem planEdits_remove_nested :
    ∃ d n plan d', parse "@media x\x7ba\x7b--b:\x7b\x7d;c:d \x7d\x7d" { captureSpans := true } = .ok d ∧
      n ∈ d.root.nodes ∧ n.note.span = some ⟨18, 21⟩ ∧
      planEdits "@media x\x7ba\x7b--b:\x7b\x7d;c:d \x7d\x7d" [.remove n.note.id] = .ok plan ∧
      parse plan.result { captureSpans := true } = .ok d' ∧ d'.errors = [] := by
  obtain ⟨d, parsed, numbered, removes⟩ :=
    planEdits_remove "@media x\x7ba\x7b--b:\x7b\x7d;c:d \x7d\x7d"
  have root := parse_root parsed
  have small : d.root.size < UInt32.size := by
    rw [root]
    decide +kernel
  have none : d.errors = [] := by
    rw [parse_errors parsed, locate, List.map_eq_nil_iff]
    decide +kernel
  have found : ∃ n ∈ d.root.nodes, n.kind = .declaration ∧ n.note.span = some ⟨18, 21⟩ := by
    rw [root]
    decide +kernel
  obtain ⟨n, hn, kind, span⟩ := found
  obtain ⟨plan, d', planned, left, errors, -⟩ :=
    removes none n hn (.inr kind) (numbered small n hn)
  exact ⟨d, n, plan, d', parsed, hn, span, planned, left, errors⟩

end Stylesheet
