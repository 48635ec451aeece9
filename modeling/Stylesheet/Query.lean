import Std.Data.HashSet
import Stylesheet.Options
import Stylesheet.Selector
import Stylesheet.TreeIndex

/-!
# Queries

A query lists the positions, in pre-order, of the elements of a tree that some selector of a list
matches. Selectors are matched from right to left: a search starts with the last compound at the node
in question and goes on with the compound before it at the parent or at the ancestors, as the
combinator between the two says. Each pair of a compound and a node is taken up at most once.

A selector with a part that is not supported matches nothing, unless the query is strict: then it
fails.
-/

namespace Stylesheet

/-! ### Tests of one element -/

namespace Matcher

/-- Tells whether some characters occur in others in one piece. -/
def occursIn (part : List Char) : List Char → Bool
  | [] => part.isEmpty
  | c :: cs => part.isPrefixOf (c :: cs) || occursIn part cs

/-- Compare the value of an attribute with the expected value. -/
def test (m : Matcher) (actual expected : String) : Bool :=
  match m with
  | equals => actual = expected
  | includes => (Text.words actual).contains expected
  | dashMatch => actual = expected || (expected.toList ++ ['-']).isPrefixOf actual.toList
  | startsWith => expected.toList.isPrefixOf actual.toList
  | endsWith => expected.toList.isSuffixOf actual.toList
  | contains => occursIn expected.toList actual.toList

end Matcher

/-- Tells whether flags ask for case not to count. -/
def ignoresCase (flags : Option String) : Bool :=
  flags.any fun f => (Text.lower f).toList.contains 'i'

/-- Test the value of an attribute that is there. -/
def testAttribute (actual : String) (matcher : Option Matcher) (expected : Option String)
    (flags : Option String) : Bool :=
  match matcher, expected with
  | none, _ => true
  | some _, none => false
  | some m, some expected =>
    if ignoresCase flags then m.test (Text.lower actual) (Text.lower expected)
    else m.test actual expected

/-- Tells whether an element passes a test. -/
def SimpleSelector.test (e : Element) : SimpleSelector → Bool
  | universal => true
  | type name => e.tagName.any fun tag => Text.lower tag = name
  | id value => e.valueOf? "id" = some value
  | className value => (e.valueOf? "class").any fun classes => (Text.words classes).contains value
  | attr name matcher value flags =>
    (e.valueOf? name).any fun actual => testAttribute actual matcher value flags

/-- Tells whether a node is an element that passes all tests of a compound. -/
def Element.passes (e : Element) (c : Compound) : Bool :=
  !c.isEmpty && e.isElement && c.all fun s => s.test e

/-! ### Searching towards the root -/

/-- A compound of a selector and the position of a node that may match it. -/
abbrev Candidate := Nat × Nat

/-- The candidates that have been queued. -/
abbrev Queued := Std.HashSet Candidate

namespace TreeIndex

/-- Tells whether the node of a candidate passes its compound. -/
def passes (index : TreeIndex) (s : Selector) (x : Candidate) : Bool :=
  match s.compounds[x.1]?, index.nodes[x.2]? with
  | some c, some e => e.passes c
  | _, _ => false

/-- Queue the parent of the node at `p` for the compound `k`, if it is an element and new. -/
def queueParent (index : TreeIndex) (k p : Nat) (queued : Queued) : List Candidate × Queued :=
  match index.parent? p with
  | some q =>
    if index.isElementAt q && !queued.contains (k, q) then ([(k, q)], queued.insert (k, q))
    else ([], queued)
  | none => ([], queued)

/-- Queue the elements among the ancestors of the node at `p` for the compound `k`, the nearest one
first. Candidates for `k` come only from this walk, so everything above a queued ancestor is queued
too, and the walk ends there. -/
def queueAncestors (index : TreeIndex) (k p : Nat) (queued : Queued) : List Candidate × Queued :=
  match _h : index.parent? p with
  | some q =>
    if index.isElementAt q then
      if queued.contains (k, q) then ([], queued)
      else
        let (above, queued) := queueAncestors index k q (queued.insert (k, q))
        ((k, q) :: above, queued)
    else queueAncestors index k q queued
  | none => ([], queued)
termination_by p
decreasing_by all_goals exact parent?_lt _h

/-- Queue the nodes that a combinator leads to from the node at `p`, for the compound `k`. -/
def queue (index : TreeIndex) (c : Option Combinator) (k p : Nat) (queued : Queued) :
    List Candidate × Queued :=
  match c with
  | some .child => index.queueParent k p queued
  | some .descendant => index.queueAncestors k p queued
  | none => ([], queued)

/-- A bound for the number of candidates that a search may take up from one for compound `k` at
`p`. -/
def reach (p : Nat) : Nat → Nat
  | 0 => 1
  | k + 1 => reach p k * (p + 1)

theorem reach_pos (p k : Nat) : 0 < reach p k := by
  induction k with
  | zero => exact Nat.one_pos
  | succ k ih => exact Nat.mul_pos ih (Nat.succ_pos p)

theorem reach_le_reach {p q : Nat} (h : q ≤ p) (k : Nat) : reach q k ≤ reach p k := by
  induction k with
  | zero => exact Nat.le_refl _
  | succ k ih => exact Nat.mul_le_mul ih (Nat.succ_le_succ h)

/-- A bound for the number of candidates that a search may take up from some that are pending. -/
def effort : List Candidate → Nat
  | [] => 0
  | (k, p) :: rest => reach p k + effort rest

theorem effort_append (xs ys : List Candidate) : effort (xs ++ ys) = effort xs + effort ys := by
  induction xs with
  | nil => simp [effort]
  | cons x xs ih => simp only [List.cons_append, effort, ih]; omega

theorem effort_queueAncestors_lt (index : TreeIndex) (k p : Nat) (queued : Queued) :
    effort (index.queueAncestors k p queued).1 < reach p (k + 1) := by
  fun_induction queueAncestors index k p queued with
  | case1 => exact reach_pos _ _
  | case2 p queued q h _ _ above _ eq ih =>
    rw [eq] at ih
    have hq : q + 1 ≤ p := parent?_lt h
    calc reach q k + effort above
        < reach q k + reach q k * (q + 1) := Nat.add_lt_add_left ih _
      _ = reach q k * (q + 2) := by rw [Nat.add_comm, ← Nat.mul_succ]
      _ ≤ reach p k * (p + 1) := Nat.mul_le_mul (reach_le_reach (by omega) k) (by omega)
  | case3 p queued q h _ ih =>
    have hq : q < p := parent?_lt h
    exact Nat.lt_of_lt_of_le ih (reach_le_reach (by omega) _)
  | case4 => exact reach_pos _ _

theorem effort_queueParent_lt (index : TreeIndex) (k p : Nat) (queued : Queued) :
    effort (index.queueParent k p queued).1 < reach p (k + 1) := by
  rw [queueParent]
  split
  · rename_i q h
    split
    · have hq : q < p := parent?_lt h
      calc reach q k
          ≤ reach p k := reach_le_reach (by omega) k
        _ < reach p k * (p + 1) := (Nat.lt_mul_iff_one_lt_right (reach_pos p k)).mpr (by omega)
    · exact reach_pos _ _
  · exact reach_pos _ _

theorem effort_queue_lt (index : TreeIndex) (c : Option Combinator) (k p : Nat) (queued : Queued) :
    effort (index.queue c k p queued).1 < reach p (k + 1) := by
  unfold queue
  split
  · exact index.effort_queueParent_lt k p queued
  · exact index.effort_queueAncestors_lt k p queued
  · exact reach_pos _ _

/-- Take up the pending candidates one after the other. One that passes its compound succeeds if
that is the first compound; else the nodes that the combinator before it leads to are queued and
taken up next. No candidate is queued twice. -/
def search (index : TreeIndex) (s : Selector) (queued : Queued) (pending : List Candidate) :
    Bool :=
  match pending with
  | [] => false
  | (k, p) :: rest =>
    if index.passes s (k, p) then
      match k with
      | 0 => true
      | k + 1 =>
        let next := index.queue s.combinators[k]? k p queued
        search index s next.2 (next.1 ++ rest)
    else search index s queued rest
termination_by effort pending
decreasing_by
  · rw [effort_append, effort]
    exact Nat.add_lt_add_right (index.effort_queue_lt _ k p queued) _
  · exact Nat.lt_add_of_pos_left (reach_pos _ _)

/-- Tells whether a selector matches the node at a position. The search starts with its last
compound. -/
def isMatch (index : TreeIndex) (s : Selector) (position : Nat) : Bool :=
  s.supported && !s.compounds.isEmpty &&
    let start := (s.compounds.length - 1, position)
    index.search s {start} [start]

/-- Tells whether some selector of a list matches the node at a position. -/
def isMatchOfAny (index : TreeIndex) (l : SelectorList) (position : Nat) : Bool :=
  l.selectors.any fun s => index.isMatch s position

end TreeIndex

/-! ### Queries -/

/-- Why a query has no answer. -/
inductive QueryFailure where
  | budget (e : BudgetExceeded)
  | parse (e : ParseError)
  /-- A part that is not supported, or nothing if the list is empty. -/
  | unsupported (part : Option UnsupportedPart)
  deriving DecidableEq, Repr, Inhabited

/-- The wording of a failed query. -/
def QueryFailure.message : QueryFailure → String
  | budget e => e.message
  | parse e => "selector parse failed in strict mode: " ++ e.message
  | unsupported part =>
    "selector unsupported in strict mode: " ++
      (part.map UnsupportedPart.message).getD "Selector empty selector list"

namespace SelectorList

/-- What strict queries refuse. -/
def checkStrict (l : SelectorList) (strict : Bool) : Except QueryFailure Unit :=
  if strict && !l.supported then
    match l.errors with
    | e :: _ => .error (.parse e)
    | [] => .error (.unsupported l.unsupported.head?)
  else .ok ()

/-- The index of a tree; the query fails if more nodes would be visited than it may visit. -/
def index (root : Element) (options : QueryOptions) : Except QueryFailure TreeIndex :=
  match TreeIndex.build options.maxVisitedNodes root with
  | .ok index => .ok index
  | .error exceeded => .error (.budget exceeded)

/-- The positions in pre-order of the elements that some selector of the list matches. -/
def query (l : SelectorList) (root : Element) (options : QueryOptions) :
    Except QueryFailure (List Nat) := do
  l.checkStrict options.strict
  let index ← index root options
  .ok (index.elements.filter (index.isMatchOfAny l))

/-- Tells whether some selector of the list matches the node at a position in pre-order. No node
stands at a position past the end. -/
def matchesAt (l : SelectorList) (root : Element) (position : Nat) (options : QueryOptions) :
    Except QueryFailure Bool := do
  l.checkStrict options.strict
  let index ← index root options
  .ok (index.isElementAt position && index.isMatchOfAny l position)

end SelectorList

end Stylesheet
