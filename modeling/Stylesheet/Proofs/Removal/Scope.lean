import Stylesheet.Proofs.Regular.Document
import Stylesheet.Proofs.Removal.Item
import Stylesheet.Proofs.Removal.Node
import Stylesheet.Proofs.Removal.Token

/-!
# Scopes without an item

A scope is read item by item, and so it is without the tokens of one of them: the items before are
read from the tokens they were read from before, those behind are read further left, and where the
tokens are missing inside a block, only what that block holds is read differently.
-/

namespace Stylesheet

namespace Token

variable {a b k : Nat} {ts : List Token}

/-- Tokens that stand far enough to the right can be moved to the left. -/
theorem Laid.exists_shift (h : Laid (a + k) ts b) :
    ∃ us c, ts = us.map (shift k) ∧ b = c + k ∧ Laid a us c := by
  induction ts generalizing a with
  | nil => exact ⟨[], a, rfl, (Laid.nil_iff.mp h).symm, .nil⟩
  | cons t ts ih =>
    obtain ⟨start, full, rest⟩ := Laid.cons_iff.mp h
    obtain ⟨kind, text, _, value, inside, omitted⟩ := t
    cases start
    have moved : Laid (a + text.utf8ByteSize + k) ts b := by
      rw [Nat.add_right_comm]
      exact rest
    obtain ⟨us, c, rfl, rfl, laid⟩ := ih moved
    exact ⟨⟨kind, text, a, value, inside, omitted⟩ :: us, c, rfl, rfl,
      Laid.cons_iff.mpr ⟨rfl, full, laid⟩⟩

end Token

namespace Grammar

open Located Token Node

/-- What reads the items of a scope. -/
abbrev Reader := Scope → Parsed (List Located)

/-- Items are read one after the other wherever they stand, and white space and comments between
them are skipped. -/
structure Lists (read : Reader) : Prop where
  nil : ∀ next, read ⟨[], next⟩ = ⟨[], []⟩
  skip : ∀ t ts next, t.kind.isTrivia = true → read ⟨t :: ts, next⟩ = read ⟨ts, next⟩
  shift : ∀ k s, ItemsShift k read s

/-- A scope is read without errors as some trees. -/
def Reads (read : Reader) (s : Scope) (ns : List (Node Unit)) : Prop :=
  (read s).errors = [] ∧ (read s).value.map strip = ns

/-- Without the tokens of a node a scope is read without errors as some trees. -/
inductive Loses (read : Reader) (s : Scope) (n : Located) (ns : List (Node Unit)) : Prop
  | intro {gone new : List Token} {first : Bool} {next m : Nat} (ne : gone ≠ [])
    (closed : Closed gone) (span : n.note = Scope.span ⟨gone, m⟩)
    (removes : Removes gone first s.tokens new) (moved : s.next = next + extent gone)
    (reads : Reads read ⟨new, next⟩ ns) : Loses read s n ns

/-- Tokens that stand one behind the other to the end of the scope. -/
def Fills (ts : List Token) (next : Nat) : Prop := ∃ a, Laid a ts next

variable {read within : Reader} {s : Scope} {n : Located} {ns later : List (Node Unit)}
variable {own gone after ts : List Token} {t : Token} {next m k : Nat} {p : Parsed Located}

theorem Fills.append (h : Fills (own ++ ts) next) : Fills ts next := by
  obtain ⟨a, laid⟩ := h
  obtain ⟨m, -, rest⟩ := Laid.append_iff.mp laid
  exact ⟨m, rest⟩

theorem Reads.of_shift (lists : Lists read) (h : Reads read (s.shift k) ns) : Reads read s ns := by
  obtain ⟨errors, value⟩ := h
  rw [lists.shift k s] at errors value
  refine ⟨List.map_eq_nil_iff.mp errors, ?_⟩
  rw [← value, Parsed.shiftAll_value, List.map_map]
  exact (List.map_congr_left fun n _ => strip_map (Span.shift k) n).symm

/-- The tokens stand in front. -/
theorem Loses.here (lists : Lists read) (ne : gone ≠ []) (closed : Closed gone)
    (fills : Fills (gone ++ after) next) (span : n.note = Scope.span ⟨gone, m⟩)
    (reads : Reads read ⟨after, next⟩ ns) : Loses read ⟨gone ++ after, next⟩ n ns := by
  obtain ⟨a, laid⟩ := fills
  obtain ⟨b, before, rest⟩ := Laid.append_iff.mp laid
  rw [before.stop_eq] at rest
  obtain ⟨us, c, rfl, rfl, -⟩ := rest.exists_shift
  exact .intro ne closed span .here rfl (reads.of_shift lists)

/-- The tokens stand behind an item. -/
theorem Loses.past (leads : ∀ us next, read ⟨own ++ us, next⟩ = p.cons (read ⟨us, next⟩))
    (ne : own ≠ []) (closed : Closed own) (bounds : ∀ t ∈ own.getLast?, t.kind.bounds = true)
    (none : p.errors = []) (h : Loses read ⟨after, next⟩ n ns) :
    Loses read ⟨own ++ after, next⟩ n (p.value.strip :: ns) := by
  obtain ⟨ne', closed', span, removes, moved, errors, value⟩ := h
  refine .intro ne' closed' span (.past ne closed ?fresh ?apart removes) moved ⟨?errors, ?value⟩
  case fresh =>
    refine .of_getLast fun k hk => ?_
    rw [List.getLast?_map] at hk
    obtain ⟨t, ht, rfl⟩ := Option.map_eq_some_iff.mp hk
    exact bounds t ht
  case apart =>
    intro _ t ht white
    have bound := bounds t ht
    rw [white] at bound
    cases bound
  case errors =>
    rw [leads, Parsed.cons, none, errors]
    rfl
  case value =>
    rw [leads, Parsed.cons, List.map_cons, value]

/-- The tokens stand behind one that is skipped. If that is white space and they stand in front of
white space, this becomes one token. -/
theorem Loses.skip (lists : Lists read)
    (skip : ∀ us next, read ⟨t :: us, next⟩ = read ⟨us, next⟩)
    (kind : t.kind.separates = true ∨ t.kind = .semicolon) (h : Loses read ⟨ts, next⟩ n ns) :
    Loses read ⟨t :: ts, next⟩ n ns := by
  obtain @⟨gone, new, first, next', m, ne, closed, span, removes, moved, reads⟩ := h
  have plain : t.kind.opensBlock = false := kind.elim Kind.separates_plain fun hk => hk ▸ rfl
  have fresh : Kind.Fresh ([t].map Token.kind) := by
    obtain hk | hk := kind
    · exact .separator hk
    · exact .boundary (by rw [hk]; rfl)
  by_cases meets : first = true ∧ t.kind = .whiteSpace ∧ ∃ u us, new = u :: us ∧ u.kind = .whiteSpace
  · obtain ⟨rfl, white, u, us, rfl, white'⟩ := meets
    have old : ts = gone ++ (u :: us).map (Token.shift (extent gone)) := removes.eq_of_first
    subst old
    refine .intro ne closed span (.joined white white') moved ?_
    have trivia (v : Token) (hv : v.kind = .whiteSpace) : v.kind.isTrivia = true := by rw [hv]; rfl
    rw [Reads, lists.skip _ _ _ (trivia u white')] at reads
    rw [Reads, lists.skip _ _ _ (by exact trivia t white)]
    exact reads
  · refine .intro ne closed span
      (.past (List.cons_ne_nil t []) (.leaf plain .nil) fresh ?_ removes) moved ?_
    · rintro rfl _ ⟨⟩ white u hu white'
      obtain ⟨us, rfl⟩ := List.head?_eq_some_iff.mp hu
      exact meets ⟨rfl, white, u, us, rfl, white'⟩
    · rw [Reads, List.singleton_append, skip]
      exact reads

/-! ### Blocks -/

/-- The node of an item that ends with a block, given what stands in front of the block. -/
def enclosed (kind : NodeKind) (detail : Detail) (start : Nat) (shell : Parsed (List Located))
    (block : Parsed Located) : Parsed Located :=
  ⟨⟨kind, detail, ⟨start, block.value.note.stop⟩, shell.value ++ [block.value]⟩,
    shell.errors ++ block.errors⟩

/-- Behind some tokens `within` reads what a block holds that starts there. The rest of the item
depends on these tokens alone. -/
structure Encloses (read within : Reader) (front : List Token) (opening : Nat) (kind : NodeKind)
    (detail : Detail) (shell : Parsed (List Located)) : Prop where
  closed : Closed front
  sort : kind = .rule ∨ kind = .atrule
  plain : ∀ c ∈ shell.value, ∀ m ∈ c.nodes, m.kind.isStructural = false
  reads : ∀ opener inner closer us next, opener.kind = .leftCurly → opener.start = opening →
    opener.inside = some inner.length → closer.kind = .rightCurly →
      read ⟨front ++ opener :: (inner ++ closer :: us), next⟩ =
        (enclosed kind detail (startOf front opening) shell
          (withBlock ⟨opener, ⟨inner, closer.start⟩, some closer, ⟨[], 0⟩⟩
            (within ⟨inner, closer.start⟩))).cons (read ⟨us, next⟩)

section

variable {front inner : List Token} {opener closer : Token} {kind : NodeKind} {detail : Detail}
variable {shell : Parsed (List Located)}

theorem strip_enclosed {start : Nat} {b : Block} {items : Parsed (List Located)} :
    (enclosed kind detail start shell (withBlock b items)).value.strip =
      ⟨kind, detail, (), shell.value.map strip ++ [⟨.block, .none, (), items.value.map strip⟩]⟩ := by
  rw [enclosed, strip_mk, List.map_append, withBlock, List.map_singleton, strip_mk]

/-- The tokens stand inside the block of an item. -/
theorem Loses.inside (lists : Lists read) (encloses : Encloses read within front opener.start kind
      detail shell) (curly : opener.kind = .leftCurly) (paired : opener.inside = some inner.length)
    (closes : closer.kind = .rightCurly) (none : shell.errors = [])
    (fills : Fills (front ++ opener :: (inner ++ closer :: after)) next)
    (reads : Reads read ⟨after, next⟩ later) (h : Loses within ⟨inner, closer.start⟩ n ns) :
    Loses read ⟨front ++ opener :: (inner ++ closer :: after), next⟩ n
      (⟨kind, detail, (), shell.value.map strip ++ [⟨.block, .none, (), ns⟩]⟩ :: later) := by
  obtain @⟨gone, new, first, edge, m, ne, closed, span, removes, moved, errors, value⟩ := h
  -- What stands behind the block is read as it was, further left.
  obtain ⟨a, laid⟩ : Fills (closer :: after) next := by
    rw [List.append_cons, ← List.append_assoc] at fills
    exact fills.append
  obtain ⟨start, -, -⟩ := Laid.cons_iff.mp laid
  change closer.start = edge + extent gone at moved
  rw [start, moved] at laid
  obtain ⟨us, c, shifted, rfl, laid'⟩ := laid.exists_shift
  obtain ⟨closer', after', rfl, rfl, rfl⟩ := List.map_eq_cons_iff.mp shifted.symm
  obtain ⟨rfl, -, -⟩ := Laid.cons_iff.mp laid'
  obtain ⟨errors', value'⟩ := reads.of_shift lists (s := ⟨after', c⟩)
  refine .intro ne closed span (.inside encloses.closed curly closes paired removes) rfl ?_
  have read := encloses.reads { opener with inside := some new.length } new closer' after' c curly rfl
    rfl closes
  constructor
  · rw [read, Parsed.cons, errors', enclosed, none, withBlock, errors]
    rfl
  · rw [read, Parsed.cons, List.map_cons, strip_enclosed, value, value']

end

/-! ### Every node -/

/-- Where a scope is read without errors, each rule and each declaration in it can be taken out:
without its tokens the scope is read as the other nodes. -/
def Drops (read : Reader) (s : Scope) : Prop :=
  Closed s.tokens → Fills s.tokens s.next → (read s).errors = [] →
    ∀ n ms, n.kind = .rule ∨ n.kind = .declaration → Deletes n (read s).value ms →
      Loses read s n (ms.map strip)

theorem not_plain {n : Located} (h : n.kind = .rule ∨ n.kind = .declaration) :
    n.kind.isStructural = true := by
  obtain h | h := h <;> rw [h] <;> rfl

/-- Among trees without structure there is no rule and no declaration. -/
theorem not_deletes_plain {n : Located} {ms ms' : List Located}
    (hn : n.kind = .rule ∨ n.kind = .declaration)
    (plain : ∀ c ∈ ms, ∀ m ∈ c.nodes, m.kind.isStructural = false) : ¬Deletes n ms ms' := by
  intro h
  obtain ⟨c, hc, hm⟩ := h.mem
  have structural := not_plain hn
  rw [plain c hc n hm] at structural
  cases structural

theorem Drops.end (lists : Lists read) : Drops read ⟨[], next⟩ := by
  intro _ _ _ n ms _ h
  rw [lists.nil] at h
  cases h

theorem Drops.skip (lists : Lists read)
    (skip : ∀ us next, read ⟨t :: us, next⟩ = read ⟨us, next⟩)
    (kind : t.kind.separates = true ∨ t.kind = .semicolon) (h : Drops read ⟨ts, next⟩) :
    Drops read ⟨t :: ts, next⟩ := by
  intro closed fills none n ms hn deletes
  have plain : t.kind.opensBlock = false := kind.elim Kind.separates_plain fun hk => hk ▸ rfl
  rw [skip] at none deletes
  rw [← List.singleton_append] at fills
  exact (h (closed.of_leaf plain) fills.append none n ms hn deletes).skip lists skip kind

/-- An item without a block may be taken out if it is a rule or a declaration, and stays if anything
behind it is taken out. -/
theorem Drops.item (leads : ∀ us next, read ⟨own ++ us, next⟩ = p.cons (read ⟨us, next⟩))
    (ne : own ≠ []) (closed : Closed own) (bounds : ∀ t ∈ own.getLast?, t.kind.bounds = true)
    (plain : ∀ c ∈ p.value.children, ∀ m ∈ c.nodes, m.kind.isStructural = false)
    (self : ∀ ns, Fills (own ++ after) next → p.errors = [] →
      p.value.kind = .rule ∨ p.value.kind = .declaration → Reads read ⟨after, next⟩ ns →
        Loses read ⟨own ++ after, next⟩ p.value ns)
    (rest : Closed after) (h : Drops read ⟨after, next⟩) : Drops read ⟨own ++ after, next⟩ := by
  intro _ fills none n ms hn deletes
  rw [leads] at none deletes
  obtain ⟨noneHere, noneLater⟩ := List.append_eq_nil_iff.mp none
  cases deletes with
  | here => exact self _ fills noneHere hn ⟨noneLater, rfl⟩
  | inside content => exact absurd content (not_deletes_plain hn plain)
  | later deletes =>
    exact (h rest fills.append noneLater n _ hn deletes).past leads ne closed bounds noneHere

section

variable {front inner : List Token} {opener closer : Token} {kind : NodeKind} {detail : Detail}
variable {shell : Parsed (List Located)}

/-- A rule may be taken out as a whole, and what can be taken out of its block or of the block of an
at-rule can be taken out of the scope. -/
theorem Drops.enclosed (lists : Lists read) (encloses : Encloses read within front opener.start kind
      detail shell) (curly : opener.kind = .leftCurly) (paired : opener.inside = some inner.length)
    (closes : closer.kind = .rightCurly) (content : Closed inner) (rest : Closed after)
    (inside : Drops within ⟨inner, closer.start⟩) (h : Drops read ⟨after, next⟩) :
    Drops read ⟨front ++ opener :: (inner ++ closer :: after), next⟩ := by
  intro _ fills none n ms hn deletes
  have pairs : opener.kind.closing = some closer.kind := by rw [curly, closes]; rfl
  have split (us : List Token) : front ++ opener :: (inner ++ closer :: us) =
      (front ++ opener :: (inner ++ [closer])) ++ us := by
    simp only [List.append_assoc, List.cons_append, List.nil_append]
  have closed : Closed (front ++ opener :: (inner ++ [closer])) :=
    encloses.closed.append (.block pairs paired content .nil)
  have ne : front ++ opener :: (inner ++ [closer]) ≠ [] :=
    List.append_ne_nil_of_right_ne_nil front (List.cons_ne_nil opener _)
  have last : (front ++ opener :: (inner ++ [closer])).getLast? = some closer := by
    rw [← List.cons_append, ← List.append_assoc, List.getLast?_concat]
  have leads (us : List Token) (next : Nat) := encloses.reads opener inner closer us next curly rfl
    paired closes
  rw [leads] at none deletes
  obtain ⟨noneHere, noneLater⟩ := List.append_eq_nil_iff.mp none
  obtain ⟨noneShell, noneBlock⟩ := List.append_eq_nil_iff.mp noneHere
  obtain ⟨noneInside, -⟩ := List.append_eq_nil_iff.mp noneBlock
  have fillsInside : Fills inner closer.start := by
    obtain ⟨a, laid⟩ := fills.append
    obtain ⟨-, -, laid⟩ := Laid.cons_iff.mp laid
    obtain ⟨m, laid, behind⟩ := Laid.append_iff.mp laid
    obtain ⟨rfl, -, -⟩ := Laid.cons_iff.mp behind
    exact ⟨_, laid⟩
  cases deletes with
  | here =>
    rw [split] at fills ⊢
    refine .here (m := next) lists ne closed fills ?_ ⟨noneLater, rfl⟩
    rw [Scope.span, Scope.start, Scope.stop, last, startOf_append]
    rfl
  | inside content' =>
    obtain ⟨ms', h', -⟩ | ⟨bs, h', rfl⟩ := content'.append_cases
    · exact absurd h' (not_deletes_plain hn encloses.plain)
    · cases h' with
      | here => obtain hn | hn := hn <;> cases hn
      | inside below =>
        have less := inside content fillsInside noneInside n _ hn below
        have kept := less.inside lists encloses curly paired closes noneShell fills ⟨noneLater, rfl⟩
        rw [List.map_cons, strip_mk, List.map_append, List.map_singleton, strip_mk]
        exact kept
      | later h' => cases h'
  | later deletes =>
    rw [split] at fills ⊢
    refine (h rest fills.append noneLater n _ hn deletes).past (fun us next => ?_) ne closed
      (by rw [last]; rintro _ ⟨⟩; rw [closes]; rfl) noneHere
    rw [← split]
    exact leads us next

end

end Grammar

end Stylesheet
