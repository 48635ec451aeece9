import Stylesheet.Proofs.Run

/-!
# Placed trees

A tree is placed in a text if every node spans a stretch that can be cut out of the text, and its
children lie inside that stretch one after the other. Lists of trees are placed between two offsets,
so that the lists of neighbouring scopes can be joined.
-/

namespace Stylesheet

/-- A span that can be cut out of a text. -/
structure Span.LiesIn (source : String) (s : Span) : Prop where
  le : s.start ≤ s.stop
  edge_start : (⟨s.start⟩ : String.Pos.Raw).IsValid source
  edge_stop : (⟨s.stop⟩ : String.Pos.Raw).IsValid source

theorem Scope.LiesIn.span {source : String} {s : Scope} (h : s.LiesIn source) :
    s.span.LiesIn source :=
  ⟨h.start_le_stop, h.edge_start, h.edge_stop⟩

theorem Scope.LiesIn.token_span {source : String} {s : Scope} {t : Token} (h : s.LiesIn source)
    (ht : t ∈ s.tokens) : t.span.LiesIn source := by
  obtain ⟨-, -, hstart, hstop⟩ := Token.Run.mem h ht
  exact ⟨t.start_le_stop, hstart, hstop⟩

namespace Located

mutual

/-- The node spans a part of the text, and its children lie there one after the other. -/
def Placed (source : String) : Located → Prop
  | ⟨_, _, span, children⟩ => span.LiesIn source ∧ PlacedIn source span.start span.stop children

/-- Placed trees that lie between two offsets one after the other. -/
def PlacedIn (source : String) (lo hi : Nat) : List Located → Prop
  | [] => True
  | n :: ns =>
    lo ≤ n.note.start ∧ n.note.stop ≤ hi ∧ Placed source n ∧ PlacedIn source n.note.stop hi ns

end

variable {source : String} {lo mid hi lo' hi' : Nat} {n : Located} {ns ms : List Located}
variable {kind : NodeKind} {detail : Detail} {span : Span}

theorem placed_iff : Placed source n ↔
    n.note.LiesIn source ∧ PlacedIn source n.note.start n.note.stop n.children := by
  cases n
  rw [Placed]

theorem placedIn_nil : PlacedIn source lo hi [] := by
  rw [PlacedIn]
  trivial

theorem placedIn_cons : PlacedIn source lo hi (n :: ns) ↔
    lo ≤ n.note.start ∧ n.note.stop ≤ hi ∧ Placed source n ∧
      PlacedIn source n.note.stop hi ns := by
  rw [PlacedIn]

theorem Placed.liesIn (h : Placed source n) : n.note.LiesIn source := (placed_iff.mp h).1

theorem placedIn_singleton (h : Placed source n) (hlo : lo ≤ n.note.start)
    (hhi : n.note.stop ≤ hi) : PlacedIn source lo hi [n] :=
  placedIn_cons.mpr ⟨hlo, hhi, h, placedIn_nil⟩

theorem placed_leaf (h : span.LiesIn source) : Placed source (leaf kind detail span) :=
  placed_iff.mpr ⟨h, placedIn_nil⟩

theorem placed_raw {s : Scope} (h : s.LiesIn source) : Placed source (raw s) := placed_leaf h.span

theorem PlacedIn.mono (h : PlacedIn source lo hi ns) (hlo : lo' ≤ lo) (hhi : hi ≤ hi') :
    PlacedIn source lo' hi' ns := by
  induction ns generalizing lo lo' with
  | nil => exact placedIn_nil
  | cons n ns ih =>
    obtain ⟨hstart, hstop, hn, hns⟩ := placedIn_cons.mp h
    exact placedIn_cons.mpr ⟨by omega, by omega, hn, ih hns (Nat.le_refl _)⟩

/-- Lists that are placed one after the other are placed together. -/
theorem PlacedIn.append (h : PlacedIn source lo mid ns) (h' : PlacedIn source mid hi ms)
    (hlo : lo ≤ mid) (hhi : mid ≤ hi) : PlacedIn source lo hi (ns ++ ms) := by
  induction ns generalizing lo with
  | nil => exact h'.mono hlo (Nat.le_refl _)
  | cons n ns ih =>
    obtain ⟨hstart, hstop, hn, hns⟩ := placedIn_cons.mp h
    exact placedIn_cons.mpr ⟨hstart, by omega, hn, ih hns hstop⟩

/-- Nodes may be left out. -/
theorem PlacedIn.sublist (h : PlacedIn source lo hi ns) (hs : ms.Sublist ns) :
    PlacedIn source lo hi ms := by
  induction hs generalizing lo with
  | slnil => exact placedIn_nil
  | cons n _ ih =>
    obtain ⟨hstart, hstop, hn, hns⟩ := placedIn_cons.mp h
    have := hn.liesIn.le
    exact ih (hns.mono (by omega) (Nat.le_refl _))
  | cons_cons n _ ih =>
    obtain ⟨hstart, hstop, hn, hns⟩ := placedIn_cons.mp h
    exact placedIn_cons.mpr ⟨hstart, hstop, hn, ih hns⟩

end Located

end Stylesheet
