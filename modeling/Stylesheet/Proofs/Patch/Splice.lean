import Stylesheet.Proofs.Patch.Check
import Stylesheet.Proofs.Placement.Node

/-!
# Splices

Replacements that follow one another in a text make a splice of it: their texts take the place of
their ranges, and what lies between the ranges is kept. The steps planned for them replay to the
splice. Every slice starts where the text has been dealt with, and every insertion is where the last
slice ended, which is why a slice of no bytes stands between adjacent replacements.
-/

namespace Stylesheet

/-- The span holds byte `x`. -/
def Span.covers (s : Span) (x : Nat) : Bool := s.start ≤ x && x < s.stop

theorem Span.covers_iff {s : Span} {x : Nat} : s.covers x = true ↔ s.start ≤ x ∧ x < s.stop := by
  simp [covers]

namespace PatchStep

/-- The part of the old text that a step copies. -/
def span? : PatchStep → Option Span
  | slice span => some span
  | insert _ _ => none

/-- The parts of the old text that steps copy. -/
def slices (steps : List PatchStep) : List Span := steps.filterMap span?

/-- Every insertion is where the slice before it ended. The slice before all steps ended at
`copied`. -/
def InsertsFollow (copied : Nat) : List PatchStep → Prop
  | [] => True
  | slice span :: steps => InsertsFollow span.stop steps
  | insert offset _ :: steps => offset = copied ∧ InsertsFollow copied steps

@[simp] theorem slices_nil : slices [] = [] := rfl

@[simp] theorem slices_slice (span : Span) (steps : List PatchStep) :
    slices (slice span :: steps) = span :: slices steps := rfl

@[simp] theorem slices_insert (offset : Nat) (added : String) (steps : List PatchStep) :
    slices (insert offset added :: steps) = slices steps := rfl

@[simp] theorem slices_append (steps steps' : List PatchStep) :
    slices (steps ++ steps') = slices steps ++ slices steps' :=
  List.filterMap_append

section

variable {text out copied added : String} {cursor offset : Nat} {span : Span}

theorem apply_slice (behind : cursor ≤ span.start)
    (h : Text.slice? text span.start span.stop = some copied) :
    apply text ⟨cursor, out⟩ (slice span) = .ok ⟨span.stop, out ++ copied⟩ := by
  simp [apply, h, Nat.not_lt.mpr behind]

theorem apply_insert (within : offset ≤ text.utf8ByteSize) :
    apply text ⟨offset, out⟩ (insert offset added) = .ok ⟨offset, out ++ added⟩ := by
  simp [apply, within]

end

end PatchStep

namespace Replacement

open PatchStep

/-- The text from `cursor` on with replacements made in it. What lies between them is kept. -/
def splice? (text : String) (cursor : Nat) : List Replacement → Option String
  | [] => Text.slice? text cursor text.utf8ByteSize
  | r :: rs => do
    let kept ← Text.slice? text cursor r.range.start
    let rest ← splice? text r.range.stop rs
    some (kept ++ r.text ++ rest)

/-- Replacements that follow one another in a text from `cursor` on. -/
def InOrder (text : String) (cursor : Nat) : List Replacement → Prop
  | [] => True
  | r :: rs => cursor ≤ r.range.start ∧ r.range.LiesIn text ∧ InOrder text r.range.stop rs

/-- Replacements that pass the check follow one another. -/
theorem inOrder_of_checkFrom {text : String} {size reached : Nat} {inserted : Option Nat}
    {rs : List Replacement} (lies : ∀ r ∈ rs, r.range.LiesIn text)
    (h : checkFrom size reached inserted rs = .ok ()) : InOrder text reached rs := by
  induction rs generalizing reached inserted with
  | nil => trivial
  | cons r rs ih =>
    obtain ⟨liesHere, liesRest⟩ := List.forall_mem_cons.mp lies
    obtain ⟨-, ahead, -, rest⟩ := checkFrom_cons_eq_ok_iff.mp h
    exact ⟨ahead, liesHere, ih liesRest rest⟩

section

variable {text : String} {cursor copied offset : Nat} {rs : List Replacement}

/-! ### Replaying -/

theorem slice?_self (edge : (⟨cursor⟩ : String.Pos.Raw).IsValid text) :
    Text.slice? text cursor cursor = some "" := by
  have := (Text.stands_nil_iff.mpr edge).slice?
  rwa [Text.width_nil, Nat.add_zero] at this

/-- After the copy the replay is at the offset. -/
theorem foldlM_copyTo {kept : String} (out : String)
    (edge : (⟨cursor⟩ : String.Pos.Raw).IsValid text) (behind : copied ≤ cursor)
    (le : cursor ≤ offset) (h : Text.slice? text cursor offset = some kept) :
    (copyTo cursor copied offset).foldlM (apply text) ⟨copied, out⟩ =
      .ok ⟨offset, out ++ kept⟩ := by
  rw [copyTo]
  split
  · rw [List.foldlM_cons, apply_slice behind h]
    rfl
  · rename_i same
    obtain ⟨rfl, rfl⟩ : cursor = offset ∧ copied = offset := by omega
    rw [slice?_self edge, Option.some.injEq] at h
    subst h
    simp [pure, Except.pure]

/-- The steps for replacements that follow one another replay to the splice. -/
theorem exists_splice (out : String) (edge : (⟨cursor⟩ : String.Pos.Raw).IsValid text)
    (behind : copied ≤ cursor) (h : InOrder text cursor rs) :
    ∃ spliced, splice? text cursor rs = some spliced ∧
      ∃ stop, (stepsFrom text.utf8ByteSize cursor copied rs).foldlM (apply text) ⟨copied, out⟩ =
        .ok ⟨stop, out ++ spliced⟩ := by
  induction rs generalizing cursor copied out with
  | nil =>
    have le := edge.le_utf8ByteSize
    have edge' := (Text.stands_zero text).isValid_right
    rw [Text.width_toList, Nat.zero_add] at edge'
    obtain ⟨kept, hkept⟩ := Text.exists_slice? edge edge' le
    refine ⟨kept, hkept, ?_⟩
    rw [stepsFrom]
    split
    · exact ⟨_, by rw [List.foldlM_cons, apply_slice behind hkept]; rfl⟩
    · rename_i done
      obtain rfl : cursor = text.utf8ByteSize := Nat.le_antisymm le (Nat.not_lt.mp done)
      rw [slice?_self edge, Option.some.injEq] at hkept
      subst hkept
      exact ⟨copied, by simp [pure, Except.pure]⟩
  | cons r rs ih =>
    obtain ⟨ahead, lies, rest⟩ := h
    obtain ⟨kept, hkept⟩ := Text.exists_slice? edge lies.edge_start ahead
    obtain ⟨spliced, hspliced, stop, hstop⟩ :=
      ih (out ++ kept ++ r.text) lies.edge_stop lies.le rest
    refine ⟨kept ++ r.text ++ spliced, by simp [splice?, hkept, hspliced], stop, ?_⟩
    rw [stepsFrom, List.foldlM_append, foldlM_copyTo out edge behind ahead hkept]
    simp only [bind, Except.bind]
    rw [List.foldlM_cons, apply_insert lies.edge_start.le_utf8ByteSize]
    simp only [bind, Except.bind]
    rw [hstop]
    simp only [String.append_assoc]

/-! ### Steps -/

theorem slices_copyTo : slices (copyTo cursor copied offset) =
    if cursor < offset ∨ copied ≠ offset then [⟨cursor, offset⟩] else [] := by
  rw [copyTo]
  split
  · rfl
  · rfl

/-- A slice starts at or behind the cursor, and the slices follow one another. -/
theorem slices_stepsFrom (size copied : Nat) (h : InOrder text cursor rs) :
    (∀ s ∈ slices (stepsFrom size cursor copied rs), cursor ≤ s.start ∧ s.start ≤ s.stop) ∧
      (slices (stepsFrom size cursor copied rs)).Pairwise fun s t => s.stop ≤ t.start := by
  induction rs generalizing cursor copied with
  | nil =>
    rw [stepsFrom]
    split
    · rename_i more
      simp [Nat.le_of_lt more]
    · simp
  | cons r rs ih =>
    obtain ⟨ahead, lies, rest⟩ := h
    obtain ⟨bounds, order⟩ := ih r.range.start rest
    have hle := lies.le
    rw [stepsFrom, slices_append, slices_insert, slices_copyTo]
    split
    · rw [List.singleton_append, List.forall_mem_cons, List.pairwise_cons]
      refine ⟨⟨⟨Nat.le_refl _, ahead⟩, ?_⟩, ?_, order⟩
      · intro s hs
        obtain ⟨hstart, hstop⟩ := bounds s hs
        exact ⟨by omega, hstop⟩
      · intro s hs
        exact Nat.le_trans hle (bounds s hs).1
    · rw [List.nil_append]
      refine ⟨?_, order⟩
      intro s hs
      obtain ⟨hstart, hstop⟩ := bounds s hs
      exact ⟨by omega, hstop⟩

theorem insertsFollow_copyTo {steps : List PatchStep} (h : InsertsFollow offset steps) :
    InsertsFollow copied (copyTo cursor copied offset ++ steps) := by
  rw [copyTo]
  split
  · exact h
  · obtain rfl : copied = offset := by omega
    exact h

theorem insertsFollow_stepsFrom (size cursor copied : Nat) (rs : List Replacement) :
    InsertsFollow copied (stepsFrom size cursor copied rs) := by
  induction rs generalizing cursor copied with
  | nil =>
    rw [stepsFrom]
    split
    · trivial
    · trivial
  | cons r rs ih => exact insertsFollow_copyTo ⟨rfl, ih r.range.stop r.range.start⟩

/-- Where two ranges meet, a slice of no bytes takes the replay to the second one. -/
example : stepsFrom 4 0 0 [⟨1, ⟨0, 2⟩, "x"⟩, ⟨2, ⟨2, 3⟩, "y"⟩] =
    [.insert 0 "x", .slice ⟨2, 2⟩, .insert 2 "y", .slice ⟨3, 4⟩] := by
  decide

/-- Bytes between `a` and `c` are those before and those from `b` on. -/
theorem ite_between {a b c : Nat} (x : Nat) (h : a ≤ b) (h' : b ≤ c) :
    ((if a ≤ x ∧ x < b then 1 else 0) + if b ≤ x ∧ x < c then 1 else 0) =
      if a ≤ x ∧ x < c then 1 else 0 := by
  grind

/-- Slices and replaced ranges share the text among them: every byte from `cursor` on is in exactly
one of them, and no other byte is in any. -/
theorem countP_covers (copied x : Nat) (within : cursor ≤ text.utf8ByteSize)
    (h : InOrder text cursor rs) :
    (slices (stepsFrom text.utf8ByteSize cursor copied rs) ++ rs.map (·.range)).countP
      (·.covers x) = if cursor ≤ x ∧ x < text.utf8ByteSize then 1 else 0 := by
  induction rs generalizing cursor copied with
  | nil =>
    rw [stepsFrom]
    split
    · simp [Span.covers, List.countP_cons]
    · have : ¬ (cursor ≤ x ∧ x < text.utf8ByteSize) := by omega
      simp [this]
  | cons r rs ih =>
    obtain ⟨ahead, lies, rest⟩ := h
    have count := ih r.range.start lies.edge_stop.le_utf8ByteSize rest
    have copy : (slices (copyTo cursor copied r.range.start)).countP (·.covers x) =
        if cursor ≤ x ∧ x < r.range.start then 1 else 0 := by
      rw [slices_copyTo]
      split
      · simp [Span.covers, List.countP_cons]
      · have : ¬ (cursor ≤ x ∧ x < r.range.start) := by omega
        simp [this]
    have hle := lies.le
    have hsize : r.range.stop ≤ text.utf8ByteSize := lies.edge_stop.le_utf8ByteSize
    rw [List.countP_append] at count
    dsimp only at count
    rw [stepsFrom, slices_append, slices_insert, List.map_cons, List.countP_append,
      List.countP_append, List.countP_cons, copy]
    simp only [Span.covers_iff]
    have front := ite_between x ahead (Nat.le_trans hle hsize)
    have back := ite_between x hle hsize
    omega

end

end Replacement

end Stylesheet
