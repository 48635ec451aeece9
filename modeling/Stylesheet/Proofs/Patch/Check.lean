import Mathlib.Data.List.Pairwise
import Stylesheet.Patch
import Stylesheet.Proofs.Result

/-!
# Checking replacements

The check goes through ordered replacements once and compares each with what came before. It accepts
those of which any two are compatible. Such replacements have one order only, so it does not matter
in which order they were given.
-/

namespace Stylesheet

namespace Replacement

/-- Two replacements can both be made: their ranges do not overlap, and they do not put new text in
at one offset. -/
def Compatible (a b : Replacement) : Prop :=
  (a.range.stop ≤ b.range.start ∨ b.range.stop ≤ a.range.start) ∧
    ¬ (a.range.isEmpty ∧ b.range.isEmpty ∧ a.range.start = b.range.start)

instance (a b : Replacement) : Decidable (Compatible a b) := inferInstanceAs (Decidable (_ ∧ _))

instance : Std.Symm Compatible where
  symm _ _ h := ⟨h.1.symm, fun h' => h.2 ⟨h'.2.1, h'.1, h'.2.2.symm⟩⟩

section

variable {a b r : Replacement} {rs ss : List Replacement} {size reached : Nat}
variable {inserted : Option Nat}

theorem le_iff : a.le b = true ↔ a.range.start < b.range.start ∨
    a.range.start = b.range.start ∧ a.range.stop ≤ b.range.stop := by
  simp [le]

theorem le_trans (a b c : Replacement) (h : a.le b = true) (h' : b.le c = true) :
    a.le c = true := by
  rw [le_iff] at *
  omega

theorem le_total (a b : Replacement) : (a.le b || b.le a) = true := by
  rw [Bool.or_eq_true, le_iff, le_iff]
  omega

theorem pairwise_sorted (rs : List Replacement) : (rs.mergeSort le).Pairwise fun a b => a.le b :=
  List.pairwise_mergeSort le_trans le_total rs

/-- What one step of the check asks for. -/
theorem checkFrom_cons_eq_ok_iff : checkFrom size reached inserted (r :: rs) = .ok () ↔
    r.range.fits size ∧ reached ≤ r.range.start ∧
      ¬ (r.range.isEmpty ∧ inserted = some r.range.start) ∧
      checkFrom size r.range.stop (if r.range.isEmpty then some r.range.start else none) rs =
        .ok () := by
  rw [checkFrom]
  by_cases fits : r.range.fits size = true
  · by_cases behind : r.range.start < reached
    · simp [fits, behind, Nat.not_le.mpr behind]
    · have ahead : reached ≤ r.range.start := Nat.not_lt.mp behind
      have reach : max reached r.range.stop = r.range.stop :=
        Nat.max_eq_right (Nat.le_trans ahead (Span.fits_iff.mp fits).1)
      by_cases shared : r.range.isEmpty = true ∧ inserted = some r.range.start
      · simp [fits, behind, shared]
      · simp [fits, behind, ahead, reach, shared]
  · simp [fits]

/-- The check fails with one code, for one of the replacements. -/
theorem checkFrom_eq_error {e : PatchFailure} (h : checkFrom size reached inserted rs = .error e) :
    ∃ fault, ∃ r ∈ rs, e = .planning fault r.target ∧ fault.code = "OVERLAPPING_EDITS" := by
  induction rs generalizing reached inserted with
  | nil => cases h
  | cons r rs ih =>
    rw [checkFrom] at h
    split at h
    · exact ⟨.invalidBounds, r, List.mem_cons_self, (Except.error.inj h).symm, rfl⟩
    · split at h
      · exact ⟨.overlapping, r, List.mem_cons_self, (Except.error.inj h).symm, rfl⟩
      · split at h
        · exact ⟨.sharedOffset, r, List.mem_cons_self, (Except.error.inj h).symm, rfl⟩
        · obtain ⟨fault, r', hr', he, hcode⟩ := ih h
          exact ⟨fault, r', List.mem_cons_of_mem r hr', he, hcode⟩

/-- Ordered replacements pass if they lie behind what came before and any two are compatible. The
offset of the insertion right before is not beyond what has been reached, and so it is enough to
remember one. -/
theorem checkFrom_eq_ok_iff (fits : ∀ r ∈ rs, r.range.fits size)
    (sorted : rs.Pairwise fun a b => a.le b)
    (within : ∀ o, inserted = some o → o ≤ reached) :
    checkFrom size reached inserted rs = .ok () ↔
      (∀ r ∈ rs, reached ≤ r.range.start ∧
        ¬ (r.range.isEmpty ∧ inserted = some r.range.start)) ∧ rs.Pairwise Compatible := by
  induction rs generalizing reached inserted with
  | nil => simp [checkFrom]
  | cons r rs ih =>
    obtain ⟨fitsHere, fitsRest⟩ := List.forall_mem_cons.mp fits
    obtain ⟨first, sortedRest⟩ := List.pairwise_cons.mp sorted
    have hr := (Span.fits_iff.mp fitsHere).1
    have next (o : Nat) (ho : (if r.range.isEmpty then some r.range.start else none) = some o) :
        o ≤ r.range.stop := by
      split at ho
      · cases ho
        exact hr
      · cases ho
    rw [checkFrom_cons_eq_ok_iff, ih fitsRest sortedRest next, List.forall_mem_cons,
      List.pairwise_cons]
    constructor
    · rintro ⟨-, reach, apart, behind, pairs⟩
      refine ⟨⟨⟨reach, apart⟩, ?_⟩, ?_, pairs⟩
      · intro q hq
        obtain ⟨hstart, hshared⟩ := behind q hq
        refine ⟨by omega, ?_⟩
        rintro ⟨hempty, ho⟩
        -- An earlier insertion at this offset leaves no room for `r` but the offset itself.
        have := within _ ho
        have same : r.range.start = q.range.start := by omega
        have empty : r.range.isEmpty := Span.isEmpty_iff.mpr (by omega)
        exact hshared ⟨hempty, by rw [if_pos empty, same]⟩
      · intro q hq
        obtain ⟨hstart, hshared⟩ := behind q hq
        refine ⟨.inl hstart, ?_⟩
        rintro ⟨hr', hq', same⟩
        exact hshared ⟨hq', by rw [if_pos hr', same]⟩
    · rintro ⟨⟨⟨reach, apart⟩, -⟩, compatible, pairs⟩
      refine ⟨fitsHere, reach, apart, ?_, pairs⟩
      intro q hq
      obtain ⟨disjoint, distinct⟩ := compatible q hq
      have hle := le_iff.mp (first q hq)
      have hq' := (Span.fits_iff.mp (fitsRest q hq)).1
      refine ⟨by omega, ?_⟩
      rintro ⟨hempty, ho⟩
      split at ho
      · rename_i empty
        exact distinct ⟨empty, hempty, Option.some.inj ho⟩
      · cases ho

/-- Sorted replacements pass the check if any two of them are compatible. -/
theorem checkFrom_sorted_iff (fits : ∀ r ∈ rs, r.range.fits size) :
    checkFrom size 0 none (rs.mergeSort le) = .ok () ↔ rs.Pairwise Compatible := by
  have perm := List.mergeSort_perm rs le
  rw [checkFrom_eq_ok_iff (fun r hr => fits r (perm.mem_iff.mp hr)) (pairwise_sorted rs) (by simp),
    perm.pairwise_iff symm]
  simp

/-- Compatible replacements are sorted in one way, however they were ordered. -/
theorem sorted_eq_of_perm (compatible : rs.Pairwise Compatible)
    (ordered : ∀ r ∈ rs, r.range.start ≤ r.range.stop) (perm : ss.Perm rs) :
    ss.mergeSort le = rs.mergeSort le := by
  have hrs := List.mergeSort_perm rs le
  have hss := (List.mergeSort_perm ss le).trans perm
  refine List.Perm.eq_of_pairwise ?_ (pairwise_sorted ss) (pairwise_sorted rs) (hss.trans hrs.symm)
  intro a b ha hb hab hba
  by_contra different
  have ha' := hss.mem_iff.mp ha
  obtain ⟨disjoint, distinct⟩ := compatible.forall ha' (hrs.mem_iff.mp hb) different
  have hle := ordered a ha'
  rw [le_iff] at hab hba
  exact distinct ⟨Span.isEmpty_iff.mpr (by omega), Span.isEmpty_iff.mpr (by omega), by omega⟩

end

end Replacement

end Stylesheet
