import Mathlib.Data.List.Perm.Basic
import Stylesheet.Proofs.Patch.Resolve
import Stylesheet.Proofs.Patch.Splice

/-!
# Plans

Planning has three outcomes. The first edit whose target is no node's number is reported; if there
is none, the edits resolve, and they are planned exactly if any two of the replacements are
compatible. The plan then makes the splice of the text, and depends on the replacements but not on
their order.
-/

namespace Stylesheet

open Replacement PatchStep

/-- The plan makes the splice of a text with replacements, and its steps account for the whole
text. -/
structure PatchPlan.Makes (text : String) (rs : List Replacement) (plan : PatchPlan) : Prop where
  result : splice? text 0 rs = some plan.result
  replays : replay text plan.steps = .ok plan.result
  forward : ∀ s ∈ slices plan.steps, s.start ≤ s.stop
  disjoint : (slices plan.steps).Pairwise fun s t => s.stop ≤ t.start
  inserts : InsertsFollow 0 plan.steps
  /-- Each byte of the text is either copied once or replaced once. -/
  share : ∀ x, (slices plan.steps ++ rs.map (·.range)).countP (·.covers x) =
    if x < text.utf8ByteSize then 1 else 0

section

variable {text : String} {d : Document} {edits others : List Edit} {rs : List Replacement}

/-- The plan for replacements that follow one another. -/
theorem exists_makes (h : InOrder text 0 rs) :
    ∃ result, PatchPlan.Makes text rs ⟨stepsFrom text.utf8ByteSize 0 0 rs, result⟩ := by
  have edge : (⟨0⟩ : String.Pos.Raw).IsValid text := (Text.stands_zero text).isValid
  obtain ⟨spliced, result, stop, replays⟩ := exists_splice "" edge (Nat.le_refl 0) h
  obtain ⟨bounds, disjoint⟩ := slices_stepsFrom text.utf8ByteSize 0 h
  refine ⟨spliced, result, ?_, fun s hs => (bounds s hs).2, disjoint,
    insertsFollow_stepsFrom _ _ _ _, ?_⟩
  · rw [String.empty_append] at replays
    rw [replay, replays]
    rfl
  · intro x
    rw [countP_covers 0 x (Nat.zero_le _) h]
    simp

/-! ### Outcomes -/

/-- The first edit whose target is no node's number is reported. -/
theorem planEdits_eq_error_of_target {front back : List Edit} {e : Edit}
    (read : d.IsReadFrom text) (before : ∀ x ∈ front, x.Targets d.root)
    (h : ¬ e.Targets d.root) :
    planEdits text (front ++ e :: back) = .error (.planning e.targetFault e.target) := by
  have failed : (front ++ e :: back).mapM (resolve d.root) =
      .error (.planning e.targetFault e.target) := by
    refine mapM_eq_error ?_ (resolve_eq_error h)
    intro x hx
    obtain ⟨r, hr, -, -⟩ := exists_resolve read.nested (before x hx)
    exact ⟨r, hr⟩
  simp [planEdits, read.read, failed, bind, Except.bind]

/-- Once edits have resolved, only the order of their ranges counts. -/
theorem planEdits_eq (nonempty : edits ≠ []) (read : d.IsReadFrom text)
    (resolved : edits.mapM (resolve d.root) = .ok rs) :
    planEdits text edits = (do
      let ordered := rs.mergeSort le
      checkFrom text.utf8ByteSize 0 none ordered
      let steps := stepsFrom text.utf8ByteSize 0 0 ordered
      .ok ⟨steps, ← replay text steps⟩) := by
  rw [planEdits, if_neg (by simpa using nonempty), read.read]
  simp only [bind, Except.bind, resolved]

theorem exists_resolveAll (read : d.IsReadFrom text) (targets : ∀ e ∈ edits, e.Targets d.root) :
    ∃ rs, edits.mapM (resolve d.root) = .ok rs := by
  induction edits with
  | nil => exact ⟨[], rfl⟩
  | cons e edits ih =>
    obtain ⟨here, rest⟩ := List.forall_mem_cons.mp targets
    obtain ⟨r, hr, -, -⟩ := exists_resolve read.nested here
    obtain ⟨rs, hrs⟩ := ih rest
    exact ⟨r :: rs, by rw [List.mapM_cons, hr, hrs]; rfl⟩

theorem resolves_of_resolveAll (read : d.IsReadFrom text)
    (h : edits.mapM (resolve d.root) = .ok rs) : List.Forall₂ (Edit.Resolves d.root) edits rs :=
  (mapM_eq_ok_iff.mp h).imp fun _ _ hr => (resolve_eq_ok read.nested hr).2.1

theorem liesIn_of_resolveAll (read : d.IsReadFrom text)
    (h : edits.mapM (resolve d.root) = .ok rs) : ∀ r ∈ rs, r.range.LiesIn text := by
  have each := mapM_eq_ok_iff.mp h
  clear h
  induction each with
  | nil => simp
  | cons hr _ ih => exact List.forall_mem_cons.mpr ⟨(resolve_eq_ok read.nested hr).2.2, ih⟩

/-- Replacements of which any two are compatible are planned. -/
theorem planEdits_eq_ok (nonempty : edits ≠ []) (read : d.IsReadFrom text)
    (resolved : edits.mapM (resolve d.root) = .ok rs) (compatible : rs.Pairwise Compatible) :
    ∃ plan, planEdits text edits = .ok plan ∧ plan.Makes text (rs.mergeSort le) := by
  have lies := liesIn_of_resolveAll read resolved
  have checked := (checkFrom_sorted_iff fun r hr => Node.fits_of_liesIn (lies r hr)).mpr compatible
  have order := inOrder_of_checkFrom
    (fun r hr => lies r ((List.mergeSort_perm rs le).mem_iff.mp hr)) checked
  obtain ⟨result, makes⟩ := exists_makes order
  refine ⟨_, ?_, makes⟩
  rw [planEdits_eq nonempty read resolved]
  simp only [checked, bind, Except.bind]
  rw [makes.replays]

/-- Otherwise the edits overlap. -/
theorem planEdits_eq_error_of_overlap (nonempty : edits ≠ []) (read : d.IsReadFrom text)
    (resolved : edits.mapM (resolve d.root) = .ok rs) (h : ¬ rs.Pairwise Compatible) :
    ∃ fault target, planEdits text edits = .error (.planning fault target) ∧
      fault.code = "OVERLAPPING_EDITS" := by
  have lies := liesIn_of_resolveAll read resolved
  have checks := checkFrom_sorted_iff fun r hr => Node.fits_of_liesIn (lies r hr)
  cases checked : checkFrom text.utf8ByteSize 0 none (rs.mergeSort le) with
  | ok done => exact absurd (checks.mp checked) h
  | error e =>
    obtain ⟨fault, r, -, rfl, code⟩ := checkFrom_eq_error checked
    refine ⟨fault, r.target, ?_, code⟩
    rw [planEdits_eq nonempty read resolved]
    simp only [checked, bind, Except.bind]

/-- Edits that were planned resolve to replacements of which any two are compatible. -/
theorem resolveAll_of_planEdits {plan : PatchPlan} (nonempty : edits ≠ []) (read : d.IsReadFrom text)
    (h : planEdits text edits = .ok plan) :
    ∃ rs, edits.mapM (resolve d.root) = .ok rs ∧ rs.Pairwise Compatible := by
  obtain targets | ⟨front, e, back, rfl, before, bad⟩ := Edit.forall_targets_or_first d.root edits
  · obtain ⟨rs, resolved⟩ := exists_resolveAll read targets
    refine ⟨rs, resolved, ?_⟩
    by_contra overlap
    obtain ⟨fault, target, failed, -⟩ := planEdits_eq_error_of_overlap nonempty read resolved overlap
    rw [failed] at h
    cases h
  · rw [planEdits_eq_error_of_target read before bad] at h
    cases h

/-- Planning fails for its edits only. -/
theorem planning_of_planEdits_eq_error {e : PatchFailure} (h : planEdits text edits = .error e) :
    ∃ fault target, e = .planning fault target ∧ fault ≠ .spanMissing ∧ fault ≠ .notFromInput := by
  obtain ⟨d, read⟩ := Document.exists_isReadFrom text
  by_cases nonempty : edits = []
  · subst nonempty
    cases h
  obtain targets | ⟨front, x, back, rfl, before, bad⟩ := Edit.forall_targets_or_first d.root edits
  · obtain ⟨rs, resolved⟩ := exists_resolveAll read targets
    by_cases compatible : rs.Pairwise Compatible
    · obtain ⟨plan, planned, -⟩ := planEdits_eq_ok nonempty read resolved compatible
      rw [planned] at h
      cases h
    · obtain ⟨fault, target, failed, code⟩ :=
        planEdits_eq_error_of_overlap nonempty read resolved compatible
      rw [failed] at h
      refine ⟨fault, target, (Except.error.inj h).symm, ?_, ?_⟩
      · rintro rfl
        exact absurd code (by decide)
      · rintro rfl
        exact absurd code (by decide)
  · rw [planEdits_eq_error_of_target read before bad] at h
    refine ⟨x.targetFault, x.target, (Except.error.inj h).symm, ?_⟩
    rw [Edit.targetFault]
    split
    · decide
    · decide

/-- Edits that were planned can be planned in any order, to the same end. -/
theorem planEdits_perm {plan : PatchPlan} (perm : others.Perm edits)
    (h : planEdits text edits = .ok plan) : planEdits text others = .ok plan := by
  by_cases nonempty : edits = []
  · subst nonempty
    rwa [List.perm_nil.mp perm]
  obtain ⟨d, read⟩ := Document.exists_isReadFrom text
  obtain ⟨rs, resolved, compatible⟩ := resolveAll_of_planEdits nonempty read h
  obtain ⟨ss, each, permuted⟩ := List.perm_comp_forall₂ perm (mapM_eq_ok_iff.mp resolved)
  have sorted : ss.mergeSort le = rs.mergeSort le :=
    sorted_eq_of_perm compatible (fun r hr => (liesIn_of_resolveAll read resolved r hr).le) permuted
  have other : others ≠ [] := fun empty => nonempty (List.nil_perm.mp (empty ▸ perm))
  rw [planEdits_eq nonempty read resolved, ← sorted] at h
  rw [planEdits_eq other read (mapM_eq_ok_iff.mpr each), h]

end

/-! ### What planning does -/

/-- Planning fails for its edits only, and what it makes of them is the splice: sorted by their
ranges, their texts take the place of the ranges. The slices and the ranges share the text. -/
theorem planEdits_makes (text : String) (edits : List Edit) :
    (∀ e, planEdits text edits = .error e → ∃ fault target, e = .planning fault target) ∧
      ∀ plan, edits ≠ [] → planEdits text edits = .ok plan →
        ∃ d resolved ordered, parse text { captureSpans := true } = .ok d ∧
          List.Forall₂ (Edit.Resolves d.root) edits resolved ∧ ordered.Perm resolved ∧
          ordered.Pairwise (fun a b => a.le b) ∧ plan.Makes text ordered := by
  constructor
  · intro e h
    obtain ⟨fault, target, he, -⟩ := planning_of_planEdits_eq_error h
    exact ⟨fault, target, he⟩
  · intro plan nonempty h
    obtain ⟨d, read⟩ := Document.exists_isReadFrom text
    obtain ⟨rs, resolved, compatible⟩ := resolveAll_of_planEdits nonempty read h
    obtain ⟨plan', planned, makes⟩ := planEdits_eq_ok nonempty read resolved compatible
    obtain rfl : plan' = plan := Except.ok.inj (planned.symm.trans h)
    exact ⟨d, rs, rs.mergeSort le, read.parsed, resolves_of_resolveAll read resolved,
      List.mergeSort_perm rs le, pairwise_sorted rs, makes⟩

/-- Planning succeeds for compatible edits, whatever their order. A target that is no node's number
is reported first. Otherwise each edit says one thing, and edits are planned exactly if any two of
them are compatible. Nodes without a place are never met. -/
theorem planEdits_compatible (text : String) :
    ∃ d, parse text { captureSpans := true } = .ok d ∧
      (∀ front e back, (∀ x ∈ front, Edit.Targets d.root x) → ¬ e.Targets d.root →
        planEdits text (front ++ e :: back) =
          .error (.planning (if e.target = 0 then .invalidTarget else .nodeNotFound) e.target)) ∧
      (∀ edits : List Edit, edits ≠ [] → (∀ e ∈ edits, e.Targets d.root) →
        ∃ rs, List.Forall₂ (Edit.Resolves d.root) edits rs ∧
          (d.root.size < UInt32.size →
            ∀ ss, List.Forall₂ (Edit.Resolves d.root) edits ss → ss = rs) ∧
          ((∃ plan, planEdits text edits = .ok plan) ↔ rs.Pairwise Compatible) ∧
          (¬ rs.Pairwise Compatible → ∃ fault target,
            planEdits text edits = .error (.planning fault target) ∧
              fault.code = "OVERLAPPING_EDITS")) ∧
      (∀ edits others plan, others.Perm edits → planEdits text edits = .ok plan →
        planEdits text others = .ok plan) ∧
      ∀ edits fault target, planEdits text edits = .error (.planning fault target) →
        fault ≠ .spanMissing ∧ fault ≠ .notFromInput := by
  obtain ⟨d, read⟩ := Document.exists_isReadFrom text
  refine ⟨d, read.parsed, ?_, ?_, fun edits others plan => planEdits_perm, ?_⟩
  · intro front e back before bad
    exact planEdits_eq_error_of_target read before bad
  · intro edits nonempty targets
    obtain ⟨rs, resolved⟩ := exists_resolveAll read targets
    have resolves := resolves_of_resolveAll read resolved
    refine ⟨rs, resolves, ?_, ⟨?_, ?_⟩, planEdits_eq_error_of_overlap nonempty read resolved⟩
    · intro small ss hss
      exact (resolves_rightUnique read small).forall₂ hss resolves
    · rintro ⟨plan, planned⟩
      obtain ⟨rs', resolved', compatible⟩ := resolveAll_of_planEdits nonempty read planned
      rw [resolved, Except.ok.injEq] at resolved'
      rwa [resolved']
    · intro compatible
      obtain ⟨plan, planned, -⟩ := planEdits_eq_ok nonempty read resolved compatible
      exact ⟨plan, planned⟩
  · intro edits fault target h
    obtain ⟨fault', target', he, hspan, hinput⟩ := planning_of_planEdits_eq_error h
    obtain ⟨rfl, -⟩ := PatchFailure.planning.inj he
    exact ⟨hspan, hinput⟩

end Stylesheet
