import Stylesheet.Text.Case
import Stylesheet.Text.Class
import Stylesheet.Text.Lowercase

/-!
# Two ways to lower a text

Texts are lowered by the rules of Unicode or in their ASCII letters alone. The first tells fewer
texts apart: what is equal up to the case of ASCII letters is also equal in lower case. The two are
the same on texts without capital letters beyond ASCII, and the Kelvin sign is the only character
beyond ASCII that becomes an ASCII letter.
-/

namespace Stylesheet.Text

/-- A character of ASCII. -/
def IsAscii (c : Char) : Prop := c.toNat < 0x80

instance : DecidablePred IsAscii := fun _ => inferInstanceAs (Decidable (_ < _))

/-! ### Characters -/

section

variable {c : Char}

theorem toNat_ofNat {n : Nat} (valid : n.isValidChar) : (Char.ofNat n).toNat = n := by
  rw [Char.ofNat, dif_pos valid]
  rfl

/-- What ASCII case does not change on ASCII letters, it does not change. -/
theorem eq_toLower {β : Type} (f : Char → β)
    (h : ∀ n < 26, f (Char.ofNat (n + 65)).toLower = f (Char.ofNat (n + 65))) (c : Char) :
    f c.toLower = f c := by
  by_cases capital : c.val ≥ 'A'.val ∧ c.val ≤ 'Z'.val
  · obtain ⟨n, small, code⟩ : ∃ n < 26, c.toNat = n + 65 := by
      have first : 65 ≤ c.toNat := capital.1
      have last : c.toNat ≤ 90 := capital.2
      exact ⟨c.toNat - 65, by omega, (Nat.sub_add_cancel first).symm⟩
    rw [← Char.ofNat_toNat c, code]
    exact h n small
  · have small : c.toLower = c := dif_neg capital
    rw [small]

/-- What is asked of a character when a text is lowered. -/
structure CaseTraits where
  cased : Bool
  ignorable : Bool
  ascii : Bool
  sigma : Bool
  lower : List Char
  deriving DecidableEq

def caseTraits (c : Char) : CaseTraits :=
  ⟨isCased c, isCaseIgnorable c, decide (IsAscii c), decide (c = 'Σ'), lowerChar c⟩

theorem caseTraits_toLower (c : Char) : caseTraits c.toLower = caseTraits c :=
  eq_toLower caseTraits (by decide +kernel) c

theorem isCased_toLower (c : Char) : isCased c.toLower = isCased c :=
  congrArg CaseTraits.cased (caseTraits_toLower c)

theorem isCaseIgnorable_toLower (c : Char) : isCaseIgnorable c.toLower = isCaseIgnorable c :=
  congrArg CaseTraits.ignorable (caseTraits_toLower c)

theorem isAscii_toLower_iff : IsAscii c.toLower ↔ IsAscii c :=
  decide_eq_decide.mp (congrArg CaseTraits.ascii (caseTraits_toLower c))

theorem toLower_eq_sigma (c : Char) : decide (c.toLower = 'Σ') = decide (c = 'Σ') :=
  congrArg CaseTraits.sigma (caseTraits_toLower c)

theorem lowerChar_of_isAscii (ascii : IsAscii c) : lowerChar c = [c.toLower] := if_pos ascii

theorem lowerChar_toLower (c : Char) : lowerChar c.toLower = lowerChar c :=
  congrArg CaseTraits.lower (caseTraits_toLower c)

end

/-! ### Texts that are equal in ASCII -/

theorem letterNext_map_toLower (cs : List Char) :
    letterNext (cs.map Char.toLower) = letterNext cs := by
  have passed : isCaseIgnorable ∘ Char.toLower = isCaseIgnorable :=
    funext isCaseIgnorable_toLower
  rw [letterNext, letterNext, List.dropWhile_map, passed, List.head?_map, Option.any_map]
  simp only [isCased_toLower]

theorem lowerFrom_map_toLower (before cs : List Char) :
    lowerFrom (before.map Char.toLower) (cs.map Char.toLower) = lowerFrom before cs := by
  induction cs generalizing before with
  | nil => rfl
  | cons c cs ih =>
    rw [List.map_cons, lowerFrom, lowerFrom, toLower_eq_sigma, letterNext_map_toLower,
      letterNext_map_toLower, lowerChar_toLower, ← List.map_cons, ih]

theorem lower_lowerAscii (s : String) : lower (lowerAscii s) = lower s := by
  rw [lower, lower, lowerAscii, String.toList_ofList]
  exact congrArg String.ofList (lowerFrom_map_toLower [] s.toList)

theorem lowerAscii_lowerAscii (s : String) : lowerAscii (lowerAscii s) = lowerAscii s := by
  have again : Char.toLower ∘ Char.toLower = Char.toLower :=
    funext (eq_toLower Char.toLower (by decide +kernel))
  rw [lowerAscii, lowerAscii, String.toList_ofList, List.map_map, again]

theorem sameName_comm {a b : String} : sameName a b = true ↔ sameName b a = true := by
  rw [sameName_iff, sameName_iff, eq_comm]

/-- Names that are equal up to the case of ASCII letters are equal in lower case. -/
theorem lower_eq_of_sameName {a b : String} (h : sameName a b = true) : lower a = lower b := by
  rw [← lower_lowerAscii a, sameName_iff.mp h, lower_lowerAscii]

/-! ### Texts without capital letters beyond ASCII -/

/-- Only ASCII letters have case in a text. -/
def FoldsAscii (cs : List Char) : Prop := ∀ c ∈ cs, lowerChar c = [c.toLower]

instance : DecidablePred FoldsAscii := fun cs =>
  List.decidableBAll (fun c => lowerChar c = [c.toLower]) cs

theorem foldsAscii_of_isAscii {cs : List Char} (ascii : ∀ c ∈ cs, IsAscii c) : FoldsAscii cs :=
  fun c hc => lowerChar_of_isAscii (ascii c hc)

theorem FoldsAscii.lowerFrom_eq {before cs : List Char} (h : FoldsAscii cs) :
    lowerFrom before cs = cs.map Char.toLower := by
  have sigma : 'Σ' ∉ cs := fun mem => absurd (h 'Σ' mem) (by decide +kernel)
  rw [lowerFrom_eq_flatMap sigma, List.map_eq_flatMap, List.flatMap_def, List.flatMap_def,
    List.map_congr_left h]

theorem FoldsAscii.lower_eq {s : String} (h : FoldsAscii s.toList) : lower s = lowerAscii s :=
  congrArg String.ofList h.lowerFrom_eq

/-! ### Characters beyond ASCII that become ASCII letters -/

/-- The Kelvin sign, which is a letter K of its own. -/
def kelvin : Char := '\u212a'

/-- The small letters of a run are no surrogates, and beyond ASCII unless the run is the Kelvin
sign. -/
theorem small_of_mem_capitalRuns : ∀ r ∈ capitalRuns,
    (r.first = 0x212A ∧ r.last = 0x212A) ∨ (0x80 ≤ r.small ∧
      (r.small + (r.last - r.first) < 0xD800 ∨
        0xE000 ≤ r.small ∧ r.small + (r.last - r.first) < 0x110000)) := by
  decide +kernel

/-- Any other character beyond ASCII leaves one in lower case. -/
theorem exists_mem_lowerChar {c : Char} (wide : ¬IsAscii c) (other : c ≠ kelvin) :
    ∃ d ∈ lowerChar c, ¬IsAscii d := by
  rw [lowerChar, if_neg (show ¬c.toNat < 0x80 from wide)]
  split
  · exact ⟨'\u0307', by simp, by decide⟩
  · split
    · rename_i r found
      refine ⟨_, List.mem_singleton_self _, ?_⟩
      have held := List.find?_some found
      simp only [CapitalRun.holds, Bool.and_eq_true, decide_eq_true_eq] at held
      obtain ⟨⟨first, last⟩, -⟩ := held
      obtain sign | ⟨small, valid⟩ := small_of_mem_capitalRuns r (List.mem_of_find?_eq_some found)
      · have code : c.toNat = kelvin.toNat := by
          have : kelvin.toNat = 0x212A := rfl
          omega
        exact absurd (Char.toNat_inj.mp code) other
      · have valid : (r.small + (c.toNat - r.first)).isValidChar := by
          rw [Nat.isValidChar]
          omega
        rw [IsAscii, toNat_ofNat valid]
        omega
    · exact ⟨c, List.mem_singleton_self c, wide⟩

/-- What is lowered of a character is there in the lowered text, unless that is a capital sigma. -/
theorem mem_lowerFrom {before cs : List Char} {c d : Char} (mem : c ∈ cs) (h : d ∈ lowerChar c)
    (other : c ≠ 'Σ') : d ∈ lowerFrom before cs := by
  induction cs generalizing before with
  | nil => cases mem
  | cons e cs ih =>
    rw [lowerFrom]
    obtain rfl | later := List.mem_cons.mp mem
    · rw [if_neg (by simp [other])]
      exact List.mem_append_left _ h
    · exact List.mem_append_right _ (ih later)

theorem exists_mem_lowerFrom {before cs : List Char} {c : Char} (mem : c ∈ cs)
    (wide : ¬IsAscii c) (other : c ≠ kelvin) : ∃ d ∈ lowerFrom before cs, ¬IsAscii d := by
  induction cs generalizing before with
  | nil => cases mem
  | cons e cs ih =>
    rw [lowerFrom]
    obtain rfl | later := List.mem_cons.mp mem
    · split
      · exact ⟨'ς', by simp, by decide⟩
      · obtain ⟨d, hd, beyond⟩ := exists_mem_lowerChar wide other
        exact ⟨d, List.mem_append_left _ hd, beyond⟩
    · obtain ⟨d, hd, beyond⟩ := ih later
      exact ⟨d, List.mem_append_right _ hd, beyond⟩

section

variable {s t : String} (ascii : ∀ c ∈ s.toList, IsAscii c)

include ascii

theorem lower_of_isAscii : lower s = lowerAscii s := (foldsAscii_of_isAscii ascii).lower_eq

theorem mem_lower_of_isAscii {d : Char} :
    d ∈ (lower s).toList ↔ ∃ c ∈ s.toList, c.toLower = d := by
  rw [lower_of_isAscii ascii, lowerAscii, String.toList_ofList, List.mem_map]

/-- What is equal to an ASCII text in lower case has no characters beyond ASCII but Kelvin signs. -/
theorem isAscii_of_lower_eq (same : lower t = lower s) {c : Char} (mem : c ∈ t.toList)
    (other : c ≠ kelvin) : IsAscii c := by
  refine Decidable.byContradiction fun wide => ?_
  obtain ⟨d, hd, beyond⟩ := exists_mem_lowerFrom mem wide other
  have small : d ∈ (lower t).toList := by
    rw [lower, String.toList_ofList]
    exact hd
  obtain ⟨e, he, rfl⟩ := (mem_lower_of_isAscii ascii).mp (same ▸ small)
  exact beyond (isAscii_toLower_iff.mpr (ascii e he))

/-- Without a letter K an ASCII text is equal in lower case only to what it is equal to up to the case
of ASCII letters. -/
theorem sameName_of_lower_eq (plain : ∀ c ∈ s.toList, c.toLower ≠ 'k')
    (same : lower t = lower s) : sameName t s = true := by
  have narrow : ∀ c ∈ t.toList, IsAscii c := by
    intro c hc
    refine isAscii_of_lower_eq ascii same hc ?_
    rintro rfl
    have small : 'k' ∈ (lower t).toList := by
      rw [lower, String.toList_ofList]
      exact mem_lowerFrom hc (by decide +kernel) (by decide)
    obtain ⟨e, he, letter⟩ := (mem_lower_of_isAscii ascii).mp (same ▸ small)
    exact plain e he letter
  rw [sameName_iff, ← lower_of_isAscii narrow, ← lower_of_isAscii ascii, same]

/-- With a letter K it is equal to the same text with Kelvin signs, too. -/
theorem exists_lower_eq {c : Char} (mem : c ∈ s.toList) (letter : c.toLower = 'k') :
    ∃ t, lower t = lower s ∧ ¬sameName t s = true := by
  let sign (c : Char) : Char := if c.toLower = 'k' then kelvin else c
  have lowered : ∀ c ∈ s.toList, lowerChar (sign c) = [c.toLower] := by
    intro c hc
    by_cases letter : c.toLower = 'k'
    · rw [show sign c = kelvin from if_pos letter, letter]
      decide +kernel
    · rw [show sign c = c from if_neg letter, lowerChar_of_isAscii (ascii c hc)]
  refine ⟨String.ofList (s.toList.map sign), ?_, fun same => ?_⟩
  · have sigma : 'Σ' ∉ s.toList.map sign := by
      intro mem
      obtain ⟨c, hc, same⟩ := List.mem_map.mp mem
      have small := lowered c hc
      rw [same] at small
      have letter : 'σ' = c.toLower := (List.cons.inj small).1
      have narrow := isAscii_toLower_iff.mpr (ascii c hc)
      rw [← letter] at narrow
      exact absurd narrow (by decide)
    rw [lower, String.toList_ofList, lowerFrom_eq_flatMap sigma, lower_of_isAscii ascii, lowerAscii,
      List.flatMap_map, List.map_eq_flatMap, List.flatMap_def, List.flatMap_def,
      List.map_congr_left lowered]
  · have found : kelvin.toLower ∈ (s.toList.map sign).map Char.toLower :=
      List.mem_map_of_mem (List.mem_map.mpr ⟨c, mem, if_pos letter⟩)
    rw [sameName, decide_eq_true_eq, String.toList_ofList] at same
    rw [same] at found
    obtain ⟨e, he, sign⟩ := List.mem_map.mp found
    have narrow := isAscii_toLower_iff.mpr (ascii e he)
    rw [sign] at narrow
    exact absurd narrow (by decide)

end

end Stylesheet.Text
