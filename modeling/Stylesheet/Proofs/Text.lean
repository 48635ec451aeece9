import Stylesheet.Text.Slice

/-!
# Places in texts

An offset at which a text can be cut is the length of some front part of it. `Stands` says which
characters are found at such an offset; between two of them there is always a slice.
-/

namespace Stylesheet.Text

/-- Number of bytes of some characters. -/
def width (cs : List Char) : Nat := (String.ofList cs).utf8ByteSize

@[simp] theorem width_nil : width [] = 0 := rfl

@[simp] theorem width_append (cs ds : List Char) : width (cs ++ ds) = width cs + width ds := by
  simp [width, String.ofList_append]

@[simp] theorem width_cons (c : Char) (cs : List Char) :
    width (c :: cs) = c.utf8Size + width cs := by
  rw [← List.singleton_append, width_append]
  congr 1
  exact String.utf8ByteSize_singleton

@[simp] theorem width_toList (s : String) : width s.toList = s.utf8ByteSize := by
  rw [width, String.ofList_toList]

theorem width_eq_zero_iff {cs : List Char} : width cs = 0 ↔ cs = [] := by
  cases cs with
  | nil => simp
  | cons c cs =>
    have := c.utf8Size_pos
    simp only [width_cons, reduceCtorEq, iff_false]
    omega

/-- The characters `cs` stand in a text from byte `n` on. -/
def Stands (source : String) (n : Nat) (cs : List Char) : Prop :=
  ∃ front back, source.toList = front ++ (cs ++ back) ∧ width front = n

section

variable {source : String} {n m : Nat} {cs ds : List Char}

theorem Stands.left (h : Stands source n (cs ++ ds)) : Stands source n cs := by
  obtain ⟨front, back, hs, hn⟩ := h
  exact ⟨front, ds ++ back, by rw [hs, List.append_assoc], hn⟩

theorem Stands.right (h : Stands source n (cs ++ ds)) : Stands source (n + width cs) ds := by
  obtain ⟨front, back, hs, hn⟩ := h
  exact ⟨front ++ cs, back, by simp [hs], by simp [hn]⟩

/-- No characters stand wherever a text can be cut. -/
theorem stands_nil_iff : Stands source n [] ↔ (⟨n⟩ : String.Pos.Raw).IsValid source := by
  rw [String.Pos.Raw.isValid_iff_exists_append]
  constructor
  · rintro ⟨front, back, hs, hn⟩
    refine ⟨String.ofList front, String.ofList back, ?_, ?_⟩
    · rw [← String.toList_inj, hs]
      simp
    · exact congrArg String.Pos.Raw.mk hn.symm
  · rintro ⟨front, back, rfl, hn⟩
    refine ⟨front.toList, back.toList, by simp, ?_⟩
    rw [width_toList]
    exact (congrArg String.Pos.Raw.byteIdx hn).symm

theorem Stands.isValid (h : Stands source n cs) : (⟨n⟩ : String.Pos.Raw).IsValid source :=
  stands_nil_iff.mp (h : Stands source n ([] ++ cs)).left

theorem Stands.isValid_right (h : Stands source n cs) :
    (⟨n + width cs⟩ : String.Pos.Raw).IsValid source := by
  rw [← List.append_nil cs] at h
  exact stands_nil_iff.mp h.right

theorem stands_zero (source : String) : Stands source 0 source.toList :=
  ⟨[], [], by simp, rfl⟩

/-- Characters that stand right behind others stand together with them. -/
theorem Stands.append (h : Stands source n cs) (h' : Stands source (n + width cs) ds) :
    Stands source n (cs ++ ds) := by
  obtain ⟨front, back, hs, rfl⟩ := h
  obtain ⟨front', back', hs', width'⟩ := h'
  have same : (front ++ cs) ++ back = front' ++ (ds ++ back') := by
    rw [List.append_assoc, ← hs, hs']
  obtain ⟨gap, rfl, rest⟩ | ⟨gap, eq, -⟩ := List.append_eq_append_iff.mp same
  · have : gap = [] := width_eq_zero_iff.mp (by simp only [width_append] at width'; omega)
    subst this
    rw [List.nil_append] at rest
    exact ⟨front, back', by rw [hs, rest, List.append_assoc], rfl⟩
  · have : gap = [] := width_eq_zero_iff.mp (by
      have := congrArg width eq
      simp only [width_append] at this
      omega)
    subst this
    rw [List.append_nil] at eq
    subst eq
    exact ⟨front, back', by rw [hs', List.append_assoc, List.append_assoc], rfl⟩

/-- Some characters stand between any two offsets at which a text can be cut. -/
theorem exists_stands (hn : (⟨n⟩ : String.Pos.Raw).IsValid source)
    (hm : (⟨m⟩ : String.Pos.Raw).IsValid source) (le : n ≤ m) :
    ∃ cs, Stands source n cs ∧ n + width cs = m := by
  obtain ⟨front, back, hs, rfl⟩ := stands_nil_iff.mpr hn
  obtain ⟨front', back', hs', rfl⟩ := stands_nil_iff.mpr hm
  rw [List.nil_append] at hs hs'
  obtain ⟨cs, rfl, rfl⟩ | ⟨cs, rfl, rfl⟩ := List.append_eq_append_iff.mp (hs.symm.trans hs')
  · exact ⟨cs, ⟨front, back', hs, rfl⟩, by simp⟩
  · have : cs = [] := width_eq_zero_iff.mp (by simp only [width_append] at le; omega)
    subst this
    exact ⟨[], ⟨front', back, by simpa using hs', by simp⟩, by simp⟩

theorem splitBytes?_append (front back : List Char) :
    splitBytes? (width front) (front ++ back) = some (front, back) := by
  induction front with
  | nil => simp [splitBytes?]
  | cons c front ih =>
    have hc := c.utf8Size_pos
    obtain ⟨k, hk⟩ : ∃ k, width (c :: front) = k + 1 := ⟨width (c :: front) - 1, by simp; omega⟩
    have hw : width (c :: front) = c.utf8Size + width front := width_cons c front
    have hsub : k + 1 - c.utf8Size = width front := by omega
    rw [hk, List.cons_append, splitBytes?, if_pos (by omega), hsub, ih]
    rfl

/-- The slice between two offsets is what stands there. -/
theorem Stands.slice? (h : Stands source n cs) :
    slice? source n (n + width cs) = some (String.ofList cs) := by
  obtain ⟨front, back, hs, rfl⟩ := h
  have hcs : width front + width cs - width front = width cs := by omega
  have order : (guard (width front ≤ width front + width cs) : Option Unit) = some () :=
    if_pos (Nat.le_add_right _ _)
  rw [Text.slice?, order]
  simp [hs, splitBytes?_append, hcs]

/-- Some text stands between two offsets at which a text can be cut. -/
theorem exists_slice? (hn : (⟨n⟩ : String.Pos.Raw).IsValid source)
    (hm : (⟨m⟩ : String.Pos.Raw).IsValid source) (le : n ≤ m) :
    ∃ own, slice? source n m = some own := by
  obtain ⟨cs, stands, rfl⟩ := exists_stands hn hm le
  exact ⟨String.ofList cs, stands.slice?⟩

theorem width_of_splitBytes? {front back : List Char} (h : splitBytes? n cs = some (front, back)) :
    width front = n := by
  fun_induction splitBytes? n cs generalizing front back with
  | case1 cs =>
    cases h
    rfl
  | case2 => cases h
  | case3 n c cs le ih =>
    obtain ⟨⟨front, back⟩, hs, h⟩ := Option.map_eq_some_iff.mp h
    cases h
    rw [width_cons, ih hs]
    omega
  | case4 => cases h

/-- A slice stands where it was cut. -/
theorem stands_of_slice? {own : String} (h : slice? source n m = some own) :
    Stands source n own.toList ∧ n + width own.toList = m := by
  have le : n ≤ m := by
    refine Nat.le_of_not_lt fun late => ?_
    have order : (guard (n ≤ m) : Option Unit) = none := if_neg (Nat.not_le_of_lt late)
    rw [Text.slice?, order] at h
    cases h
  have order : (guard (n ≤ m) : Option Unit) = some () := if_pos le
  rw [Text.slice?, order] at h
  simp only [Option.bind_eq_bind, Option.bind_some, Option.bind_eq_some_iff] at h
  obtain ⟨⟨front, rest⟩, hfront, ⟨own', back⟩, hown, h⟩ := h
  cases h
  have before := width_of_splitBytes? hfront
  have inside := width_of_splitBytes? hown
  have rest_eq : own' ++ back = rest := append_of_splitBytes? hown
  have whole : front ++ rest = source.toList := append_of_splitBytes? hfront
  rw [String.toList_ofList]
  exact ⟨⟨front, back, by rw [← whole, ← rest_eq], before⟩, by dsimp only; omega⟩

/-- Of the characters that stand at one place, the fewer are the first of the others. -/
theorem Stands.starts (h : Stands source n cs) (h' : Stands source n ds)
    (le : width cs ≤ width ds) : ∃ rest, ds = cs ++ rest := by
  obtain ⟨front, back, hs, hn⟩ := h
  obtain ⟨front', back', hs', hn'⟩ := h'
  have cut : splitBytes? n source.toList = some (front, cs ++ back) := by
    rw [hs, ← hn, splitBytes?_append]
  have cut' : splitBytes? n source.toList = some (front', ds ++ back') := by
    rw [hs', ← hn', splitBytes?_append]
  rw [cut, Option.some.injEq, Prod.mk.injEq] at cut'
  obtain ⟨rest, rfl, -⟩ | ⟨rest, rfl, -⟩ := List.append_eq_append_iff.mp cut'.2
  · exact ⟨rest, rfl⟩
  · have nothing : rest = [] := width_eq_zero_iff.mp (by
      rw [width_append] at le
      omega)
    exact ⟨[], by rw [nothing, List.append_nil, List.append_nil]⟩

end

end Stylesheet.Text
