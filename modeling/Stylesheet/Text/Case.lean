/-!
# ASCII case

Names that CSS itself defines are compared without regard to the case of ASCII letters. Other
letters keep their case here.
-/

namespace Stylesheet.Text

/-- Lower the ASCII letters of a text. -/
def lowerAscii (s : String) : String := String.ofList (s.toList.map Char.toLower)

/-- Two texts are equal up to the case of ASCII letters. -/
def sameName (a b : String) : Bool := a.toList.map Char.toLower = b.toList.map Char.toLower

theorem sameName_iff {a b : String} : sameName a b ↔ lowerAscii a = lowerAscii b := by
  simp [sameName, lowerAscii, String.ofList_inj]

theorem sameName_refl (a : String) : sameName a a := by simp [sameName]

end Stylesheet.Text
