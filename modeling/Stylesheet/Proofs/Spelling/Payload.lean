import Stylesheet.Proofs.Spelling.Forest

/-!
# Values of strings and urls

Whatever value a string or a url has, its text is scanned as one token, and this has the same value.
Only U+0000 does not come back, for scanning reads the replacement character in its place: an escape
cannot name it any more than the character can stand for itself.
-/

namespace Stylesheet

namespace Token

/-- A value with the replacement character for each U+0000. -/
def readBack (value : String) : String := String.ofList (value.toList.map plain)

theorem readBack_eq_iff {value : String} : readBack value = value ↔ '\x00' ∉ value.toList := by
  rw [← map_plain_eq_iff, readBack, ← String.toList_inj, String.toList_ofList]

/-- A text that is one word has one token. -/
theorem tokenize_word {w : Word} (fits : w.Fits []) (plain : w.kind.isBracket = false) :
    tokenize (String.ofList w.text) = ⟨[w.token 0], [], w.width⟩ := by
  have words := tokenize_forest (.leaf w plain .nil) (Word.allFit_singleton.mpr fits)
    (Nat.zero_le maxDepth)
  rw [Forest.words_leaf, Forest.words_nil, Word.textOf_cons, Word.textOf_nil, List.append_nil]
    at words
  exact words

end Token

open Token

variable {α : Type} (value : String) (note : α) (children : List (Node α))

theorem generate_string : Node.generate ⟨.string, .value value, note, children⟩ =
    String.ofList (Word.string value.toList).text := by
  rw [Node.generate, Canonical.compose]
  rfl

theorem generate_url : Node.generate ⟨.url, .value value, note, children⟩ =
    String.ofList (Word.url value.toList).text := by
  rw [Node.generate, Canonical.compose]
  rfl

/-- What is written of a string is scanned as one string with its value, and what is written of a url
as one url with its value, if the value holds no U+0000. Otherwise the two values differ just
there. -/
theorem tokenize_payload :
    let string := Node.generate ⟨.string, .value value, note, children⟩
    let url := Node.generate ⟨.url, .value value, note, children⟩
    tokenize string =
        ⟨[⟨.string, string, 0, some (readBack value), none, ""⟩], [], string.utf8ByteSize⟩ ∧
      tokenize url =
        ⟨[⟨.url, url, 0, some (readBack value), none, ""⟩], [], url.utf8ByteSize⟩ ∧
      (readBack value = value ↔ '\x00' ∉ value.toList) := by
  refine ⟨?_, ?_, readBack_eq_iff⟩
  · rw [generate_string]
    exact tokenize_word (Word.fits_quoted value.toList []) rfl
  · rw [generate_url]
    exact tokenize_word (Word.fits_unquoted value.toList []) rfl

end Stylesheet
