import Stylesheet.Proofs.Document
import Stylesheet.Proofs.Nesting.WellFormed
import Stylesheet.Proofs.Removal.Open

/-!
# Style sheets without errors are balanced

Where a block is left open or out, reading a style sheet reports it. A style sheet without errors has
tokens for all of its text, and every block in it ends with a token of its own.
-/

namespace Stylesheet

open Token

/-- Every block is tokenized, and every opener has a closing token of the right kind. -/
structure TokenList.Balanced (list : TokenList) : Prop where
  full : list.truncated = []
  closed : ∀ (i : Nat) (t : Token), list.tokens[i]? = some t → t.kind.opensBlock = true →
    ∃ (c : Nat) (u : Token), list.close? i = some c ∧ list.tokens[c]? = some u ∧
      t.kind.closing = some u.kind

/-- Where nothing is left open or out, closing tokens stand where the openers say. -/
theorem TokenList.Closed.balanced {text : String} (h : (tokenize text).Closed) :
    (tokenize text).Balanced := by
  refine ⟨h.full, fun i t found opens => ?_⟩
  have closed := h.closed t (List.mem_of_getElem? found) opens
  obtain ⟨n, inside⟩ := Option.isSome_iff_exists.mp closed
  obtain ⟨u, closer, paired⟩ := (tokenize_matched text).closer found opens inside
  refine ⟨i + 1 + n, u, ?_, closer, paired⟩
  exact TokenList.close?_eq_some_iff.mpr ⟨t, n, found, inside, rfl⟩

/-- Without limits every text is read as a style sheet, and a text that is read without errors is
balanced. -/
theorem parse_balanced (text : String) (options : ParseOptions) (clock : Clock) :
    (∃ d, parse text { options with budgets := {} } clock = .ok d) ∧
      ∀ d, parse text options clock = .ok d → d.errors = [] → (tokenize text).Balanced := by
  constructor
  · exact exists_parse text options clock
  · intro d h none
    have errors := parse_errors h
    rw [none, Document.locate] at errors
    exact (closed_of_errors (List.map_eq_nil_iff.mp errors.symm)).balanced

/-- For instance, a style sheet with brackets of all kinds and a function. -/
theorem parse_balanced_media :
    (∃ d, parse "@media x\x7ba[b]\x7bc:d(e)\x7d\x7d" {} = .ok d ∧ d.errors = []) ∧
      (tokenize "@media x\x7ba[b]\x7bc:d(e)\x7d\x7d").Balanced := by
  obtain ⟨⟨d, read⟩, balanced⟩ := parse_balanced "@media x\x7ba[b]\x7bc:d(e)\x7d\x7d" {} {}
  have none : d.errors = [] := by
    rw [parse_errors read]
    decide +kernel
  exact ⟨⟨d, read, none⟩, balanced d read none⟩

end Stylesheet
