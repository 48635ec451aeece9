import Stylesheet.Document
import Stylesheet.Proofs.Result

/-!
# Reading documents

Budgets decide whether a text is read, and nothing else: a document holds the tree of its text, and
without limits every text has a document. What the clock shows counts only against a limit on time.
-/

namespace Stylesheet

namespace Document

variable {text : String} {kind : DocumentKind} {context : Context} {options : ParseOptions}
variable {clock : Clock}

/-- A document that was read holds the tree and the errors of its text. -/
theorem readWithin_eq_ok {d : Document} (h : readWithin text kind context options clock = .ok d) :
    ∃ trace, d =
      let tree := treeOf options.captureSpans context (tokenize text)
      ⟨kind, context, tree.value, locate text tree.errors, trace⟩ := by
  simp only [readWithin, bind_eq_ok_iff] at h
  obtain ⟨_, -, _, -, _, -, _, -, _, -, _, -, _, -, _, -, _, -, h⟩ := h
  exact ⟨_, (Except.ok.inj h).symm⟩

theorem readWithin_root {d : Document} (h : readWithin text kind context options clock = .ok d) :
    d.root = (treeOf options.captureSpans context (tokenize text)).value := by
  obtain ⟨_, rfl⟩ := readWithin_eq_ok h
  rfl

theorem readWithin_errors {d : Document} (h : readWithin text kind context options clock = .ok d) :
    d.errors = locate text (treeOf options.captureSpans context (tokenize text)).errors := by
  obtain ⟨_, rfl⟩ := readWithin_eq_ok h
  rfl

/-- Without a limit on time a text is read in the same way at any pace. -/
theorem readWithin_untimed (untimed : options.budgets.maxTimeMs = none) (clock clock' : Clock) :
    readWithin text kind context options clock = readWithin text kind context options clock' := by
  simp only [readWithin, Budgets.check_untimed untimed]

theorem check_unlimited (b : Budget) (actual : Nat) : Budgets.check {} b actual = .ok () := by
  cases b <;> rfl

theorem record_unlimited (r : Recorder) (what : Happening) :
    ∃ done, r.record {} what = .ok done := by
  rw [Recorder.record]
  split
  · exact ⟨_, rfl⟩
  · exact ⟨_, rfl⟩

theorem recordAll_unlimited (r : Recorder) (what : List Happening) :
    ∃ done, r.recordAll {} what = .ok done := by
  induction what generalizing r with
  | nil => exact ⟨r, rfl⟩
  | cons w what ih =>
    obtain ⟨next, hnext⟩ := record_unlimited r w
    obtain ⟨done, hdone⟩ := ih next
    refine ⟨done, ?_⟩
    rw [Recorder.recordAll, List.foldlM_cons, hnext]
    exact hdone

/-- Without limits every text can be read. -/
theorem exists_readWithin (text : String) (kind : DocumentKind) (context : Context)
    (options : ParseOptions) (clock : Clock) :
    ∃ d, readWithin text kind context { options with budgets := {} } clock = .ok d := by
  obtain ⟨received, h₁⟩ := recordAll_unlimited (.start options.trace)
    (received {} text.utf8ByteSize)
  obtain ⟨tokenized, h₂⟩ := record_unlimited received (.token (tokenize text).tokens.length)
  obtain ⟨finished, h₃⟩ := recordAll_unlimited tokenized
    (finished {} context (tokenize text).tokens.length
      (treeOf options.captureSpans context (tokenize text)).value.size
      (treeOf options.captureSpans context (tokenize text)).value.depth
      (locate text (treeOf options.captureSpans context (tokenize text)).errors))
  simp only [readWithin, Node.measure_eq, bind_eq_ok_iff]
  exact ⟨_, (), check_unlimited _ _, received, h₁, (), check_unlimited _ _, (), check_unlimited _ _,
    tokenized, h₂, (), check_unlimited _ _, (), check_unlimited _ _, (), check_unlimited _ _,
    finished, h₃, rfl⟩

end Document

/-! ### Style sheets and their parts -/

variable {text : String} {context : Context} {options : ParseOptions} {clock : Clock}
variable {d : Document}

theorem parse_root (h : parse text options clock = .ok d) :
    d.root = (Document.treeOf options.captureSpans .stylesheet (tokenize text)).value :=
  Document.readWithin_root (Failure.ofBudget_eq_ok_iff.mp h)

theorem parse_errors (h : parse text options clock = .ok d) : d.errors =
    Document.locate text
      (Document.treeOf options.captureSpans .stylesheet (tokenize text)).errors :=
  Document.readWithin_errors (Failure.ofBudget_eq_ok_iff.mp h)

theorem parseAs_root (h : parseAs text context options clock = .ok d) :
    d.root = (Document.treeOf options.captureSpans context (tokenize text)).value :=
  Document.readWithin_root (Failure.ofBudget_eq_ok_iff.mp h)

theorem parseAs_errors (h : parseAs text context options clock = .ok d) : d.errors =
    Document.locate text (Document.treeOf options.captureSpans context (tokenize text)).errors :=
  Document.readWithin_errors (Failure.ofBudget_eq_ok_iff.mp h)

/-- Without limits every text can be read as a style sheet. -/
theorem exists_parse (text : String) (options : ParseOptions) (clock : Clock) :
    ∃ d, parse text { options with budgets := {} } clock = .ok d := by
  obtain ⟨d, h⟩ := Document.exists_readWithin text .stylesheet .stylesheet options clock
  exact ⟨d, Failure.ofBudget_eq_ok_iff.mpr h⟩

/-- Without limits every text can be read as any part of a style sheet. -/
theorem exists_parseAs (text : String) (context : Context) (options : ParseOptions)
    (clock : Clock) : ∃ d, parseAs text context { options with budgets := {} } clock = .ok d := by
  obtain ⟨d, h⟩ := Document.exists_readWithin text .fragment context options clock
  exact ⟨d, Failure.ofBudget_eq_ok_iff.mpr h⟩

end Stylesheet
