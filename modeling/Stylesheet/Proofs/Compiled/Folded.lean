import Stylesheet.Proofs.Compiled.Name
import Stylesheet.Proofs.Folding

/-!
# The case of names

Names of types and attributes are to be compared up to the case of ASCII letters. The names in a
selector are lowered by the rules of Unicode before, though, and so are the names of elements, but
not those of attributes. Hence names that have case beyond ASCII are not found as they should be, and
neither are names with a letter K, for which the Kelvin sign passes.
-/

namespace Stylesheet

namespace Element

variable {e : Element} {name : String}

/-- The element is of a type, whatever the case of the ASCII letters in its name. -/
def HasTag (e : Element) (name : String) : Prop :=
  ∃ tag, e.tagName = some tag ∧ Text.sameName tag name = true

/-- The element has an attribute, whatever the case of the ASCII letters in its name. -/
def HasAttribute (e : Element) (name : String) : Prop :=
  ∃ a ∈ e.attributes, Text.sameName a.1 name = true

theorem isSome_valueOf?_iff : (e.valueOf? name).isSome = true ↔ e.HasAttribute name := by
  simp [valueOf?, HasAttribute]

end Element

namespace SelectorList

open Token (Word Forest Firm)

variable {s : List Char}

/-- The words of a type selector. -/
def typeForest (s : List Char) : Forest := .leaf (.ident s) Word.plain_ident .nil

theorem ofText_type (h : (Word.ident s).Fits []) :
    ofText (String.ofList s) =
      single (String.ofList s) (.type (Text.lower (String.ofList s))) := by
  have text : Word.textOf (typeForest s).words = s := List.append_nil s
  have read (limit : Nat) :
      Plain.parts limit none none ⟨(typeForest s).tokens 0, (typeForest s).width⟩ =
        .ok [Plain.node .typeSelector (.name (String.ofList s)) []] := by
    refine parts_single rfl (Plain.explicitCombinator_of_kind nofun) ?_
    rw [Plain.simpleSelector_type (.inl rfl), Plain.typeSelector_plain rfl]
    exact ⟨_, rfl⟩
  have other : String.ofList s ≠ "*" := by
    intro star
    obtain rfl : s = ['*'] := String.ofList_injective star
    cases (Word.name_of_fits h).1
  have compiled := ofText_forest (f := typeForest s) ⟨h, trivial⟩ (Nat.zero_le _) (.singleton rfl)
    rfl read (by decide) (x := .type (Text.lower (String.ofList s)))
    (by simp [SimpleSelector.ofNode, SimpleSelector.ofName, Plain.node, Detail.name?, other,
      Word.ne_nil_of_fits h])
  rwa [text] at compiled

/-- The words between the brackets of a selector for an attribute of any value. -/
def presenceForest (s : List Char) : Forest := Plain.squares (.leaf (.ident s) Word.plain_ident .nil)

theorem ofText_presence (h : (Word.ident s).Fits [']']) :
    ofText (String.ofList ('[' :: (s ++ [']']))) =
      single (String.ofList ('[' :: (s ++ [']'])))
        (.attr (Text.lower (String.ofList s)) none none none) := by
  have text : Word.textOf (presenceForest s).words = '[' :: (s ++ [']']) := rfl
  have read (limit : Nat) :
      Plain.parts limit none none ⟨(presenceForest s).tokens 0, (presenceForest s).width⟩ =
        .ok [Plain.node .attributeSelector (.attr (String.ofList s) none none none) []] := by
    refine parts_single rfl (Plain.explicitCombinator_of_kind nofun) ?_
    simp only [Grammar.simpleSelector, Word.token_kind, Word.kind_single]
    refine Plain.attributeSelector_closed (by rw [Forest.length_tokens]) ?_
    rw [Forest.tokens, Forest.tokens, Grammar.attributeTest,
      Plain.attributeName_plain rfl (by exact Bool.false_ne_true)]
    rfl
  have fit : Word.AllFit (presenceForest s).words [] :=
    ⟨Word.fits_single rfl, h, Word.fits_single rfl, trivial⟩
  have compiled := ofText_forest (f := presenceForest s) fit (show 1 ≤ Token.maxDepth by decide)
    (Token.firm_block _) rfl read (by decide)
    (x := .attr (Text.lower (String.ofList s)) none none none)
    (by simp [SimpleSelector.ofNode, Plain.node, Word.ne_nil_of_fits h])
  rwa [text] at compiled

section

variable {holds holds' : Element → Prop} {text : List Char}

theorem Finds.congr (h : Finds text holds) (same : ∀ e, holds e ↔ holds' e) : Finds text holds' := by
  obtain rfl : holds = holds' := funext fun e => propext (same e)
  exact h

/-- A type selector finds the elements whose name is equal to its name in lower case. -/
theorem finds_type (h : (Word.ident s).Fits []) : Finds s fun e =>
    ∃ tag, e.tagName = some tag ∧ Text.lower tag = Text.lower (String.ofList s) :=
  finds_of_single (ofText_type h) fun e => by simp [SimpleSelector.test, Option.any_eq_true]

/-- A selector for an attribute finds the elements that have one of its name in lower case, up to the
case of ASCII letters. -/
theorem finds_presence (h : (Word.ident s).Fits [']']) : Finds ('[' :: (s ++ [']'])) fun e =>
    e.HasAttribute (Text.lower (String.ofList s)) :=
  finds_of_single (ofText_presence h) fun e => by
    rw [← Element.isSome_valueOf?_iff, SimpleSelector.test]
    cases e.valueOf? (Text.lower (String.ofList s)) <;> simp [testAttribute]

end

/-- An identifier without escapes is one within brackets as well. -/
theorem fits_presence (h : (Word.ident s).Fits []) (plain : '\\' ∉ s) :
    (Word.ident s).Fits [']'] := by
  refine Word.fits_ident_before h (fun _ => plain) ?_ ?_ (by decide) (fun _ => by decide)
  · rintro rfl
    cases (Word.name_of_fits h).1
  · rintro c hc
    obtain rfl := Option.some.inj hc
    decide

/-- A type selector in ASCII finds the elements of its type if and only if there is no letter K in
it: for that letter also the Kelvin sign passes. -/
theorem finds_hasTag_iff (h : (Word.ident s).Fits []) (ascii : ∀ c ∈ s, Text.IsAscii c) :
    Finds s (·.HasTag (String.ofList s)) ↔ ∀ c ∈ s, c.toLower ≠ 'k' := by
  have ascii : ∀ c ∈ (String.ofList s).toList, Text.IsAscii c := by rwa [String.toList_ofList]
  constructor
  · intro finds c mem letter
    obtain ⟨tag, lowered, other⟩ :=
      Text.exists_lower_eq ascii (by rwa [String.toList_ofList]) letter
    let e : Element := ⟨true, some tag, [], []⟩
    obtain ⟨_, typed, same⟩ := ((finds_type h).unique finds (e := e) rfl).mp ⟨tag, rfl, lowered⟩
    obtain rfl := Option.some.inj typed
    exact other same
  · intro plain
    refine (finds_type h).congr fun e => exists_congr fun tag => and_congr_right fun _ => ?_
    exact ⟨Text.sameName_of_lower_eq ascii (by rwa [String.toList_ofList]),
      Text.lower_eq_of_sameName⟩

/-- A selector for an attribute finds the elements with that attribute if and only if its name in
lower case is the same up to the case of ASCII letters. -/
theorem finds_hasAttribute_iff (h : (Word.ident s).Fits [']']) :
    Finds ('[' :: (s ++ [']'])) (·.HasAttribute (String.ofList s)) ↔
      Text.sameName (Text.lower (String.ofList s)) (String.ofList s) = true := by
  constructor
  · intro finds
    let e : Element := ⟨true, none, [(String.ofList s, "")], []⟩
    have has : e.HasAttribute (String.ofList s) :=
      ⟨_, List.mem_singleton_self _, Text.sameName_refl _⟩
    obtain ⟨a, mem, same⟩ := (finds.unique (finds_presence h) (e := e) rfl).mp has
    obtain rfl := List.mem_singleton.mp mem
    exact Text.sameName_comm.mp same
  · intro lowered
    refine (finds_presence h).congr fun e => exists_congr fun a => and_congr_right fun _ => ?_
    rw [Text.sameName_iff, Text.sameName_iff, Text.sameName_iff.mp lowered]

/-- What is found by a name written without escapes, as that of a type and as that of an attribute.
Types are compared in lower case, and the names of attributes with the selector's in lower case, up to
the case of ASCII letters. Hence a name in ASCII finds exactly its attributes, and exactly its types
if there is no letter K in it. -/
theorem names_fold (h : (Word.ident s).Fits []) (plain : '\\' ∉ s) :
    (Finds s fun e =>
      ∃ tag, e.tagName = some tag ∧ Text.lower tag = Text.lower (String.ofList s)) ∧
    (Finds ('[' :: (s ++ [']'])) (·.HasAttribute (Text.lower (String.ofList s)))) ∧
    (Finds ('[' :: (s ++ [']'])) (·.HasAttribute (String.ofList s)) ↔
      Text.sameName (Text.lower (String.ofList s)) (String.ofList s) = true) ∧
    ((∀ c ∈ s, Text.IsAscii c) →
      Finds ('[' :: (s ++ [']'])) (·.HasAttribute (String.ofList s)) ∧
      (Finds s (·.HasTag (String.ofList s)) ↔ ∀ c ∈ s, c.toLower ≠ 'k')) := by
  have bracketed := fits_presence h plain
  refine ⟨finds_type h, finds_presence bracketed, finds_hasAttribute_iff bracketed,
    fun ascii => ⟨(finds_hasAttribute_iff bracketed).mpr ?_, finds_hasTag_iff h ascii⟩⟩
  rw [Text.lower_of_isAscii (by rwa [String.toList_ofList]), Text.sameName_iff,
    Text.lowerAscii_lowerAscii]

/-- The name `div` finds its types and its attributes. -/
theorem names_fold_div : (Word.ident ['d', 'i', 'v']).Fits [] ∧ '\\' ∉ ['d', 'i', 'v'] ∧
    Finds ['[', 'd', 'i', 'v', ']'] (·.HasAttribute "div") ∧
    Finds ['d', 'i', 'v'] (·.HasTag "div") := by
  have fits : (Word.ident ['d', 'i', 'v']).Fits [] := Word.fits_ident (by decide) rfl
  have plain : '\\' ∉ ['d', 'i', 'v'] := by decide
  obtain ⟨-, -, -, narrow⟩ := names_fold fits plain
  obtain ⟨attributes, types⟩ := narrow (by simp [Text.IsAscii])
  exact ⟨fits, plain, attributes, types.mpr (by simp)⟩

/-- The name `É` does not find its attributes, and it finds the types `é` as well. -/
theorem names_not_fold : (Word.ident ['É']).Fits [] ∧ '\\' ∉ ['É'] ∧
    ¬Finds ['[', 'É', ']'] (·.HasAttribute "É") ∧ ¬Finds ['É'] (·.HasTag "É") := by
  have fits : (Word.ident ['É']).Fits [] := ⟨'É', [], rfl, by decide +kernel⟩
  have plain : '\\' ∉ ['É'] := by decide
  refine ⟨fits, plain, fun finds => ?_, fun finds => ?_⟩
  · have same := (finds_hasAttribute_iff (fits_presence fits plain)).mp finds
    exact absurd same (by decide +kernel)
  · let e : Element := ⟨true, some "é", [], []⟩
    obtain ⟨_, typed, same⟩ := ((finds_type fits).unique finds (e := e) rfl).mp
      ⟨"é", rfl, by decide +kernel⟩
    obtain rfl := Option.some.inj typed
    exact absurd same (by decide +kernel)

end SelectorList

end Stylesheet
