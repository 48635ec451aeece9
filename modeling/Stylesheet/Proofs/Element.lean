import Mathlib.Data.List.Forall2
import Stylesheet.Element

/-!
# The values that describe trees of elements

A tree of elements is read from a JSON value once, and from then on only the tree is looked at. It
shows that value: node by node and at any depth, what is known about a node is what the members of
an object say. Members of another type than expected say nothing, and an item of `children` that is
no object is no node.
-/

namespace Stylesheet

namespace Json

/-- Tells whether an object has a text at a name. -/
def hasText (j : Json) (name : String) : Bool :=
  match j.get? name with
  | some (.string _) => true
  | _ => false

/-- The items of the array that an object has at a name. -/
def itemsAt (j : Json) (name : String) : List Json :=
  match j.get? name with
  | some (.array items) => items
  | _ => []

/-- An object says that it is an element: at `kind`, or at `type` if it has no text at `kind`. -/
def DescribesElement (j : Json) : Prop :=
  ∃ k, Text.sameName k "element" = true ∧
    (j.get? "kind" = some (.string k) ∨
      j.hasText "kind" = false ∧ j.get? "type" = some (.string k))

/-- An object says what the name and the value of an attribute are. -/
def DescribesAttribute (j : Json) (a : String × String) : Prop :=
  j.get? "name" = some (.string a.1) ∧ j.get? "value" = some (.string a.2)

/-- The attributes that an object lists, with those that have both a name and a value. -/
def attributeItems (j : Json) : List Json :=
  (j.itemsAt "attributes").filter fun item => item.hasText "name" && item.hasText "value"

/-- The nodes right below the one that an object describes. -/
def childItems (j : Json) : List Json := (j.itemsAt "children").filter isObject

end Json

/-- The tree is what a JSON value describes. -/
inductive Element.Shows : Element → Json → Prop
  | node {e : Element} {j : Json} (kind : e.isElement = true ↔ j.DescribesElement)
      (tagName : ∀ t, e.tagName = some t ↔ j.get? "tagName" = some (.string t))
      (attributes : List.Forall₂ Json.DescribesAttribute j.attributeItems e.attributes)
      (children : List.Forall₂ Shows e.children j.childItems) : Shows e j

namespace Json

variable {j : Json} {name : String}

theorem text?_eq_some_iff {t : String} : j.text? = some t ↔ j = .string t := by
  cases j <;> simp [text?]

theorem text?_get?_iff {t : String} :
    (j.get? name).bind text? = some t ↔ j.get? name = some (.string t) := by
  simp [Option.bind_eq_some_iff, text?_eq_some_iff]

theorem hasText_eq (j : Json) (name : String) :
    j.hasText name = ((j.get? name).bind text?).isSome := by
  rw [hasText]
  cases j.get? name with
  | none => rfl
  | some k => cases k <;> rfl

theorem itemsAt_eq (j : Json) (name : String) :
    j.itemsAt name = ((j.get? name).bind items?).getD [] := by
  rw [itemsAt]
  cases j.get? name with
  | none => rfl
  | some k => cases k <;> rfl

theorem describesElement_iff : j.DescribesElement ↔ Element.isElementObject j = true := by
  simp only [DescribesElement, hasText_eq, ← text?_get?_iff, Element.isElementObject]
  cases (j.get? "kind").bind text? with
  | none => simp [Option.any_eq_true, and_comm]
  | some k => simp

theorem describesAttribute_iff {a : String × String} :
    j.DescribesAttribute a ↔ Element.attribute? j = some a := by
  obtain ⟨key, value⟩ := a
  simp [Element.attribute?, DescribesAttribute, Option.bind_eq_some_iff, text?_eq_some_iff]

/-- Attributes are read from the items that have both a name and a value, and from no others. -/
theorem forall₂_describesAttribute (items : List Json) :
    List.Forall₂ DescribesAttribute
      (items.filter fun item => item.hasText "name" && item.hasText "value")
      (items.filterMap Element.attribute?) := by
  induction items with
  | nil => exact .nil
  | cons item items ih =>
    cases found : Element.attribute? item with
    | some a =>
      have told := describesAttribute_iff.mpr found
      rw [List.filterMap_cons_some found, List.filter_cons_of_pos (by simp [hasText, told.1, told.2])]
      exact .cons told ih
    | none =>
      rw [List.filterMap_cons_none found, List.filter_cons_of_neg]
      · exact ih
      · rw [Bool.and_eq_true_iff, hasText_eq, hasText_eq, Option.isSome_iff_exists,
          Option.isSome_iff_exists]
        rintro ⟨⟨key, named⟩, value, valued⟩
        have told : item.DescribesAttribute (key, value) :=
          ⟨text?_get?_iff.mp named, text?_get?_iff.mp valued⟩
        rw [describesAttribute_iff.mp told] at found
        cases found

end Json

namespace Element

variable {j : Json}

theorem withChildren_shows {es : List Element} (children : List.Forall₂ Shows es j.childItems) :
    (withChildren j es).Shows j := by
  refine .node Json.describesElement_iff.symm (fun t => Json.text?_get?_iff) ?_ children
  rw [Json.attributeItems, Json.itemsAt_eq]
  exact Json.forall₂_describesAttribute _

/-- Of the members named `children` the last counts. -/
theorem childrenIn_eq (members : List (String × Json)) :
    childrenIn members = ((Json.object members).get? "children").map itemsOf := by
  induction members with
  | nil => rfl
  | cons m members ih =>
    obtain ⟨name, j⟩ := m
    rw [childrenIn, ih, Json.get?, Json.get?, List.reverse_cons, List.find?_append]
    cases members.reverse.find? fun m => m.1 = "children" with
    | some m => rfl
    | none => by_cases h : name = "children" <;> simp [h]

mutual

/-- A tree that was read from a value shows it. -/
theorem ofJson_shows : ∀ j : Json, (ofJson j).Shows j
  | .object members => by
    rw [ofJson, childrenIn_eq]
    refine withChildren_shows ?_
    rw [Json.childItems, Json.itemsAt_eq]
    cases found : (Json.object members).get? "children" with
    | none => exact .nil
    | some j =>
      obtain ⟨m, listed, rfl⟩ := Option.map_eq_some_iff.mp found
      exact members_show members m (List.mem_reverse.mp (List.mem_of_find?_eq_some listed))
  | .null | .bool _ | .natural _ | .number _ | .string _ | .array _ => withChildren_shows .nil

theorem members_show : ∀ members : List (String × Json), ∀ m ∈ members,
    List.Forall₂ Shows (itemsOf m.2) ((m.2.items?.getD []).filter Json.isObject)
  | [], _, h => nomatch h
  | (_, j) :: members, m, h => by
    obtain rfl | h := List.mem_cons.mp h
    · exact itemsOf_shows j
    · exact members_show members m h

theorem itemsOf_shows : ∀ j : Json,
    List.Forall₂ Shows (itemsOf j) ((j.items?.getD []).filter Json.isObject)
  | .array items => objectsOf_shows items
  | .null | .bool _ | .natural _ | .number _ | .string _ | .object _ => .nil

theorem objectsOf_shows : ∀ items : List Json,
    List.Forall₂ Shows (objectsOf items) (items.filter Json.isObject)
  | [] => .nil
  | j :: items => by
    rw [objectsOf]
    split
    · rename_i object
      rw [List.filter_cons_of_pos object]
      exact .cons (ofJson_shows j) (objectsOf_shows items)
    · rename_i other
      rw [List.filter_cons_of_neg other]
      exact objectsOf_shows items

end

end Element

end Stylesheet
