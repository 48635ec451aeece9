import Stylesheet.Json
import Stylesheet.Text.Case

/-!
# Trees of elements

Selectors are matched against a tree whose nodes are elements or something else. It is read from a
JSON value: a node's `kind`, or else its `type`, says whether it is an element; its attributes are
objects with a name and a value; and its children are the objects among the items of `children`.
What does not have the right type is treated as missing, so every value is a tree.
-/

namespace Stylesheet

/-- A node of a tree that selectors are matched against. -/
structure Element where
  /-- Tells whether the node is an element; others only have children. -/
  isElement : Bool
  tagName : Option String
  attributes : List (String × String)
  children : List Element
  deriving Repr, Inhabited

namespace Element

/-- Tells whether an object is an element. -/
def isElementObject (j : Json) : Bool :=
  let kind := (j.get? "kind").bind Json.text? <|> (j.get? "type").bind Json.text?
  kind.any fun k => Text.sameName k "element"

/-- The attribute that an object describes. -/
def attribute? (j : Json) : Option (String × String) := do
  some (← (j.get? "name").bind Json.text?, ← (j.get? "value").bind Json.text?)

/-- The attributes of an object. -/
def attributesOf (j : Json) : List (String × String) :=
  (((j.get? "attributes").bind Json.items?).getD []).filterMap attribute?

/-- A node with given children. -/
def withChildren (j : Json) (children : List Element) : Element :=
  ⟨isElementObject j, (j.get? "tagName").bind Json.text?, attributesOf j, children⟩

mutual

/-- The tree that a JSON value describes. -/
def ofJson : Json → Element
  | .object members => withChildren (.object members) ((childrenIn members).getD [])
  | j => withChildren j []

/-- The children among the members of an object, of which the last named `children` counts. -/
def childrenIn : List (String × Json) → Option (List Element)
  | [] => none
  | (name, j) :: rest =>
    (childrenIn rest) <|> (if name = "children" then some (itemsOf j) else none)

/-- The nodes that the items of an array describe. -/
def itemsOf : Json → List Element
  | .array items => objectsOf items
  | _ => []

/-- The nodes that the objects among some values describe. -/
def objectsOf : List Json → List Element
  | [] => []
  | j :: js => if j.isObject then ofJson j :: objectsOf js else objectsOf js

end

mutual

/-- Number of nodes. -/
def size : Element → Nat
  | ⟨_, _, _, children⟩ => 1 + sizeAll children

/-- Number of nodes in a list of trees. -/
def sizeAll : List Element → Nat
  | [] => 0
  | e :: es => size e + sizeAll es

end

mutual

/-- All nodes in pre-order. -/
def nodes : Element → List Element
  | ⟨isElement, tagName, attributes, children⟩ =>
    ⟨isElement, tagName, attributes, children⟩ :: nodesAll children

/-- The nodes of a list of trees in pre-order. -/
def nodesAll : List Element → List Element
  | [] => []
  | e :: es => nodes e ++ nodesAll es

end

theorem size_eq (e : Element) : e.size = 1 + sizeAll e.children := by
  cases e; rfl

theorem size_pos (e : Element) : 0 < e.size := by
  rw [size_eq]; omega

theorem sizeAll_append (es fs : List Element) : sizeAll (es ++ fs) = sizeAll es + sizeAll fs := by
  induction es with
  | nil => simp [sizeAll]
  | cons e es ih => simp only [List.cons_append, sizeAll, ih]; omega

theorem nodes_eq (e : Element) : e.nodes = e :: nodesAll e.children := by
  cases e; rfl

theorem nodesAll_append (es fs : List Element) :
    nodesAll (es ++ fs) = nodesAll es ++ nodesAll fs := by
  induction es with
  | nil => simp [nodesAll]
  | cons e es ih => simp only [List.cons_append, nodesAll, ih, List.append_assoc]

/-- The value of the first attribute with a given name, whatever the case of its ASCII letters. -/
def valueOf? (e : Element) (name : String) : Option String :=
  (e.attributes.find? fun a => Text.sameName a.1 name).map (·.2)

end Element

end Stylesheet
