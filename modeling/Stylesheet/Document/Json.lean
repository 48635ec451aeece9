import Stylesheet.Document

/-!
# Documents as JSON

The members of every object stand in a fixed order, those of a node's detail between its place and
its children. Places, traces and lists of children are left out where there are none.
-/

namespace Stylesheet

/-- A span as an object. -/
def Span.toJson (s : Span) : Json := .object [("start", .natural s.start), ("end", .natural s.stop)]

/-- The value of an attribute selector with the way it is written. -/
def AttributeValue.toJson : AttributeValue → Json
  | .identifier text => .object [("type", .string "Identifier"), ("value", .string text)]
  | .string text => .object [("type", .string "String"), ("value", .string text)]

/-- The members that show a detail. -/
def Detail.members : Detail → List (String × Json)
  | .none => []
  | .name n => [("name", .string n)]
  | .value v => [("value", .string v)]
  | .dimension v unit => [("value", .string v), ("unit", .string unit)]
  | .declaration property isImportant =>
    [("property", .string property), ("important", .bool isImportant)]
  | .attr n matcher v flags =>
    [("name", .string n), ("matcher", Json.ofOption .string matcher),
      ("value", Json.ofOption AttributeValue.toJson v), ("flags", Json.ofOption .string flags)]

/-- The members that show a mark. -/
def Mark.members (m : Mark) (kind : NodeKind) : List (String × Json) :=
  [("id", .natural m.id), ("type", .string kind.name),
    ("spanProvenance", .string m.provenance.name)] ++
      Json.optionalMember "span" Span.toJson m.span

namespace Node

mutual

/-- A tree as nested objects. -/
def toJson : Node Mark → Json
  | ⟨kind, detail, mark, children⟩ =>
    .object (mark.members kind ++ detail.members ++
      if children.isEmpty then [] else [("children", .array (toJsonAll children))])

/-- Each tree of a list. -/
def toJsonAll : List (Node Mark) → List Json
  | [] => []
  | n :: ns => toJson n :: toJsonAll ns

end

end Node

/-- An error as an object. -/
def ParseError.toJson (e : ParseError) : Json :=
  .object
    [("code", .string ParseError.code), ("parseErrorId", .string e.id),
      ("message", .string e.message), ("span", e.span.toJson),
      ("line", .natural e.position.line), ("column", .natural e.position.column)]

/-- A document as an object. -/
def Document.toJson (d : Document) : Json :=
  .object <|
    [("id", .natural d.id), ("kind", .string d.kind.name), ("context", .string d.context.name),
      ("root", d.root.toJson), ("errors", .array (d.errors.map ParseError.toJson))] ++
        Json.optionalMember "trace" (fun events => .array (events.map Event.toJson)) d.trace

end Stylesheet
