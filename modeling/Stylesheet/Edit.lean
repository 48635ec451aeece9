import Stylesheet.Options
import Stylesheet.Span

/-!
# Edits

An edit names a node by its number and says what becomes of the text at the node's span. It changes
text, not trees: what is put in need not be valid where it goes.
-/

namespace Stylesheet

/-- A change to the text of a node. -/
inductive Edit where
  | remove (target : Nat)
  | replace (target : Nat) (css : String)
  | insertBefore (target : Nat) (css : String)
  | insertAfter (target : Nat) (css : String)
  deriving DecidableEq, Repr, Inhabited

namespace Edit

/-- The number of the node. -/
def target : Edit → Nat
  | remove t | replace t _ | insertBefore t _ | insertAfter t _ => t

/-- The text that is put in. -/
def css : Edit → String
  | remove _ => ""
  | replace _ text | insertBefore _ text | insertAfter _ text => text

/-- The part of the text that is given up, for a node with a given span. -/
def range (span : Span) : Edit → Span
  | remove _ | replace _ _ => span
  | insertBefore _ _ => ⟨span.start, span.start⟩
  | insertAfter _ _ => ⟨span.stop, span.stop⟩

/-- Load an edit. Targets are below `2 ^ 32`. -/
def ofJson? (j : Json) : Option Edit := do
  let kind ← (j.field? 0 "kind").bind Json.text?
  let target ← (j.field? 1 "target").bind Json.toNatural?
  guard (target < UInt32.size)
  let withText (make : String → Edit) : Option Edit := do
    guard (j.isRecord 3)
    some (make (← (j.field? 2 "css").bind Json.text?))
  match kind with
  | "removeNode" => if j.isRecord 2 then some (remove target) else none
  | "replaceNode" => withText (replace target)
  | "insertCssBefore" => withText (insertBefore target)
  | "insertCssAfter" => withText (insertAfter target)
  | _ => none

end Edit

end Stylesheet
