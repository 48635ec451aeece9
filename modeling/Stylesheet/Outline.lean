import Stylesheet.Canonical
import Stylesheet.Text.Position
import Stylesheet.Tree

/-!
# Outlines

An outline lists the rules, at-rules, declarations and selectors of a tree in the order of its text,
each with its depth and the front of its canonical text.
-/

namespace Stylesheet

/-- A node as an outline shows it. -/
structure OutlineEntry where
  id : Nat
  depth : Nat
  kind : NodeKind
  text : String
  deriving DecidableEq, Repr, Inhabited

namespace OutlineEntry

/-- The number of characters of canonical text that an entry shows. -/
def maxChars : Nat := 200

end OutlineEntry

/-- The kinds of nodes that an outline lists. -/
def NodeKind.isOutlined : NodeKind → Bool
  | rule | atrule | declaration | selector => true
  | _ => false

/-- The outline of a tree. -/
def Node.outline (n : Node Mark) : List OutlineEntry :=
  (n.walk.filter fun visit => visit.1.kind.isOutlined).map fun (n, depth) =>
    ⟨n.note.id, depth, n.kind, Text.takeChars OutlineEntry.maxChars n.canonical⟩

end Stylesheet
