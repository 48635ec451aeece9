import Stylesheet.Canonical
import Stylesheet.Specificity

/-!
# Style signals

The signals of a style sheet say for every style rule, at any depth and in the order of the text, how
specific its selectors are and what it declares. No cascade is resolved; a rule's place in it is its
position among all style rules, those left out included.
-/

namespace Stylesheet

/-- What a declaration says. -/
structure DeclarationSignal where
  id : Nat
  /-- The property in lower case. -/
  property : String
  value : String
  important : Bool
  /-- Position among the declarations of its block. -/
  order : Nat
  deriving DecidableEq, Repr, Inhabited

/-- What a style rule says. -/
structure RuleSignal where
  id : Nat
  /-- Position among all style rules. -/
  order : Nat
  selectorText : String
  supported : Bool
  /-- The specificities of the selectors in order. -/
  specificities : List Specificity
  declarations : List DeclarationSignal
  deriving DecidableEq, Repr, Inhabited

/-- The greatest specificity of a rule, or none at all if it has no selector. -/
def RuleSignal.specificity (r : RuleSignal) : Specificity :=
  (Specificity.greatest? r.specificities).getD {}

/-- Why signals have no result. -/
inductive SignalFailure where
  | parse (e : Failure)
  | unsupported (id : Nat) (selectorText : String)
  deriving DecidableEq, Repr, Inhabited

/-- The wording of the failure. -/
def SignalFailure.message : SignalFailure → String
  | parse e => e.message
  | unsupported _ selectorText => "unsupported selector in strict mode: " ++ selectorText

namespace Signal

/-- What the declaration at a position says. -/
def declaration (order : Nat) (n : Node Mark) : DeclarationSignal :=
  { id := n.note.id
    property := Text.lower (n.detail.property?.getD "")
    value := (n.children.head?.map fun v => Text.trim v.canonical).getD ""
    important := n.detail.important
    order := order }

/-- What the declarations right below a node say. -/
def declarations (block : Node Mark) : List DeclarationSignal :=
  (block.children.filter fun c => c.kind = .declaration).mapIdx declaration

/-- A style rule and its list of selectors. -/
def styleRule? (n : Node Mark) : Option (Node Mark × Node Mark) :=
  if n.kind = .rule then (n.child? .selectorList).map fun list => (n, list) else none

/-- What the style rule at a position says. -/
def rule (order : Nat) (pair : Node Mark × Node Mark) : RuleSignal :=
  let (rule, list) := pair
  let selectors := SelectorList.ofNode list.canonical list []
  { id := rule.note.id
    order := order
    selectorText := list.canonical
    supported := selectors.supported
    specificities := selectors.selectors.map Selector.specificity
    declarations := ((rule.child? .block).map declarations).getD [] }

/-- The style rules of a tree in the order of the text. -/
def styleRules (root : Node Mark) : List (Node Mark × Node Mark) := root.nodes.filterMap styleRule?

/-- What style rules say, the first of which has the position `order` among all. At a rule whose
selectors are not supported the collection fails, keeps the rule or leaves it out, as the options
say; the positions of the rules after it are the same in any case. -/
def collect (options : SignalOptions) (order : Nat) :
    List (Node Mark × Node Mark) → Except SignalFailure (List RuleSignal)
  | [] => .ok []
  | pair :: pairs =>
    let signal := rule order pair
    if !signal.supported && options.strict then
      .error (.unsupported signal.id signal.selectorText)
    else if !signal.supported && !options.includeUnsupported then
      collect options (order + 1) pairs
    else (collect options (order + 1) pairs).map (signal :: ·)

end Signal

/-- The signals of a style sheet. -/
def styleSignals (css : String) (options : SignalOptions) (clock : Clock := {}) :
    Except SignalFailure (List RuleSignal) :=
  match parse css { budgets := options.budgets } clock with
  | .ok d => Signal.collect options 0 (Signal.styleRules d.root)
  | .error e => .error (.parse e)

/-- The signals of a list of declarations. -/
def inlineSignals (css : String) : List DeclarationSignal :=
  Signal.declarations (Document.treeOf false .declarationList (tokenize css)).value

end Stylesheet
