import Stylesheet.Text.Class
import Stylesheet.Text.Case

/-!
# Entry points of the grammar
-/

namespace Stylesheet

/-- What a text is read as. -/
inductive Context where
  | stylesheet | atrule | atrulePrelude | mediaQueryList | mediaQuery | condition | rule
  | selectorList | selector | block | declarationList | declaration | value
  deriving DecidableEq, Repr, Inhabited

namespace Context

/-- The name a context is shown by. -/
def name : Context → String
  | stylesheet => "stylesheet"
  | atrule => "atrule"
  | atrulePrelude => "atrulePrelude"
  | mediaQueryList => "mediaQueryList"
  | mediaQuery => "mediaQuery"
  | condition => "condition"
  | rule => "rule"
  | selectorList => "selectorList"
  | selector => "selector"
  | block => "block"
  | declarationList => "declarationList"
  | declaration => "declaration"
  | value => "value"

/-- The context a caller names. Surrounding white space and ASCII case do not count, words may be
joined by hyphens, and a list of rules is read like a single rule. -/
def ofName? (name : String) : Option Context :=
  match Text.lowerAscii (Text.trim name) with
  | "stylesheet" => some stylesheet
  | "atrule" | "at-rule" => some atrule
  | "atruleprelude" | "at-rule-prelude" => some atrulePrelude
  | "mediaquerylist" | "media-query-list" => some mediaQueryList
  | "mediaquery" | "media-query" => some mediaQuery
  | "condition" => some condition
  | "rule" | "rulelist" | "rule-list" => some rule
  | "selectorlist" | "selector-list" => some selectorList
  | "selector" => some selector
  | "block" => some block
  | "declarationlist" | "declaration-list" => some declarationList
  | "declaration" => some declaration
  | "value" => some value
  | _ => none

end Context

end Stylesheet
