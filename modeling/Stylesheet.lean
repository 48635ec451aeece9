import Stylesheet.Token.Nesting
import Stylesheet.Grammar
import Stylesheet.Canonical
import Stylesheet.Json.Read
import Stylesheet.Document.Json
import Stylesheet.Outline
import Stylesheet.Chunk
import Stylesheet.Text.Lowercase
import Stylesheet.Patch
import Stylesheet.Stream
import Stylesheet.Query
import Stylesheet.Signal
import Stylesheet.Proofs.TreeIndex
import Stylesheet.Proofs.Matching
import Stylesheet.Proofs.Query
import Stylesheet.Proofs.Run
import Stylesheet.Proofs.Tokenize
import Stylesheet.Proofs.Placement.Node
import Stylesheet.Proofs.Placement.Value
import Stylesheet.Proofs.Placement.Selector
import Stylesheet.Proofs.Placement.Rule
import Stylesheet.Proofs.Placement.Document
import Stylesheet.Proofs.Numbering
import Stylesheet.Proofs.Building
import Stylesheet.Proofs.Patch.Resolve
import Stylesheet.Proofs.Patch.Check
import Stylesheet.Proofs.Patch.Plan
import Stylesheet.Proofs.Spelling.Sheet
import Stylesheet.Proofs.Decoding
import Stylesheet.Proofs.Stream
import Stylesheet.Proofs.Spelling.Fragment
import Stylesheet.Proofs.Concat.Document
import Stylesheet.Proofs.Regular.Node
import Stylesheet.Proofs.Regular.Value
import Stylesheet.Proofs.Regular.Selector
import Stylesheet.Proofs.Regular.Document
import Stylesheet.Proofs.Matched
import Stylesheet.Proofs.Kept.Document
import Stylesheet.Proofs.Cursor.Range
import Stylesheet.Proofs.Cursor.Value
import Stylesheet.Proofs.Cursor.Selector
import Stylesheet.Proofs.Cursor.Rule
import Stylesheet.Proofs.Cursor.Document
import Stylesheet.Proofs.Removal.Lexeme
import Stylesheet.Proofs.Removal.Pairing
import Stylesheet.Proofs.Removal.Token
import Stylesheet.Proofs.Removal.Text
import Stylesheet.Proofs.Removal.Item
import Stylesheet.Proofs.Removal.Node
import Stylesheet.Proofs.Removal.Scope
import Stylesheet.Proofs.Removal.Rule
import Stylesheet.Proofs.Removal.Open
import Stylesheet.Proofs.Removal.Document
import Stylesheet.Proofs.Limits.Measure
import Stylesheet.Proofs.Limits.Reading
import Stylesheet.Proofs.Limits.Prepared
import Stylesheet.Proofs.Limits.Stream
import Stylesheet.Proofs.Limits.Options
import Stylesheet.Proofs.Limits.Traced
import Stylesheet.Proofs.Inherited
import Stylesheet.Proofs.Verbatim.Node
import Stylesheet.Proofs.Verbatim.Value
import Stylesheet.Proofs.Verbatim.Selector
import Stylesheet.Proofs.Verbatim.Document
import Stylesheet.Proofs.Nesting.Ending
import Stylesheet.Proofs.Nesting.Level
import Stylesheet.Proofs.Nesting.Shallow
import Stylesheet.Proofs.Nesting.WellFormed
import Stylesheet.Proofs.Nesting.Balanced
import Stylesheet.Proofs.Nesting.Brackets
import Stylesheet.Proofs.Depth.Value
import Stylesheet.Proofs.Depth.Selector
import Stylesheet.Proofs.Depth.Document
import Stylesheet.Proofs.Compiled.Part
import Stylesheet.Proofs.Compiled.Selector
import Stylesheet.Proofs.Compiled.Identifier
import Stylesheet.Proofs.Signal
import Stylesheet.Proofs.Folding
import Stylesheet.Proofs.Attribute
import Stylesheet.Proofs.Compiled.Name
import Stylesheet.Proofs.Compiled.Folded
import Stylesheet.Proofs.Recompiled.Token
import Stylesheet.Proofs.Recompiled.Part
import Stylesheet.Proofs.Recompiled.Selector
import Stylesheet.Proofs.Recompiled.Source
import Stylesheet.Proofs.Recompiled.Document
import Stylesheet.Proofs.Enclosed.Token
import Stylesheet.Proofs.Enclosed.Rule
import Stylesheet.Proofs.Enclosed.Signal
import Stylesheet.Proofs.Enclosed.Recovery
import Stylesheet.Proofs.Declared.Node
import Stylesheet.Proofs.Declared.Important
import Stylesheet.Proofs.Declared.Custom
import Stylesheet.Proofs.Chunked.Division
import Stylesheet.Proofs.Chunked.Rejoined
import Stylesheet.Proofs.Encoded.Utf8
import Stylesheet.Proofs.Encoded.Utf16
import Stylesheet.Proofs.Encoded.Portions
import Stylesheet.Proofs.Encoded.Charset
import Stylesheet.Proofs.Encoded.Sniffed
import Stylesheet.Proofs.Spelling.Payload
import Stylesheet.Proofs.Dimension.Numeral
import Stylesheet.Proofs.Dimension.Unit
import Stylesheet.Proofs.Reported.Position
import Stylesheet.Proofs.Reported.Error
