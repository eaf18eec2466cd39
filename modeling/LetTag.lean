import LetTag.Arrow
import LetTag.Arrow.Marking
import LetTag.Binding
import LetTag.Closure
import LetTag.Declaration
import LetTag.Demo
import LetTag.Diagnostic
import LetTag.Entity
import LetTag.Error
import LetTag.Json.Reader
import LetTag.Json.Writer
import LetTag.Literal
import LetTag.Main
import LetTag.Mask
import LetTag.Number.Binary
import LetTag.Number.Shortest
import LetTag.Pass
import LetTag.Proofs.Accord
import LetTag.Proofs.Allocation
import LetTag.Proofs.Calling
import LetTag.Proofs.Compilation
import LetTag.Proofs.Completion
import LetTag.Proofs.Composition
import LetTag.Proofs.Confinement
import LetTag.Proofs.Content
import LetTag.Proofs.Decoding
import LetTag.Proofs.Delegation
import LetTag.Proofs.Denotation
import LetTag.Proofs.Description
import LetTag.Proofs.Division
import LetTag.Proofs.Enclosure
import LetTag.Proofs.Encoding
import LetTag.Proofs.Expansion
import LetTag.Proofs.FieldNames
import LetTag.Proofs.Fields
import LetTag.Proofs.Framing
import LetTag.Proofs.FunctionText
import LetTag.Proofs.Indentation
import LetTag.Proofs.Insertion
import LetTag.Proofs.JsonScalar
import LetTag.Proofs.JsonText
import LetTag.Proofs.KeptText
import LetTag.Proofs.KeyOrder
import LetTag.Proofs.Lexing
import LetTag.Proofs.Lookahead
import LetTag.Proofs.Margin
import LetTag.Proofs.MarkedOnce
import LetTag.Proofs.MarkedText
import LetTag.Proofs.Marking
import LetTag.Proofs.Merging
import LetTag.Proofs.Nesting
import LetTag.Proofs.Numeral
import LetTag.Proofs.Occurrence
import LetTag.Proofs.Parsing
import LetTag.Proofs.Pass
import LetTag.Proofs.Passing
import LetTag.Proofs.Placing
import LetTag.Proofs.Position
import LetTag.Proofs.Printing
import LetTag.Proofs.RawText
import LetTag.Proofs.Rebuilding
import LetTag.Proofs.Recognition
import LetTag.Proofs.Reconstruction
import LetTag.Proofs.References
import LetTag.Proofs.Renaming
import LetTag.Proofs.Reporting
import LetTag.Proofs.Requests
import LetTag.Proofs.Rereading
import LetTag.Proofs.Returning
import LetTag.Proofs.Segmentation
import LetTag.Proofs.Sending
import LetTag.Proofs.Shape
import LetTag.Proofs.Shifting
import LetTag.Proofs.Source
import LetTag.Proofs.Spelling
import LetTag.Proofs.Stillness
import LetTag.Proofs.Table
import LetTag.Proofs.Tagging
import LetTag.Proofs.Text
import LetTag.Proofs.TopLevel
import LetTag.Proofs.Weaving
import LetTag.Proofs.Wire
import LetTag.Proofs.Written
import LetTag.Record
import LetTag.Registry
import LetTag.Response
import LetTag.Route
import LetTag.Scalar
import LetTag.Script.Call
import LetTag.Script.Fault
import LetTag.Script.Integer
import LetTag.Script.Machine
import LetTag.Script.Operator
import LetTag.Script.Parse
import LetTag.Script.Run
import LetTag.Script.Syntax
import LetTag.Script.Token
import LetTag.Settings
import LetTag.Statements
import LetTag.Store
import LetTag.Table
import LetTag.Text.Blank
import LetTag.Text.Digits
import LetTag.Text.LetterCase
import LetTag.Text.Line
import LetTag.Text.Name
import LetTag.Text.Printable
import LetTag.Text.Quoted
import LetTag.Text.Ranges
import LetTag.Text.Word
import LetTag.Value
import LetTag.Value.Describe
import LetTag.Value.Equal
import LetTag.Value.Shown
import LetTag.Yaml.Node
import LetTag.Yaml.Plain
import LetTag.Yaml.Reader
import LetTag.Yaml.Token
import LetTag.Yaml.Writer
