import TemplateArgs.Alphabet
import TemplateArgs.Enclosure
import TemplateArgs.NameUnit
import TemplateArgs.Path
import TemplateArgs.Quoted
import TemplateArgs.Operand
import TemplateArgs.Argument
import TemplateArgs.Escape
import TemplateArgs.Escape.Piece
import TemplateArgs.Value
import TemplateArgs.Table
import TemplateArgs.Fault
import TemplateArgs.Bindings
import TemplateArgs.ArgumentList
import TemplateArgs.Language
import TemplateArgs.Printer
import TemplateArgs.Json
import TemplateArgs.Json.Coding
import TemplateArgs.Json.Reader
import TemplateArgs.Proofs.Front
import TemplateArgs.Proofs.NameUnit
import TemplateArgs.Proofs.Path
import TemplateArgs.Proofs.Quoted
import TemplateArgs.Proofs.Operand
import TemplateArgs.Proofs.Argument
import TemplateArgs.Proofs.Sequence
import TemplateArgs.Proofs.Munch
import TemplateArgs.Proofs.LongestPath
import TemplateArgs.Proofs.OperandKinds
import TemplateArgs.Proofs.Bindings
import TemplateArgs.Proofs.Run
import TemplateArgs.Proofs.DuplicateNames
import TemplateArgs.Proofs.RoundTrip
import TemplateArgs.Proofs.Concatenation
import TemplateArgs.Proofs.FiniteMap
import TemplateArgs.Proofs.Layout
import TemplateArgs.Proofs.Canonical
import TemplateArgs.Proofs.Log
import TemplateArgs.Proofs.ClosingQuote
import TemplateArgs.Proofs.Pieces
import TemplateArgs.Proofs.JsonText
import TemplateArgs.Proofs.LiteralEscapes
import TemplateArgs.Proofs.Serialization
import TemplateArgs.Proofs.Assignment
import TemplateArgs.Proofs.UnitNames
import TemplateArgs.Proofs.Shrinking
import TemplateArgs.Proofs.Progress
