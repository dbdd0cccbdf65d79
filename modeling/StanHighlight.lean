import StanHighlight.Document
import StanHighlight.Text.LineReader
import StanHighlight.Walk
import StanHighlight.Proofs.Program
import StanHighlight.Proofs.Rebuild
import StanHighlight.Proofs.Shape
import StanHighlight.Proofs.Tiling
import StanHighlight.Proofs.Run
import StanHighlight.Proofs.Stream
import StanHighlight.Proofs.Act
import StanHighlight.Proofs.StepActs
import StanHighlight.Proofs.Join
import StanHighlight.Proofs.Balance
import StanHighlight.Proofs.Brace
import StanHighlight.Proofs.Remark
import StanHighlight.Proofs.Comment
import StanHighlight.Proofs.Unmatched
import StanHighlight.Proofs.Flagged
import StanHighlight.Proofs.Inert
import StanHighlight.Proofs.RunOn
import StanHighlight.Proofs.Trailing
import StanHighlight.Proofs.Quotation
import StanHighlight.Proofs.Terminator
import StanHighlight.Proofs.RawLine
import StanHighlight.Proofs.Backing
import StanHighlight.Proofs.Naming
import StanHighlight.Proofs.Steps
import StanHighlight.Proofs.NameOnce
import StanHighlight.Proofs.Spacing
import StanHighlight.Proofs.Operand
import StanHighlight.Proofs.SyntaxTree
import StanHighlight.Proofs.Closer
import StanHighlight.Proofs.WholeWords
import StanHighlight.Proofs.Numeral
import StanHighlight.Proofs.Refused
import StanHighlight.Proofs.PlainRun
import StanHighlight.Proofs.Directive
import StanHighlight.Proofs.SectionHeader
import StanHighlight.Proofs.Prototype
import StanHighlight.Proofs.LineReading
import StanHighlight.Proofs.LookUp
import StanHighlight.Proofs.Density
import StanHighlight.Proofs.LoopVariable
import StanHighlight.Proofs.AssignedBrace
import StanHighlight.Proofs.AllOrNothing
import StanHighlight.Proofs.WalkLine
