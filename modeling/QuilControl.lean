import QuilControl.Checked
import QuilControl.Decimal.Layout
import QuilControl.Decimal.Shortest
import QuilControl.Duration
import QuilControl.Expr.Basic
import QuilControl.Expr.Eval
import QuilControl.Expr.Parser
import QuilControl.Expr.Printer
import QuilControl.Expr.Simplify
import QuilControl.Fault
import QuilControl.Grid
import QuilControl.Instruction.Basic
import QuilControl.Instruction.Parser
import QuilControl.Instruction.Printer
import QuilControl.Json.Decoder
import QuilControl.Json.Number
import QuilControl.Json.Program
import QuilControl.Json.Reader
import QuilControl.Json.Readout
import QuilControl.Json.Settings
import QuilControl.Json.Token
import QuilControl.Json.Value
import QuilControl.Json.Writer
import QuilControl.MemoryReference
import QuilControl.Program.Basic
import QuilControl.Program.Edit
import QuilControl.Program.Parser
import QuilControl.Program.Printer
import QuilControl.Randomized.Append
import QuilControl.Randomized.Basic
import QuilControl.Randomized.Measurement
import QuilControl.Randomized.Parameters
import QuilControl.Randomized.UnitarySet
import QuilControl.Randomized.Zxzxz
import QuilControl.Readout.Register
import QuilControl.Readout.RegisterMap
import QuilControl.Readout.Values
import QuilControl.Recalculation.Patch
import QuilControl.Recalculation.Substitution
import QuilControl.Scalar
import QuilControl.Scalar.Double
import QuilControl.Sequencer.Error
import QuilControl.Sequencer.Seed
import QuilControl.Sequencer.ShiftRegister
import QuilControl.Sequencer.SubRegion
import QuilControl.SortedMap
import QuilControl.Telemetry.Config
import QuilControl.Telemetry.Filter
import QuilControl.Telemetry.Handle
import QuilControl.Text.Blank
import QuilControl.Text.Hexadecimal
import QuilControl.Text.Quoted
import QuilControl.Text.Unprintable
import QuilControl.Token
import QuilControl.Token.Lexer
import QuilControl.Token.Numeral
import QuilControl.Traverse
import QuilControl.Yaml.Flat
import QuilControl.Proofs.Expr.Climbing
import QuilControl.Proofs.Expr.Faults
import QuilControl.Proofs.Expr.Grammar
import QuilControl.Proofs.Expr.NormalForm
import QuilControl.Proofs.Expr.Reading
import QuilControl.Proofs.Expr.RoundTrip
import QuilControl.Proofs.Expr.Simplification
import QuilControl.Proofs.Expr.Slot
import QuilControl.Proofs.Instruction.Commented
import QuilControl.Proofs.Instruction.Faults
import QuilControl.Proofs.Instruction.Legible
import QuilControl.Proofs.Instruction.Phrase
import QuilControl.Proofs.Instruction.Reading
import QuilControl.Proofs.Instruction.RoundTrip
import QuilControl.Proofs.Instruction.Writing
import QuilControl.Proofs.Json.Number
import QuilControl.Proofs.Json.Writing
import QuilControl.Proofs.Program.Adding
import QuilControl.Proofs.Program.Alone
import QuilControl.Proofs.Program.Blocks
import QuilControl.Proofs.Program.Columns
import QuilControl.Proofs.Program.Comments
import QuilControl.Proofs.Program.Concatenation
import QuilControl.Proofs.Program.Extension
import QuilControl.Proofs.Program.History
import QuilControl.Proofs.Program.Layout
import QuilControl.Proofs.Program.Lines
import QuilControl.Proofs.Program.Opening
import QuilControl.Proofs.Program.Readable
import QuilControl.Proofs.Program.Reading
import QuilControl.Proofs.Program.RoundTrip
import QuilControl.Proofs.Program.Statements
import QuilControl.Proofs.Program.Transformed
import QuilControl.Proofs.Randomized.Appended
import QuilControl.Proofs.Randomized.Appending
import QuilControl.Proofs.Randomized.Contents
import QuilControl.Proofs.Randomized.Lengths
import QuilControl.Proofs.Readout.Assembly
import QuilControl.Proofs.Readout.Collecting
import QuilControl.Proofs.Readout.Order
import QuilControl.Proofs.Readout.Persisting
import QuilControl.Proofs.Readout.Recording
import QuilControl.Proofs.Readout.Stacking
import QuilControl.Proofs.Recalculation.Again
import QuilControl.Proofs.Recalculation.Batch
import QuilControl.Proofs.Recalculation.Constants
import QuilControl.Proofs.Recalculation.Entries
import QuilControl.Proofs.Recalculation.Patching
import QuilControl.Proofs.Recalculation.Reads
import QuilControl.Proofs.Recalculation.Refusals
import QuilControl.Proofs.Recalculation.Sites
import QuilControl.Proofs.Recalculation.Slots
import QuilControl.Proofs.Scalar.Exact
import QuilControl.Proofs.Scalar.Rational
import QuilControl.Proofs.Scalar.Rounding
import QuilControl.Proofs.Sequencer.Period
import QuilControl.Proofs.Sequencer.Request
import QuilControl.Proofs.Sequencer.Window
import QuilControl.Proofs.Telemetry.Exclusion
import QuilControl.Proofs.Text.Trim
import QuilControl.Proofs.Token.Literal
import QuilControl.Proofs.Token.Longest
import QuilControl.Proofs.Token.Numeral
import QuilControl.Proofs.Token.Reading
import QuilControl.Proofs.Token.Spans
import QuilControl.Proofs.Traverse
