import PatchCode.Text.Blank
import PatchCode.Text.Radix
import PatchCode.Fault
import PatchCode.Literal.Integer
import PatchCode.Literal.Binary
import PatchCode.Literal.Decimal
import PatchCode.Literal.Quoted
import PatchCode.Source.Line
import PatchCode.Source.Cursor
import PatchCode.Address
import PatchCode.Bytes
import PatchCode.Data
import PatchCode.ValueType
import PatchCode.Instruction.Basic
import PatchCode.Instruction.Operand
import PatchCode.Instruction.Form
import PatchCode.Patch.Basic
import PatchCode.Patch.Printer
import PatchCode.Patch.Flatten
import PatchCode.Patch.Merge
import PatchCode.Patch.Realign
import PatchCode.Patch.Pass
import PatchCode.Plan
import PatchCode.Record
import PatchCode.Session.Statistics
import PatchCode.Diagnostic
import PatchCode.Event
import PatchCode.Listing
import PatchCode.ActionReplay
import PatchCode.Gecko
import PatchCode.Dump
import PatchCode.Dialect
import PatchCode.Memory.Image
import PatchCode.Memory.Replay
import PatchCode.Traced
import PatchCode.Statement
import PatchCode.Outline
import PatchCode.Assembly
import PatchCode.Session
import PatchCode.CommandLine
import PatchCode.Main
import PatchCode.Proofs.Address
import PatchCode.Proofs.Effects
import PatchCode.Proofs.Execution
import PatchCode.Proofs.Idempotence
import PatchCode.Proofs.Recutting
import PatchCode.Proofs.NormalForm
import PatchCode.Proofs.Diagnostics
import PatchCode.Proofs.Pruning
import PatchCode.Proofs.Positional
import PatchCode.Proofs.Codec
import PatchCode.Proofs.Readability
import PatchCode.Proofs.Plan
import PatchCode.Proofs.PlainProgram
import PatchCode.Proofs.Meaning
import PatchCode.Proofs.ActionReplayMachine
import PatchCode.Proofs.ActionReplayMeaning
import PatchCode.Proofs.Terminator
import PatchCode.Proofs.GeckoComparison
import PatchCode.Proofs.GeckoMeaning
import PatchCode.Proofs.GeckoEncodings
import PatchCode.Proofs.Assembling
import PatchCode.Proofs.Faults
import PatchCode.Proofs.Placement
import PatchCode.Proofs.IntegerLiteral
import PatchCode.Proofs.Numeral
import PatchCode.Proofs.IntegerData
import PatchCode.Proofs.Repetition
import PatchCode.Proofs.Closing
import PatchCode.Proofs.WellFormed
import PatchCode.Proofs.Relocation
import PatchCode.Proofs.Layout
import PatchCode.Proofs.Sessions
import PatchCode.Proofs.Boundaries
import PatchCode.Proofs.Decoding
import PatchCode.Proofs.PlanCost
import PatchCode.Proofs.Compactness
import PatchCode.Proofs.Branching
import PatchCode.Proofs.Coarsening
import PatchCode.Proofs.Quotation
import PatchCode.Proofs.ReplayAppend
import PatchCode.Proofs.DoubleRounding
import PatchCode.Proofs.DecimalLiteral
import PatchCode.Proofs.BlockExtent
import PatchCode.Proofs.Descent
import PatchCode.Proofs.RecordLine
