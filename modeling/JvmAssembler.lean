import JvmAssembler.AccessFlags
import JvmAssembler.Analysis.Basic
import JvmAssembler.Analysis.Progress
import JvmAssembler.Analysis.Step
import JvmAssembler.Body
import JvmAssembler.Bytes
import JvmAssembler.CommandLine.Disk
import JvmAssembler.CommandLine.Options
import JvmAssembler.CommandLine.Path
import JvmAssembler.CommandLine.Report
import JvmAssembler.CommandLine.Session
import JvmAssembler.Constant.Basic
import JvmAssembler.Constant.Entry
import JvmAssembler.Constant.ModifiedUtf8
import JvmAssembler.Constant.Pool
import JvmAssembler.Descriptor.Basic
import JvmAssembler.Descriptor.Read
import JvmAssembler.Error
import JvmAssembler.Evaluate.Basic
import JvmAssembler.Evaluate.Constant
import JvmAssembler.Evaluate.Control
import JvmAssembler.Evaluate.Local
import JvmAssembler.Evaluate.Object
import JvmAssembler.Evaluate.Operand
import JvmAssembler.Frame.Basic
import JvmAssembler.Frame.Effect
import JvmAssembler.Frame.Slack
import JvmAssembler.Frame.Value
import JvmAssembler.Ieee.Decimal
import JvmAssembler.Ieee.Format
import JvmAssembler.Ieee.Shortest
import JvmAssembler.Instruction.Basic
import JvmAssembler.Instruction.Effect
import JvmAssembler.Instruction.Encode
import JvmAssembler.Instruction.Kind
import JvmAssembler.Journal
import JvmAssembler.Label
import JvmAssembler.Listing.Error
import JvmAssembler.Listing.Operand
import JvmAssembler.Listing.Read
import JvmAssembler.Listing.Statement
import JvmAssembler.Listing.Token
import JvmAssembler.Local
import JvmAssembler.Main
import JvmAssembler.Method.Compile
import JvmAssembler.Method.Emit
import JvmAssembler.Method.Layout
import JvmAssembler.Method.Signature
import JvmAssembler.Mnemonic
import JvmAssembler.Name
import JvmAssembler.Proofs.Analysis.Allocation
import JvmAssembler.Proofs.Analysis.Arrival
import JvmAssembler.Proofs.Analysis.Course
import JvmAssembler.Proofs.Analysis.Fixpoint
import JvmAssembler.Proofs.Analysis.Flow
import JvmAssembler.Proofs.Analysis.Genuine
import JvmAssembler.Proofs.Analysis.Least
import JvmAssembler.Proofs.Analysis.PathSoundness
import JvmAssembler.Proofs.Analysis.StackBound
import JvmAssembler.Proofs.Analysis.Termination
import JvmAssembler.Proofs.Analysis.Verdict
import JvmAssembler.Proofs.Analysis.WellFormed
import JvmAssembler.Proofs.Checked.Analysis
import JvmAssembler.Proofs.Checked.Basic
import JvmAssembler.Proofs.Checked.Code
import JvmAssembler.Proofs.Checked.Compile
import JvmAssembler.Proofs.Checked.Layout
import JvmAssembler.Proofs.Checked.StackMap
import JvmAssembler.Proofs.Constant.Interning
import JvmAssembler.Proofs.Constant.ModifiedUtf8
import JvmAssembler.Proofs.Constant.Overflow
import JvmAssembler.Proofs.Constant.ReadBack
import JvmAssembler.Proofs.Constant.Resolve
import JvmAssembler.Proofs.Constant.Utf16
import JvmAssembler.Proofs.Descriptor.Grammar
import JvmAssembler.Proofs.Descriptor.RoundTrip
import JvmAssembler.Proofs.Failure
import JvmAssembler.Proofs.Frame.Construction
import JvmAssembler.Proofs.Frame.Contents
import JvmAssembler.Proofs.Frame.Join
import JvmAssembler.Proofs.Frame.LocalAccess
import JvmAssembler.Proofs.Frame.Monotone
import JvmAssembler.Proofs.Frame.Order
import JvmAssembler.Proofs.Frame.Origin
import JvmAssembler.Proofs.Frame.Renumber
import JvmAssembler.Proofs.Frame.Shape
import JvmAssembler.Proofs.Frame.Slots
import JvmAssembler.Proofs.Frame.Untouched
import JvmAssembler.Proofs.Instruction.Decode
import JvmAssembler.Proofs.Instruction.Dispatch
import JvmAssembler.Proofs.Instruction.Encodable
import JvmAssembler.Proofs.Instruction.Encode
import JvmAssembler.Proofs.Instruction.Mnemonic
import JvmAssembler.Proofs.Instruction.Read
import JvmAssembler.Proofs.Instruction.Related
import JvmAssembler.Proofs.Instruction.Sequence
import JvmAssembler.Proofs.Instruction.Template
import JvmAssembler.Proofs.Listing.Numbers
import JvmAssembler.Proofs.Listing.Positions
import JvmAssembler.Proofs.Listing.Printing
import JvmAssembler.Proofs.Listing.Quoted
import JvmAssembler.Proofs.Listing.Reading
import JvmAssembler.Proofs.Local.Allocation
import JvmAssembler.Proofs.Local.Names
import JvmAssembler.Proofs.Local.Requests
import JvmAssembler.Proofs.Method.Blocks
import JvmAssembler.Proofs.Method.Certificate
import JvmAssembler.Proofs.Method.Code
import JvmAssembler.Proofs.Method.DeepStack
import JvmAssembler.Proofs.Method.Encodable
import JvmAssembler.Proofs.Method.Evaluate
import JvmAssembler.Proofs.Method.Failure
import JvmAssembler.Proofs.Method.FieldWidths
import JvmAssembler.Proofs.Method.ImplicitReturn
import JvmAssembler.Proofs.Method.Layout
import JvmAssembler.Proofs.Method.LocalAccess
import JvmAssembler.Proofs.Method.PoolHistory
import JvmAssembler.Proofs.Method.PoolIndependence
import JvmAssembler.Proofs.Method.Reachability
import JvmAssembler.Proofs.Method.Stages
import JvmAssembler.Proofs.Method.Switch
import JvmAssembler.Proofs.SlotVec.History
import JvmAssembler.Proofs.StackMap.Check
import JvmAssembler.Proofs.StackMap.Compact
import JvmAssembler.Proofs.StackMap.Decode
import JvmAssembler.Proofs.StackMap.Frames
import JvmAssembler.Proofs.StackMap.Locals
import JvmAssembler.Proofs.StackMap.ReadBack
import JvmAssembler.Proofs.StackMap.Targets
import JvmAssembler.Proofs.Success
import JvmAssembler.Proofs.Text.Lines
import JvmAssembler.Proofs.Text.Numeral
import JvmAssembler.Queue
import JvmAssembler.SlotVec
import JvmAssembler.Source.Instruction
import JvmAssembler.Source.Method
import JvmAssembler.Source.Position
import JvmAssembler.StackMap.Encode
import JvmAssembler.StackMap.Entry
import JvmAssembler.StackMap.Table
import JvmAssembler.Text.Alphanumeric
import JvmAssembler.Text.Blank
import JvmAssembler.Text.Lines
import JvmAssembler.Text.Numeral
import JvmAssembler.Text.Plain
import JvmAssembler.Text.Quoted
import JvmAssembler.Text.Runs
import JvmAssembler.Text.Split
