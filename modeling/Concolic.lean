import Concolic.Bits
import Concolic.Kind
import Concolic.Entries
import Concolic.Ieee.Format
import Concolic.Ieee.Arithmetic
import Concolic.Ieee.Decimal
import Concolic.Text.Integer
import Concolic.Ieee.Literal
import Concolic.Text.Character
import Concolic.Text.Utf8
import Concolic.Text.Printable
import Concolic.Text.Hash
import Concolic.Term.Operator
import Concolic.Operation
import Concolic.Term.Basic
import Concolic.Defect
import Concolic.Term.Literal
import Concolic.Term.FloatLiteral
import Concolic.Term.Order
import Concolic.Term.Build
import Concolic.Term.Walk
import Concolic.Value.Basic
import Concolic.Value.Text
import Concolic.Input
import Concolic.Term.Eval
import Concolic.Operation.Apply
import Concolic.Branch
import Concolic.Run.Error
import Concolic.Run.Frame
import Concolic.Run.State
import Concolic.Library.Basic
import Concolic.Library.Standard
import Concolic.Machine.Instruction
import Concolic.Machine.Assembly
import Concolic.Machine.Execution
import Concolic.Log
import Concolic.Text.Duration
import Concolic.Bus.Record
import Concolic.Bus.Broker
import Concolic.Bus.Session
import Concolic.Metrics
import Concolic.Circuit.Basic
import Concolic.Circuit.Gates
import Concolic.Circuit.Arithmetic
import Concolic.Circuit.Encoding
import Concolic.Sat.Problem
import Concolic.Sat.Search
import Concolic.Solver.Basic
import Concolic.Solver.BitVector
import Concolic.Run.Basic
import Concolic.Frontier.BranchPoint
import Concolic.Frontier.Strategy
import Concolic.Frontier.Basic
import Concolic.Exploration.Settings
import Concolic.Exploration.Subject
import Concolic.Exploration.Report
import Concolic.Exploration.Derivation
import Concolic.Exploration.Basic
import Concolic.Exploration.Loop
import Concolic.Yaml.Mark
import Concolic.Yaml.Cursor
import Concolic.Yaml.Scalar
import Concolic.Yaml.Token
import Concolic.Yaml.TokenQueue
import Concolic.Yaml.Date
import Concolic.Yaml.Meaning
import Concolic.Yaml.Node
import Concolic.Config.Basic
import Concolic.Config.Document
import Concolic.Text.Base64
import Concolic.Text.Natural
import Concolic.Yaml.Layout
import Concolic.Command.Files
import Concolic.Command.Flags
import Concolic.Command.Outcome
import Concolic.Command.ReportText
import Concolic.Command.Basic
import Concolic.Main
import Concolic.Proofs.Literal
import Concolic.Proofs.Folding
import Concolic.Proofs.Order
import Concolic.Proofs.Entries
import Concolic.Proofs.Typing
import Concolic.Proofs.Denotation
import Concolic.Proofs.Simplify
import Concolic.Proofs.Operation
import Concolic.Proofs.Value
import Concolic.Proofs.Agreement
import Concolic.Proofs.Circuit.Basic
import Concolic.Proofs.Circuit.Gates
import Concolic.Proofs.Circuit.Binary
import Concolic.Proofs.Circuit.Arithmetic
import Concolic.Proofs.Circuit.Division
import Concolic.Proofs.Circuit.Shift
import Concolic.Proofs.Circuit.Encoder
import Concolic.Proofs.Circuit.Operator
import Concolic.Proofs.Circuit.Encoding
import Concolic.Proofs.Variables
import Concolic.Proofs.Solver
import Concolic.Proofs.Symbolic
import Concolic.Proofs.Library
import Concolic.Proofs.Lockstep.State
import Concolic.Proofs.MachineEffect
import Concolic.Proofs.Lockstep.Machine
import Concolic.Proofs.Lockstep.Run
import Concolic.Proofs.Assembly
import Concolic.Proofs.Exploration.Yield
import Concolic.Proofs.PathCondition
import Concolic.Proofs.Exploration.Progress
import Concolic.Proofs.Exploration.Antichain
import Concolic.Proofs.Exploration.Schedule
import Concolic.Proofs.Exploration.Invariant
import Concolic.Proofs.Exploration.Completeness
import Concolic.Proofs.Exploration.Termination
import Concolic.Proofs.Exploration.Guarantees
import Concolic.Proofs.PathDeterminism
import Concolic.Proofs.Ledger
import Concolic.Proofs.Exploration.Tally
import Concolic.Proofs.Exploration.Chronicle
import Concolic.Proofs.Exploration.Bookkeeping
import Concolic.Proofs.Safety.Shape
import Concolic.Proofs.Safety.Operation
import Concolic.Proofs.Safety.State
import Concolic.Proofs.Safety.Machine
import Concolic.Proofs.Frames
import Concolic.Proofs.Shadow.State
import Concolic.Proofs.Shadow.Machine
import Concolic.Proofs.Signature
import Concolic.Proofs.IntegerArithmetic
import Concolic.Proofs.Canonical
import Concolic.Proofs.Evaluation
import Concolic.Proofs.IntegerRoutines
import Concolic.Proofs.Assembly.Lines
import Concolic.Proofs.Assembly.Items
import Concolic.Proofs.Assembly.Language
import Concolic.Proofs.BranchKeys
import Concolic.Proofs.Isolation
import Concolic.Proofs.Exploration.Coordination
import Concolic.Proofs.Assembly.Printing
import Concolic.Proofs.TermText
import Concolic.Proofs.ValueLiteral
import Concolic.Proofs.RunEffect
import Concolic.Proofs.RunHistory
import Concolic.Proofs.Delivery
