import QasmStudio.Artifact
import QasmStudio.Cbor.Head
import QasmStudio.Cbor.Item
import QasmStudio.Cbor.Record
import QasmStudio.Circuit.Cell
import QasmStudio.Circuit.Drawing
import QasmStudio.Circuit.Op
import QasmStudio.Circuit.Reader
import QasmStudio.Circuit.Schedule
import QasmStudio.Cli.Flags
import QasmStudio.Cli.Run
import QasmStudio.Convert.BuildId
import QasmStudio.Convert.Call
import QasmStudio.Convert.Config
import QasmStudio.Convert.Context
import QasmStudio.Convert.Flow
import QasmStudio.Convert.Gate
import QasmStudio.Convert.Monad
import QasmStudio.Convert.Operator
import QasmStudio.Convert.Pulse
import QasmStudio.Convert.Qubit
import QasmStudio.Convert.Routine
import QasmStudio.Convert.Run
import QasmStudio.Convert.Variable
import QasmStudio.Demo.Basic
import QasmStudio.Demo.Builtin
import QasmStudio.Error
import QasmStudio.Fault
import QasmStudio.FileTree
import QasmStudio.Lang.Angle
import QasmStudio.Lang.Expr
import QasmStudio.Lang.Program
import QasmStudio.Lang.Register
import QasmStudio.Lang.Stmt
import QasmStudio.Lang.Type
import QasmStudio.Main
import QasmStudio.Number.Fixed
import QasmStudio.Number.Format
import QasmStudio.Number.General
import QasmStudio.Number.Reader
import QasmStudio.Number.Shortest
import QasmStudio.Number.Word
import QasmStudio.Preview.Editor
import QasmStudio.Preview.Model
import QasmStudio.Preview.Panel
import QasmStudio.Preview.View
import QasmStudio.Preview.Wrap
import QasmStudio.Record
import QasmStudio.Script.Operand
import QasmStudio.Script.Workbench
import QasmStudio.Settings
import QasmStudio.StateVector.Amplitude
import QasmStudio.StateVector.Gate
import QasmStudio.StateVector.Histogram
import QasmStudio.StateVector.Kernel
import QasmStudio.StateVector.Simulate
import QasmStudio.Text.Blank
import QasmStudio.Text.Case
import QasmStudio.Text.Cluster
import QasmStudio.Text.Cluster.Table
import QasmStudio.Text.Printable
import QasmStudio.Text.Quoted
import QasmStudio.Text.Runs
import QasmStudio.Text.Split
import QasmStudio.Text.Width
import QasmStudio.Toml.Draft
import QasmStudio.Toml.Reader
import QasmStudio.Toml.Scalar
import QasmStudio.Toml.Value
import QasmStudio.Value
import QasmStudio.Proofs.Text.Cut
import QasmStudio.Proofs.Number.Doubles
import QasmStudio.Proofs.Number.Rounding
import QasmStudio.Proofs.Number.Shortest
import QasmStudio.Proofs.Number.Word
import QasmStudio.Proofs.Number.Spelling
import QasmStudio.Proofs.Number.General
import QasmStudio.Proofs.Lang.Angle
import QasmStudio.Proofs.Lang.AngleGrammar
import QasmStudio.Proofs.Lang.GeneratedNames
import QasmStudio.Proofs.Lang.Occurrences
import QasmStudio.Proofs.Lang.Legible
import QasmStudio.Proofs.Lang.Literals
import QasmStudio.Proofs.Lang.Renaming
import QasmStudio.Proofs.Lang.Scope
import QasmStudio.Proofs.Lang.Tables
import QasmStudio.Proofs.Lang.Texts
import QasmStudio.Proofs.Lang.Unambiguous
import QasmStudio.Proofs.Lang.TypeTexts
import QasmStudio.Proofs.Lang.ZeroValues
import QasmStudio.Proofs.Cbor.ReadBack
import QasmStudio.Proofs.Cbor.Codec
import QasmStudio.Proofs.Cbor.Artifact
import QasmStudio.Proofs.Files.Nearest
import QasmStudio.Proofs.Script.Moves
import QasmStudio.Proofs.Script.Reachable
import QasmStudio.Proofs.Script.Failure
import QasmStudio.Proofs.Circuit.Operands
import QasmStudio.Proofs.Circuit.Statements
import QasmStudio.Proofs.Circuit.Lines
import QasmStudio.Proofs.Circuit.Take
import QasmStudio.Proofs.Circuit.Draw
import QasmStudio.Proofs.Circuit.Schedule
import QasmStudio.Proofs.Circuit.ReadBack
import QasmStudio.Proofs.Circuit.Extent
import QasmStudio.Proofs.Circuit.Clear
import QasmStudio.Proofs.Circuit.Complete
import QasmStudio.Proofs.Circuit.Flow
import QasmStudio.Proofs.Circuit.CallTexts
import QasmStudio.Proofs.Circuit.Definitions
import QasmStudio.Proofs.Circuit.Grid
import QasmStudio.Proofs.Circuit.Layout
import QasmStudio.Proofs.StateVector.Order
import QasmStudio.Proofs.StateVector.Total
import QasmStudio.Proofs.StateVector.Pointwise
import QasmStudio.Proofs.Convert.Names
import QasmStudio.Proofs.Convert.Writes
import QasmStudio.Proofs.Convert.Advance
import QasmStudio.Proofs.Convert.Additions
import QasmStudio.Proofs.Convert.Apply
import QasmStudio.Proofs.Convert.Operations
import QasmStudio.Proofs.Convert.Follows
import QasmStudio.Proofs.Convert.Bodies
import QasmStudio.Proofs.Convert.Interpreter
import QasmStudio.Proofs.Convert.Balance
import QasmStudio.Proofs.Convert.RegisterSound
import QasmStudio.Proofs.Convert.Judgement
import QasmStudio.Proofs.Convert.Relay
import QasmStudio.Proofs.Convert.SourceTags
import QasmStudio.Proofs.Convert.CalibrationQubits
import QasmStudio.Proofs.Convert.DefinitionBodies
import QasmStudio.Proofs.Convert.Boxes
import QasmStudio.Proofs.Convert.CallFrame
import QasmStudio.Proofs.Convert.Everywhere
import QasmStudio.Proofs.Convert.Callees
import QasmStudio.Proofs.Convert.Comparisons
import QasmStudio.Proofs.Convert.Declarations
import QasmStudio.Proofs.Convert.Pairing
import QasmStudio.Proofs.Convert.Supply
import QasmStudio.Proofs.Convert.TwinOperations
import QasmStudio.Proofs.Convert.TwinRuns
import QasmStudio.Proofs.Convert.DefinitionPlace
import QasmStudio.Proofs.Convert.Gains
import QasmStudio.Proofs.Convert.Keeps
import QasmStudio.Proofs.Convert.GateTable
import QasmStudio.Proofs.Convert.Origins
import QasmStudio.Proofs.Convert.FailedGates
import QasmStudio.Proofs.Convert.FailedCalls
import QasmStudio.Proofs.Convert.FinishedContext
import QasmStudio.Proofs.Convert.FreshNames
import QasmStudio.Proofs.Convert.GateAngles
import QasmStudio.Proofs.Convert.Jumps
import QasmStudio.Proofs.Convert.NamesOnce
import QasmStudio.Proofs.Convert.Ranges
import QasmStudio.Proofs.Convert.RecursionGuard
import QasmStudio.Proofs.Convert.Termination
import QasmStudio.Proofs.Preview.Session
