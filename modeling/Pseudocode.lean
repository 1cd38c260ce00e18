import Pseudocode.Builtin
import Pseudocode.Console.Arguments
import Pseudocode.Console.Command
import Pseudocode.Console.Path
import Pseudocode.Console.Scripted
import Pseudocode.Console.Terminal
import Pseudocode.Debugger
import Pseudocode.Diagnostics
import Pseudocode.Evaluate
import Pseudocode.Execute
import Pseudocode.Fault
import Pseudocode.FileTable
import Pseudocode.Host
import Pseudocode.Journal
import Pseudocode.Machine
import Pseudocode.Main
import Pseudocode.Memory
import Pseudocode.Memory.Contexts
import Pseudocode.Memory.Grid
import Pseudocode.Number.Binary64
import Pseudocode.Number.Decimal
import Pseudocode.Number.Division
import Pseudocode.Number.Power
import Pseudocode.Number.Random
import Pseudocode.Number.Reading
import Pseudocode.Parse
import Pseudocode.Parse.Cursor
import Pseudocode.Parse.Expression
import Pseudocode.Parse.Statement
import Pseudocode.Proofs.Activity
import Pseudocode.Proofs.Attempts
import Pseudocode.Proofs.Conduct
import Pseudocode.Proofs.Course
import Pseudocode.Proofs.Comparison
import Pseudocode.Proofs.Manners
import Pseudocode.Proofs.Execution
import Pseudocode.Proofs.Forms
import Pseudocode.Proofs.Frame
import Pseudocode.Proofs.Limits
import Pseudocode.Proofs.Roles
import Pseudocode.Proofs.Steps
import Pseudocode.Proofs.Streaming
import Pseudocode.Proofs.Termination
import Pseudocode.Proofs.Truncation
import Pseudocode.Proofs.Unwinding
import Pseudocode.Run
import Pseudocode.Session
import Pseudocode.Stepper
import Pseudocode.Table
import Pseudocode.Text.AlphanumericTable
import Pseudocode.Text.Case
import Pseudocode.Text.CaseTable
import Pseudocode.Text.CasedTable
import Pseudocode.Text.CharSet
import Pseudocode.Text.Class
import Pseudocode.Text.DecimalTable
import Pseudocode.Text.Lines
import Pseudocode.Text.PrintableTable
import Pseudocode.Text.Quoted
import Pseudocode.Token
import Pseudocode.Token.Scan
import Pseudocode.Trace
import Pseudocode.Trace.Columns
import Pseudocode.Trace.Format
import Pseudocode.Tree
import Pseudocode.Tree.InputSites
import Pseudocode.Value
import Pseudocode.Value.Numeric
import Pseudocode.Value.Operator
import Pseudocode.Proofs.Control
import Pseudocode.Proofs.Pulling
import Pseudocode.Proofs.Stepping
import Pseudocode.Proofs.Doubles
import Pseudocode.Proofs.Numerals
import Pseudocode.Proofs.Writing
import Pseudocode.Proofs.Scanning
import Pseudocode.Proofs.Writable
import Pseudocode.Proofs.Climbing
import Pseudocode.Proofs.Rereading
import Pseudocode.Proofs.Image
import Pseudocode.Proofs.Canonical
import Pseudocode.Proofs.FileSessions
import Pseudocode.Proofs.Advancing
import Pseudocode.Proofs.Diagnosis
import Pseudocode.Proofs.Histories
import Pseudocode.Proofs.Storing
import Pseudocode.Proofs.Storage
import Pseudocode.Proofs.Announcements
import Pseudocode.Proofs.Tracing
import Pseudocode.Proofs.Seclusion
import Pseudocode.Proofs.Terms
import Pseudocode.Proofs.Keeping
import Pseudocode.Proofs.Endings
import Pseudocode.Proofs.Standstill
import Pseudocode.Proofs.Cancellation
import Pseudocode.Proofs.FileValues
import Pseudocode.Proofs.RoundTrip
import Pseudocode.Proofs.FileRequests
import Pseudocode.Proofs.FileSoundness
import Pseudocode.Proofs.Listing
import Pseudocode.Proofs.TokenOrder
import Pseudocode.Proofs.Discipline
import Pseudocode.Proofs.Blame
import Pseudocode.Proofs.Inputs
import Pseudocode.Proofs.LineScanning
import Pseudocode.Proofs.Rearrangement
import Pseudocode.Proofs.Snapshots
import Pseudocode.Proofs.Pauses
import Pseudocode.Debugger.Handshake
import Pseudocode.Proofs.Handshakes
import Pseudocode.Proofs.Progress
import Pseudocode.Proofs.Tiling
import Pseudocode.Proofs.Precedence
import Pseudocode.Proofs.BlockStructure
import Pseudocode.Proofs.Recording
import Pseudocode.Proofs.Rendering
import Pseudocode.Proofs.StatementLines
import Pseudocode.Proofs.FlatArrays
import Pseudocode.Proofs.Progressions
import Pseudocode.Proofs.CommaSeparated
import Pseudocode.Proofs.TraceColumns
import Pseudocode.Proofs.Rounding
import Pseudocode.Proofs.Unpacking
import Pseudocode.Proofs.CaseRanges
import Pseudocode.Proofs.Arithmetic
import Pseudocode.Proofs.WholeDivision
