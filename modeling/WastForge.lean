import WastForge.Bytes
import WastForge.CommandLine.Command
import WastForge.CommandLine.Console
import WastForge.CommandLine.Execute
import WastForge.CommandLine.Findings
import WastForge.CommandLine.Flag
import WastForge.CommandLine.Setup
import WastForge.CommandLine.Subcommands
import WastForge.Compile
import WastForge.Diagnostic.Bag
import WastForge.Diagnostic.Basic
import WastForge.Diagnostic.Code
import WastForge.Diagnostic.Golden
import WastForge.Diagnostic.Report
import WastForge.Digest
import WastForge.Disk
import WastForge.Document.Pack
import WastForge.Document.Read
import WastForge.Document.Tree
import WastForge.Document.Write
import WastForge.Draft.Basic
import WastForge.Draft.Support
import WastForge.Draft.Tree
import WastForge.Emit.Access
import WastForge.Emit.Env
import WastForge.Emit.Expr
import WastForge.Emit.Instruction
import WastForge.Emit.Label
import WastForge.Emit.Module
import WastForge.Emit.Name
import WastForge.Emit.Stmt
import WastForge.Form.Basic
import WastForge.Layout.Arena
import WastForge.Layout.Placement
import WastForge.Layout.Size
import WastForge.Machine.Eval
import WastForge.Machine.Memory
import WastForge.Machine.Opcode
import WastForge.Machine.Operation
import WastForge.Machine.Output
import WastForge.Machine.Run
import WastForge.Machine.State
import WastForge.Machine.Trap
import WastForge.Machine.Value
import WastForge.Main
import WastForge.Manifest
import WastForge.Number.Binary
import WastForge.Number.Binary64
import WastForge.Number.Duration
import WastForge.Number.FloatText
import WastForge.Number.Radix
import WastForge.Number.Shortest
import WastForge.Path
import WastForge.Program.Basic
import WastForge.Program.Dump
import WastForge.Program.Operator
import WastForge.Program.Transform
import WastForge.Program.Tree
import WastForge.Program.Walk
import WastForge.Proofs.Branch.Module
import WastForge.Proofs.Branch.Program
import WastForge.Proofs.Branch.Script
import WastForge.Proofs.Branch.SingleForm
import WastForge.Proofs.Branch.Source
import WastForge.Proofs.Closure.Program
import WastForge.Proofs.Control.Correct
import WastForge.Proofs.Control.Entry
import WastForge.Proofs.Control.Selection
import WastForge.Proofs.Diagnostic.Dedup
import WastForge.Proofs.Diagnostic.Golden
import WastForge.Proofs.Document.Accepted
import WastForge.Proofs.Document.RoundTrip
import WastForge.Proofs.Emit.Accounts
import WastForge.Proofs.Emit.Exports
import WastForge.Proofs.Emit.Fields
import WastForge.Proofs.Emit.Names
import WastForge.Proofs.Emit.Output
import WastForge.Proofs.Emit.Slots
import WastForge.Proofs.Emit.Strings
import WastForge.Proofs.Emit.Title
import WastForge.Proofs.Integer.Assignment
import WastForge.Proofs.Integer.Compound
import WastForge.Proofs.Integer.Correct
import WastForge.Proofs.Layout.Cause
import WastForge.Proofs.Layout.Request
import WastForge.Proofs.Machine.Budget
import WastForge.Proofs.Machine.Canonical
import WastForge.Proofs.Machine.Start
import WastForge.Proofs.Machine.StoreLoad
import WastForge.Proofs.Program.Each
import WastForge.Proofs.Support.Complete
import WastForge.Proofs.Support.Folding
import WastForge.Proofs.Support.HeapAccess
import WastForge.Proofs.Text.Decimal
import WastForge.Proofs.Text.Located
import WastForge.Proofs.Text.Reading
import WastForge.Proofs.Text.Word
import WastForge.Proofs.Trace.Nesting
import WastForge.Proofs.Trace.Ring
import WastForge.Proofs.Types.Name
import WastForge.Proofs.Workflow.Batch
import WastForge.Proofs.Workflow.Build
import WastForge.Proofs.Workflow.Redirect
import WastForge.Proofs.Workflow.Replay
import WastForge.Sample.Basic
import WastForge.Sample.Catalog
import WastForge.Sample.Programs
import WastForge.Script.Check
import WastForge.Script.Module
import WastForge.Script.Reader
import WastForge.Script.Token
import WastForge.Source
import WastForge.Support.Expand
import WastForge.Support.Member
import WastForge.Text.Case
import WastForge.Text.EditDistance
import WastForge.Text.Json
import WastForge.Text.Printable
import WastForge.Text.Quoted
import WastForge.Text.Utf8
import WastForge.Text.Width
import WastForge.Timing
import WastForge.Toml.Basic
import WastForge.Toml.Document
import WastForge.Toml.Scalar
import WastForge.Trace.Event
import WastForge.Trace.Journal
import WastForge.Trace.Level
import WastForge.Trace.Span
import WastForge.Trace.Tracer
import WastForge.Types.Descriptor
import WastForge.Types.Keyword
import WastForge.Types.Table
import WastForge.Workflow.Batch
import WastForge.Workflow.Build
import WastForge.Workflow.Cache
import WastForge.Workflow.Progress
import WastForge.Workflow.ProgressView
import WastForge.Workflow.Run
import WastForge.Workflow.Session
