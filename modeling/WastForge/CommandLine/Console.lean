import WastForge.CommandLine.Command
import WastForge.Diagnostic.Report
import WastForge.Trace.Span
import WastForge.Trace.Tracer
import WastForge.Workflow.Session

/-!
# Consoles

A console is what a command works with: its words, the session, and all that it prints. What the
session's journal says is passed on to the tracer as soon as a piece of work is done.
-/

namespace WastForge

/-- What surrounds the program. -/
structure Environment where
  /-- The values of variables by their names. -/
  values : List (Bytes × Bytes) := []
  /-- Whether the output goes to a terminal. -/
  terminal : Bool := false
  deriving Repr, Inhabited

/-- The value of a variable; empty if there is none. -/
def Environment.get (e : Environment) (name : Bytes) : Bytes := (e.values.lookup name).getD []

/-- Where events are written to. -/
inductive TraceTarget where
  | stderr
  /-- A file, by the names that lead to it. -/
  | file (names : List Bytes)
  deriving Repr, Inhabited

/-- What a command works with. -/
structure Console where
  env : Environment := {}
  words : CommandWords := default
  session : Session := {}
  stdout : Bytes := []
  stderr : Bytes := []
  /-- Whether colours are wanted. -/
  colour : Bool := false
  tracer : Tracer := .none
  target : TraceTarget := .stderr
  /-- How far the journal was passed on to the tracer. -/
  spans : SpanReader := {}
  traced : Nat := 0
  /-- The file that a profile of the memory goes to in the end, if any. -/
  memoryProfile : Bytes := []
  deriving Inhabited

/-- Why a command stops before its end. -/
inductive CommandStop where
  /-- Something is wrong. -/
  | failed (message : Bytes)
  /-- What is wrong was said already. -/
  | exit (code : Nat)
  deriving Repr, DecidableEq, Inhabited

/-- The work of a command. What was done before it stops is kept. -/
abbrev ConsoleM := ExceptT CommandStop (StateM Console)

namespace Console

/-- Write out what the tracer has collected for its output. -/
def writeTrace (c : Console) : Console :=
  match c.target, c.tracer.stream with
  | .stderr, some s =>
    { c with stderr := c.stderr ++ s, tracer := { c.tracer with stream := some [] } }
  | .file names, some s =>
    { c with session := { c.session with disk := c.session.disk.setEntry names (.file s) } }
  | _, none => c

/-- Pass on to the tracer what the journal says since the last time. -/
def settle (c : Console) : Console :=
  let journal := c.session.journal
  let fresh := (journal.take (journal.length - c.traced)).reverse
  let (spans, events) := c.spans.readAll c.tracer.level fresh
  writeTrace
    { c with tracer := c.tracer.emitAll events, spans := spans, traced := journal.length }

/-- Whether the console's own words are in colour. The environment may rule that out; diagnostics
are not bound by it. -/
def paints (c : Console) : Bool := c.colour && (c.env.get "NO_COLOR").isEmpty

/-- A text in red. -/
def red (c : Console) (s : Bytes) : Bytes := Report.paint c.paints "31;1" "0;22" s

/-- The events that a ring has kept, to be shown after a failure. -/
def lastEvents (c : Console) : Bytes :=
  match c.tracer.ring with
  | some r => "trace: last events before failure\n" ++ r.dump .text c.tracer.start
  | none => []

end Console

namespace ConsoleM

/-- CommandStop with a message. -/
def fail {α : Type} (message : Bytes) : ConsoleM α := throw (.failed message)

/-- CommandStop with the message of a result that is none. -/
def orFail {α : Type} (r : Except Bytes α) : ConsoleM α :=
  match r with
  | .ok a => pure a
  | .error message => fail message

/-- Go on after a failure, unless the process ended with it: this is the exit code then. -/
def mustReturn (f : Failure) : ConsoleM Unit := do
  if f.isCrash then throw (.exit 2)

/-- CommandStop for a failure. -/
def orStop {α : Type} (r : Result α) : ConsoleM α :=
  match r with
  | .ok a => pure a
  | .error f => do mustReturn f; fail f.message

/-- Print to the output. -/
def print (s : Bytes) : ConsoleM Unit := modify fun c => { c with stdout := c.stdout ++ s }

/-- Print beside the output. -/
def printError (s : Bytes) : ConsoleM Unit := modify fun c => { c with stderr := c.stderr ++ s }

/-- The value of a flag. -/
def text (name : Bytes) : ConsoleM Bytes := return (← get).words.text name

/-- Whether a switch is on. -/
def isOn (name : Bytes) : ConsoleM Bool := return (← get).words.isOn name

/-- The value of a flag as a number. -/
def int (name : Bytes) : ConsoleM Int := return (← get).words.int name

/-- The words that are no flags. -/
def args : ConsoleM (List Bytes) := return (← get).words.args

/-- The disk. -/
def disk : ConsoleM Disk := return (← get).session.disk

/-- Do work in the session. -/
def work {α : Type} (act : SessionM α) : ConsoleM α := do
  let c ← get
  let (a, s) := act.run c.session
  set { c with session := s }.settle
  return a

/-- Do work on the disk, which may fail. -/
def onDisk {α : Type} (act : DiskM α) : ConsoleM (Except DiskError α) := work (SessionM.onDisk act)

/-- Do work on the disk; a failure stops the command with a message that says what was done. -/
def mustDo {α : Type} (what : Bytes) (act : DiskM α) : ConsoleM α := do
  orFail ((← onDisk act).mapError fun e => what ++ e.message)

end ConsoleM

end WastForge
