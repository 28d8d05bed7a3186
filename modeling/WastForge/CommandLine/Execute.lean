import WastForge.CommandLine.Setup
import WastForge.CommandLine.Subcommands

/-!
# The command line

The program as a function: from the words it is called with, what surrounds it and the disk to what
it prints, its exit code and the disk afterwards.
-/

namespace WastForge

/-- What a call of the program leads to. -/
structure CallOutcome where
  exit : Nat := 0
  stdout : Bytes := []
  stderr : Bytes := []
  disk : Disk := {}
  deriving Inhabited

namespace Command

/-- How a command is called. -/
def usage (c : Command) : Bytes :=
  let commands := Bytes.join "|" (all.map name)
  let words : Bytes := if c = .root then " <" ++ commands ++ ">" else " " ++ c.name
  let line (f : Flag) : Bytes := "  " ++ f.shown ++ "\n"
  "Usage:\n  " ++ program ++ words ++ " [flags]\n\nFlags:\n" ++ c.flags.flatMap line

/-- The work of a command. -/
def work : Command → ConsoleM Unit
  | .build => BuildCommand.run
  | .run => RunCommand.run
  | .sample => SampleCommand.run
  | .dump => DumpCommand.run
  | .version => VersionCommand.run
  | c => ConsoleM.print c.usage

/-- Whether a command does more than to explain itself. -/
def isWork : Command → Bool
  | .root | .help | .completion => false
  | _ => true

/-- Read the words of a command and do its work. -/
def execute (c : Command) (words : List Bytes) : ConsoleM Unit := do
  let w ← ConsoleM.orFail ((CommandWords.read c.flags words).mapError (·.message))
  modify fun k => { k with words := w }
  if w.isOn "help" then ConsoleM.print c.usage
  else if c = .root && w.isOn "version" then
    ConsoleM.print (program ++ " version " ++ toolVersion ++ "\n")
  else if !c.isWork then ConsoleM.print c.usage
  else
    if let some message := c.wrongArgs? w then ConsoleM.fail message
    Setup.start
    c.work

end Command

namespace CommandLine

/-- Choose a command and execute it. -/
def call (words : List Bytes) : ConsoleM Unit := do
  let (c, words) ← ConsoleM.orFail (Command.choose words)
  c.execute words

/-- Say why a command stopped; the answer is the exit code. -/
def conclude (outcome : Except CommandStop Unit) : StateM Console Nat := do
  match outcome with
  | .ok () => return 0
  | .error (.exit code) => return code
  | .error (.failed message) =>
    modify fun c =>
      { c with stderr := c.stderr ++ c.red "error:" ++ " " ++ message ++ "\n" ++ c.lastEvents }
    return 1

/-- Call the program. -/
def run (env : Environment) (words : List Bytes) (disk : Disk) : CallOutcome :=
  let (outcome, c) := (call words).run { env := env, session := { disk := disk } }
  let (exit, c) := (conclude outcome).run c
  let (_, c) := (Setup.finish).run c
  ⟨exit, c.stdout, c.stderr, c.session.disk⟩

end CommandLine

end WastForge
