import WastForge.Compile
import WastForge.Document.Read
import WastForge.Machine.Run
import WastForge.Program.Basic
import WastForge.Workflow.Session

/-!
# Compiling and running a program

A program, or the file that holds it, is compiled, and the directives of its module are run. What
the directives write goes to a directory afterwards. A program that does not compile is a failure;
assertions that do not hold only show in the report.
-/

namespace WastForge

/-- Where a run finds and leaves files, and how long it may take. -/
structure RunPlace where
  /-- The directory that receives what was written; without one it is kept in the report only. -/
  outDir : Bytes := []
  /-- The directory of the files that the memory is compared with. -/
  dir : Bytes := []
  maxSteps : Int := 0
  cancelled : Bool := false
  deriving Repr, Inhabited

namespace RunPlace

/-- What the run of a script needs to know of its place. -/
def options (place : RunPlace) (disk : Disk) : RunOptions where
  maxSteps := place.maxSteps
  readFile := fun name =>
    match disk.readFile (Path.join [place.dir, Path.clean name]) with
    | .ok content => .ok content
    | .error e => .error e.message
  cancelled := place.cancelled

end RunPlace

/-- Write what a program wrote into a directory; the answer has the paths. -/
def Output.save (o : Output) (dir : Bytes) : DiskM (List Bytes) := do
  if dir.isEmpty || o.files.isEmpty then return []
  DiskM.mkdirAll dir
  o.files.mapM fun (name, content) => do
    let path := Path.join [dir, name]
    DiskM.writeFile path content
    return path

/-- What came out of the run of a script. -/
structure Ran where
  report : Option RunReport := none
  /-- The paths of the files that were written. -/
  written : List Bytes := []
  failure : Option Failure := none
  deriving Inhabited

/-- Run a script at a place. Output that cannot be written is a failure beside the report. -/
def Script.runAt (text : Bytes) (place : RunPlace) : SessionM Ran := do
  match ← SessionM.work (Script.run text (place.options (← get).disk)) with
  | .error f => return { failure := some f }
  | .ok report =>
    match ← SessionM.onDisk (report.output.save place.outDir) with
    | .ok paths => return { report := some report, written := paths }
    | .error e =>
      return { report := some report, failure := some (.during "write output" (.other e.message)) }

/-- What to run: a program that is at hand, or the one in a file. -/
inductive RunSource where
  | program (p : Program)
  | file (path : Bytes)

namespace RunSource

/-- The name under which events speak of the program. -/
def name : RunSource → Bytes
  | .program p => p.name
  | .file path => path

/-- The program itself. -/
def load (disk : Disk) : RunSource → Result Program
  | .program p => .ok p
  | .file path =>
    match disk.readFile path with
    | .error e => .error (.during ("read " ++ path) (.other e.message))
    | .ok data => Document.read data

/-- The directory in which the files of a run are looked up, unless another one is given. -/
def dir : RunSource → Bytes
  | .program _ => []
  | .file path => if path.isEmpty then [] else Path.dir path

end RunSource

/-- What came out of compiling and running a program. -/
structure RunOutcome where
  compiled : Option Compiled := none
  ran : Ran := {}
  failure : Option Failure := none
  deriving Inhabited

/-- Compile a program in a session. -/
def Program.compileIn (p : Program) (limit : Int) : SessionM Compiled := fun s =>
  let c := p.compile limit
  (c, { s with journal := c.journal ++ s.journal })

/-- Compile and run a program. -/
def RunSource.run (source : RunSource) (place : RunPlace) (limit : Int) : SessionM RunOutcome := do
  let files := [source.name]
  let stop (stage : Stage) (f : Failure) (o : RunOutcome) : SessionM RunOutcome := do
    SessionM.tellAll files stage .error (some f)
    return { o with failure := some f }
  SessionM.tellQueued files
  if source matches .file _ then SessionM.tellAll files .decode .working none
  match source.load (← get).disk with
  | .error f => stop .decode f {}
  | .ok p =>
    match p.checkEntryPoint with
    | .error f => stop .decode f {}
    | .ok () =>
      SessionM.tellAll files .emit .working none
      if place.cancelled then stop .emit cancelFailure {}
      else
        let c ← p.compileIn limit
        match c.outcome with
        | .error f => stop .emit f { compiled := some c }
        | .ok out =>
          SessionM.tellAll files .run .working none
          let place := if place.dir.isEmpty then { place with dir := source.dir } else place
          let ran ← Script.runAt out.text place
          match ran.failure with
          | some f => stop .run f { compiled := some c, ran := ran }
          | none =>
            let failed := ran.report.any fun r => r.exitCode != 0
            SessionM.tellAll files .run (if failed then .error else .done) none
            return { compiled := some c, ran := ran }

end WastForge
