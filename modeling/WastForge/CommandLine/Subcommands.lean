import WastForge.CommandLine.Console
import WastForge.CommandLine.Findings
import WastForge.Document.Write
import WastForge.Manifest
import WastForge.Program.Dump
import WastForge.Sample.Catalog
import WastForge.Workflow.Build
import WastForge.Workflow.Cache
import WastForge.Workflow.Run

/-!
# The commands

What each command does: it tells the version, builds documents, runs a program, prints one, or
writes samples.
-/

namespace WastForge.VersionCommand

open ConsoleM

/-!
## The version command

The version of the program, and what is known about how it was built.
-/

/-- The version with each of its three numbers in a colour. -/
def painted (colour : Bool) : Bytes :=
  let core := toolVersion.takeWhile fun b => b != 45 && b != 43
  let rest := toolVersion.drop core.length
  match Bytes.splitOn 46 core with
  | [major, minor, patch] =>
    Report.paint colour "33;1" "0;22" major ++ "." ++ Report.paint colour "32;1" "0;22" minor ++ "."
      ++ Report.paint colour "34;1" "0;22" patch ++ rest
  | _ => toolVersion

/-- The facts about a build that can be asked for: the flag, the label for people, and the label
for other programs. None of them is known. -/
def facts : List (Bytes × Bytes × Bytes) :=
  [("hash", "commit:  ", "git_commit"), ("message", "message: ", "git_message"),
   ("date", "built:   ", "build_date")]

/-- What is printed for a fact that is not known. -/
def unknown : Bytes := "unknown"

/-- Print the version. -/
def run : ConsoleM Unit := do
  let c ← get
  let format := c.words.text "format"
  let asked := facts.filter fun (flag, _, _) => c.words.isOn flag || c.words.isOn "full"
  let schema := Document.version.toNat
  if Case.lower format == "json" then
    print (Json.ofGroups [
      [("tool", .str Command.program), ("version", .str toolVersion), ("ir_schema", .num schema)],
      asked.map fun (_, _, key) => (key, .str unknown)]).document
  else if Case.lower format == "pretty" then
    let line (fact : Bytes × Bytes × Bytes) : Bytes := fact.2.1 ++ unknown ++ "\n"
    print (Command.program ++ " " ++ painted c.paints ++ " (IR schema " ++ Bytes.ofNat schema
      ++ ")\n" ++ asked.flatMap line)
  else fail ("unsupported format " ++ Quoted.text format ++ " (must be pretty or json)")

end WastForge.VersionCommand

namespace WastForge.BuildCommand

open ConsoleM

/-!
## The build command

Documents are compiled, either those that are named or those of the project's manifest. Flags win
over the manifest.
-/

/-- What is said when nothing is named and there is no manifest. -/
def noManifest : Bytes :=
  "no " ++ Manifest.fileName ++ " found\nplease name the inputs explicitly, e.g.:\n  "
    ++ Command.program ++ " build path/to/program.irmp"

/-- Check the flag that chooses a display. All displays but the plain one need a screen. -/
def checkDisplay : ConsoleM Unit := do
  let value ← text "ui"
  let word := Utf8.trim (Case.lower value)
  unless word.isEmpty || word == "auto" || word == "on" || word == "off" do
    fail ("invalid --ui value " ++ Quoted.text value ++ " (expected auto|on|off)")

/-- The directory of the cache, if the environment has a place for it. -/
def cacheDir (env : Environment) : Except Bytes Bytes :=
  let given := env.get "XDG_CACHE_HOME"
  let home := env.get "HOME"
  if !given.isEmpty then .ok (Path.join [given, Command.program])
  else if home.isEmpty then .error "$HOME is not defined"
  else .ok (Path.join [home, ".cache", Command.program])

/-- Open the cache. -/
def openCache : ConsoleM (Except Bytes ModuleCache) := do
  match cacheDir (← get).env with
  | .error message => return .error message
  | .ok dir => return (← onDisk (ModuleCache.openAt dir)).mapError (·.message)

/-- The cache to use; that it cannot be opened is only a warning. -/
def cache? : ConsoleM (Option ModuleCache) := do
  match ← openCache with
  | .error message =>
    unless ← isOn "quiet" do
      printError ("warning: module cache disabled: " ++ message ++ "\n")
    return none
  | .ok cache =>
    if ← isOn "clear-cache" then mustDo "failed to clear cache: " cache.clear
    return some cache

/-- What a build is asked for, but for the cache, and whether there is to be one. -/
def request : ConsoleM (BuildRequest × Bool) := do
  let c ← get
  let named := c.words.args
  let manifest ← if named.isEmpty then orFail (Manifest.load c.session.disk) else pure none
  let plain : BuildRequest := { limit := c.words.int "max-diagnostics" }
  let req ←
    match manifest with
    | some m =>
      pure { plain with inputs := m.inputs, base := m.root, outDir := m.resolve m.config.outDir }
    | none =>
      if named.isEmpty then fail noManifest
      else pure { plain with inputs := named, base := c.session.disk.cwd }
  let req := if c.words.has "out-dir" then { req with outDir := c.words.text "out-dir" } else req
  if c.words.has "jobs" && c.words.int "jobs" < 0 then fail "--jobs must not be negative"
  return (req, !c.words.isOn "no-cache" && manifest.all (·.config.cache))

/-- A path as it is shown: seen from a base directory, if it lies below that. -/
def shownPath (base path : Bytes) : Bytes :=
  if base.isEmpty then path
  else
    match Path.relative? base path with
    | some rel => if (Bytes.after? ".." rel).isSome then path else rel
    | none => path

/-- What was built, for people. -/
def summary (base : Bytes) (o : BuildOutcome) : Bytes :=
  let written := o.artifacts.filter (!·.output.isEmpty)
  let line (a : Artifact) : Bytes := "wrote " ++ shownPath base a.output ++ "\n"
  let cached := written.countP (·.result.cached)
  let note : Bytes := if cached = 0 then [] else " (" ++ Bytes.ofNat cached ++ " from cache)"
  let count := o.artifacts.length
  written.flatMap line ++ "built " ++ Bytes.ofNat (count - o.failed) ++ " of " ++ Bytes.ofNat count
    ++ " modules" ++ note ++ "\n"

/-- Build. -/
def run : ConsoleM Unit := do
  checkDisplay
  let style ← FindingStyle.ofFlags
  let (req, keeps) ← request
  let cache ← if keeps then cache? else pure none
  let o ← work { req with cache := cache }.run
  o.failure.forM mustReturn
  style.print (o.artifacts.map fun a => .ofResult a.result)
  if ← isOn "timings" then printTimes o.stages o.timing
  unless (← isOn "quiet") || o.artifacts.isEmpty do print (summary req.base o)
  match o.failure with
  | none => return
  | some f => if o.failed = 0 then fail f.message else throw (.exit 1)

end WastForge.BuildCommand

namespace WastForge

/-!
## The run command

A program is compiled and its directives are run. The program is a document, a sample, or what the
project's manifest says.
-/

/-- The sample with a name, which a command is asked for. -/
def ConsoleM.sample (name : Bytes) : ConsoleM Sample :=
  match Sample.ofName? name with
  | some s => pure s
  | none =>
    fail ("unknown example " ++ Quoted.text name ++ " (available: " ++ Bytes.join ", " Sample.names
      ++ ")")

/-- What is said when both a sample and a document are named. -/
def bothNamed : Bytes := "--example and an input file are mutually exclusive"

namespace RunCommand

open ConsoleM

/-- What is run, and the directory for what it writes. -/
def source : ConsoleM (RunSource × Bytes) := do
  let c ← get
  let name := c.words.text "example"
  let dir := c.words.text "stdout-dir"
  match c.words.args with
  | path :: _ =>
    if name.isEmpty then return (.file path, dir) else fail bothNamed
  | [] =>
    if name.isEmpty then
      match ← orFail (Manifest.load c.session.disk) with
      | some m =>
        if ManifestConfig.isBlank m.config.main then
          fail ("no input given and no [run].main in " ++ Manifest.fileName)
        else
          let dir := if c.words.has "stdout-dir" then dir else m.resolve m.config.stdoutDir
          return (.file (m.resolve m.config.main), dir)
      | none => fail ("no input given and no [run].main in " ++ Manifest.fileName)
    else return (.program (← sample name).program, dir)

/-- The document of what is run; empty if there is none. -/
def documentPath : RunSource → Bytes
  | .program _ => []
  | .file path => path

/-- The stages of a run that came to its end. Their time is not counted. -/
def stages : StageTimes := (((({} : StageTimes).set .decode 0).set .emit 0).set .run 0)

/-- Print what came out of a run. -/
def conclude (c : Compiled) (report : RunReport) (written : List Bytes) : ConsoleM Unit := do
  print report.printed
  if ← isOn "timings" then printTimes stages c.timing
  unless ← isOn "quiet" do
    let line (path : Bytes) : Bytes := "wrote " ++ path ++ "\n"
    printError (Bytes.ofNat report.passed ++ " passed, " ++ Bytes.ofNat report.failed ++ " failed, "
      ++ Bytes.ofNat report.traps ++ " trapped\n" ++ written.flatMap line)
  if report.exitCode ≠ 0 then throw (.exit report.exitCode)

/-- Run. -/
def run : ConsoleM Unit := do
  let maxSteps ← int "max-steps"
  if maxSteps < 0 then fail "--max-steps must not be negative"
  let style ← FindingStyle.ofFlags
  let (source, dir) ← source
  let place : RunPlace :=
    { outDir := if dir.isEmpty then "." else dir, dir := ← text "dir", maxSteps := maxSteps }
  let o ← work (source.run place (← int "max-diagnostics"))
  o.failure.forM mustReturn
  if let some c := o.compiled then
    style.print [.ofCompiled (documentPath source) c]
    if c.outcome matches .error _ then throw (.exit 1)
  match o.failure, o.compiled, o.ran.report with
  | some f, _, _ => fail f.message
  | none, some c, some report => conclude c report o.ran.written
  | none, _, _ => return

end RunCommand

end WastForge

namespace WastForge.DumpCommand

open ConsoleM

/-!
## The dump command

A program is printed, either as a tree or as the text of its module.
-/

/-- The program to print. -/
def program : ConsoleM Program := do
  let name ← text "example"
  match ← args with
  | path :: _ =>
    unless name.isEmpty do fail bothNamed
    match (← disk).readFile path with
    | .error e => fail e.message
    | .ok data => orStop (Document.read data)
  | [] =>
    if name.isEmpty then fail "dump needs an input file or --example"
    return (← sample name).program

/-- Dump. -/
def run : ConsoleM Unit := do
  let p ← program
  if ← isOn "module" then
    let m ← orStop (← work (SessionM.work p.emit))
    print m.text
  else
    match Dump.program p with
    | some text => print text
    | none => throw (.exit 2)

end WastForge.DumpCommand

namespace WastForge.SampleCommand

open ConsoleM

/-!
## The example command

Samples are listed, or written as documents.
-/

/-- The names of all samples and what they are about, in columns. -/
def listing : Bytes :=
  let width := (Sample.names.map (·.length)).foldl max 0 + 2
  Sample.all.flatMap fun s => Bytes.padRight width s.name ++ s.summary ++ "\n"

/-- The samples that a word stands for. -/
def selected (word : Bytes) : ConsoleM (List Sample) := do
  if Case.fold word == "all" then return Sample.all else return [← sample word]

/-- Write a sample into a directory. -/
def write (dir : Bytes) (s : Sample) : ConsoleM Unit := do
  let path := Path.join [dir, Case.lower s.name ++ Inputs.ending]
  mustDo ("write " ++ path ++ ": ") (DiskM.writeFile path (Document.write s.program))
  unless ← isOn "quiet" do print ("wrote " ++ path ++ "\n")

/-- List or write samples. -/
def run : ConsoleM Unit := do
  if ← isOn "list" then print listing
  else
    let dir ← text "out-dir"
    let samples ← selected ((← args).headD [])
    mustDo "failed to create output dir: " (DiskM.mkdirAll dir)
    samples.forM (write dir)

end WastForge.SampleCommand
