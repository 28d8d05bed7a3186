import WastForge.Disk
import WastForge.Text.Quoted
import WastForge.Workflow.Batch
import WastForge.Workflow.Progress

/-!
# Builds

Finding the documents to work on, and compiling them to files.
-/

namespace WastForge.Inputs

/-!
## Inputs of a build

A build is asked for files and directories. A file is taken as it is; of a directory, all documents
at any depth are taken.
-/

/-- The ending of the name of a document. -/
def ending : Bytes := ".irmp"

/-- The documents at and below a path. -/
def ofRoot (d : Disk) (root : Bytes) : Except DiskError (List Bytes) := do
  match ← d.stat root with
  | .file _ => return [Path.clean root]
  | .directory =>
    match d.locate root with
    | .error cause => throw ⟨"open", root, cause⟩
    | .ok names =>
      return (d.filesBelow names).filterMap fun (below, _) =>
        let path := Path.join (root :: below)
        if ending.isSuffixOf path then some path else none

/-- The documents at and below some paths, each of them once and in order. -/
def list (d : Disk) (roots : List Bytes) : Except DiskError (List Bytes) := do
  let found ← roots.mapM (ofRoot d)
  return Bytes.sort found.flatten.eraseDups

end WastForge.Inputs

namespace WastForge

/-!
## Builds

A build compiles all documents that it is asked for and writes the modules of those that compile.
A document that fails does not stop the others, and the build as a whole fails in the end.
-/

/-- What a build is asked for. -/
structure BuildRequest where
  /-- Documents, and directories that are searched for them. -/
  inputs : List Bytes := []
  /-- The directory that names are seen from and whose tree is found again under `outDir`. -/
  base : Bytes := []
  /-- The directory for the modules; empty for next to each document. -/
  outDir : Bytes := []
  limit : Int := 0
  cache : Option ModuleCache := none
  cancelled : Bool := false
  deriving Repr, Inhabited

/-- A document that was compiled. -/
structure Artifact where
  input : Bytes
  /-- The path of the module; empty when there is none. -/
  output : Bytes := []
  result : FileResult

/-- What came out of a build. -/
structure BuildOutcome where
  artifacts : List Artifact := []
  /-- The names of the documents. -/
  files : List Bytes := []
  /-- How many documents have no module. -/
  failed : Nat := 0
  stages : StageTimes := {}
  /-- The passes of all compilations. -/
  timing : TimingReport := {}
  failure : Option Failure := none

namespace Build

/-- The path of a module: the place of its document, seen from the base directory if it lies below
that, under the output directory. -/
def outputPath (base outDir input : Bytes) : Bytes :=
  let stem := input.take (input.length - (Path.extension input).length)
  let name := stem ++ ".wast"
  if outDir.isEmpty then name
  else
    let below :=
      if base.isEmpty then Path.base name
      else
        match Path.relative? base name with
        | some rel =>
          if (Bytes.after? ".." rel).isSome || Path.isAbsolute rel then Path.base name else rel
        | none => Path.base name
    Path.join [outDir, below]

/-- The stage that a phase belongs to. -/
def stageOf : Phase → Stage
  | .read => .decode
  | .decode => .decode
  | .emit => .emit
  | .cache => .write

/-- The event that tells of a phase. The end of a phase is told by what comes next. -/
def eventOf? (cwd base : Bytes) (e : PhaseEvent) : Option ProgressEvent :=
  let event (status : Status) (failure : Option Failure) : ProgressEvent :=
    ⟨Progress.displayName cwd base e.path, stageOf e.phase, status, failure⟩
  match e.status with
  | .started => some (event .working none)
  | .failed f => some (event .error (some f))
  | .ended => none

/-- Write a module. -/
def writeModule (path text : Bytes) : SessionM (Result Unit) := do
  match ← SessionM.onDisk (DiskM.mkdirAll (Path.dir path)) with
  | .error e => return .error (.during "failed to create output dir" (.other e.message))
  | .ok () =>
    match ← SessionM.onDisk (DiskM.writeFile path text) with
    | .error e =>
      return .error (.during ("failed to write module " ++ Quoted.text path) (.other e.message))
    | .ok () => return .ok ()

/-- Write the module of a document, if there is one. -/
def settle (req : BuildRequest) (cwd input : Bytes) (r : FileResult) : SessionM Artifact := do
  let file := Progress.displayName cwd req.base input
  match r.outcome with
  | .error f =>
    SessionM.tell { file := file, stage := .emit, status := .error, failure := some f }
    return { input := input, result := r }
  | .ok m =>
    let path := outputPath req.base req.outDir input
    match ← writeModule path m.text with
    | .error f =>
      SessionM.tell { file := file, stage := .write, status := .error, failure := some f }
      return { input := input, output := path, result := { r with outcome := .error f } }
    | .ok () =>
      SessionM.tell { file := file, stage := .write, status := .done }
      return { input := input, output := path, result := r }

/-- Why a build failed some of whose documents have no module. -/
def failure (failed inputs : Nat) : Failure :=
  .during "build failed"
    (.other (Bytes.ofNat failed ++ " of " ++ Bytes.ofNat inputs ++ " inputs"))

end Build

/-- Compile documents and write their modules. -/
def BuildRequest.run (req : BuildRequest) : SessionM BuildOutcome := do
  let disk := (← get).disk
  match Inputs.list disk req.inputs with
  | .error e => return { failure := some (.other e.message) }
  | .ok [] => return { failure := some (.other ("no " ++ Inputs.ending ++ " inputs found")) }
  | .ok paths =>
    let files := Progress.displayNames disk.cwd req.base paths
    SessionM.tellQueued files
    let batch ← compileFiles ⟨req.limit, req.cache, req.cancelled⟩ paths
    (batch.phases.filterMap (Build.eventOf? disk.cwd req.base)).forM SessionM.tell
    let stages := ({} : StageTimes).set .emit 0
    match batch.results with
    | .error f =>
      SessionM.tellAll [] .emit .error (some f)
      return { files := files, stages := stages, failure := some f }
    | .ok results =>
      let artifacts ← (paths.zip results).mapM fun (input, r) => Build.settle req disk.cwd input r
      let failed := artifacts.countP (·.result.failed)
      let failure := if failed = 0 then none else some (Build.failure failed paths.length)
      SessionM.tellAll [] .write (if failed = 0 then .done else .error) failure
      return {
        artifacts := artifacts
        files := files
        failed := failed
        stages := stages.set .write 0
        timing := .merge (results.map (·.timing))
        failure := failure }

end WastForge
