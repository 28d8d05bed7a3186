import WastForge.Compile
import WastForge.Document.Read
import WastForge.Machine.Run
import WastForge.Workflow.Cache
import WastForge.Workflow.Session

/-!
# Batches

Many documents are compiled in one batch. The work on each of them goes in steps: it is read,
looked up among the files of the batch and then in the cache, and if nothing is found, compiled and
kept. Workers may take these steps in any order; what they share are the session and what the batch
remembers.

A file that fails has a result that says so, and the others go on. But where the compiler itself
crashes, in whatever worker, the process ends and takes the whole batch with it.
-/

namespace WastForge

/-- A part of the work on a file that is told to observers. -/
inductive Phase where
  | read
  | decode
  | emit
  | cache
  deriving Repr, DecidableEq, Inhabited

/-- The name of a phase. -/
def Phase.name : Phase → Bytes
  | .read => "read"
  | .decode => "decode"
  | .emit => "emit"
  | .cache => "cache"

/-- How far a phase has come. -/
inductive PhaseStatus where
  | started
  | ended
  | failed (f : Failure)
  deriving Repr, DecidableEq, Inhabited

/-- How work ended, unless the process ended with it. -/
def PhaseStatus.ofResult? {α : Type} : Result α → Option PhaseStatus
  | .ok _ => some .ended
  | .error f => if f.isCrash then none else some (.failed f)

/-- What observers are told. -/
structure PhaseEvent where
  path : Bytes
  phase : Phase
  status : PhaseStatus
  deriving Repr, Inhabited

/-- How a batch is compiled. -/
structure BatchOptions where
  /-- The most diagnostics that are kept for a file. -/
  limit : Int := 0
  cache : Option ModuleCache := none
  cancelled : Bool := false
  deriving Repr, Inhabited

/-- What became of a file. -/
structure FileResult where
  path : Bytes
  /-- The place in the batch for which it was made; a file that is named twice has one result. -/
  made : Nat := 0
  name : Bytes := []
  outcome : Result ModuleOutput
  bag : Bag
  files : FileSet := {}
  timing : TimingReport := {}
  /-- Whether it comes from the cache. -/
  cached : Bool := false

namespace FileResult

/-- Whether there is no module. -/
def failed (r : FileResult) : Bool := r.outcome matches .error _

/-- The result for a file that cannot even be compiled. -/
def ofFailure (o : BatchOptions) (index : Nat) (path : Bytes) (f : Failure) : FileResult where
  path := path
  made := index
  outcome := .error f
  bag := (Bag.ofLimit o.limit).add f.diagnostic

/-- The result of a compilation. -/
def ofCompiled (index : Nat) (path : Bytes) (c : Compiled) : FileResult where
  path := path
  made := index
  name := c.name
  outcome := c.outcome
  bag := c.bag
  files := c.files
  timing := c.timing

/-- The result that the cache has. -/
def ofEntry (o : BatchOptions) (index : Nat) (path : Bytes) (e : CacheEntry) : FileResult :=
  let (files, bag) := KeptDiagnostic.restoreAll e.diagnostics {} (Bag.ofLimit o.limit)
  { path := path
    made := index
    name := e.name
    outcome := .ok e.toModule
    bag := bag
    files := files
    cached := true }

end FileResult

/-- A result that a batch remembers. -/
structure Remembered where
  path : Bytes
  key : Digest
  result : FileResult

/-- What the workers of a batch share. -/
structure Batch where
  session : Session
  /-- Results by the path and the contents of their file, the latest first. -/
  memory : List Remembered := []
  /-- What observers were told, the latest event first. -/
  phases : List PhaseEvent := []

namespace Batch

/-- What is remembered of a file. Only the latest contents of a path count. -/
def remembered? (b : Batch) (path : Bytes) (key : Digest) : Option FileResult :=
  match b.memory.find? (·.path = path) with
  | some m => if m.key = key then some m.result else none
  | none => none

end Batch

/-- Work in a batch. -/
abbrev BatchM := StateM Batch

namespace BatchM

/-- Work in the session of a batch. -/
def inSession {α : Type} (act : SessionM α) : BatchM α := fun b =>
  let (a, s) := act.run b.session
  (a, { b with session := s })

/-- Tell observers how far a phase has come, if there is anything to tell. -/
def tell (path : Bytes) (phase : Phase) (status : Option PhaseStatus) : BatchM Unit :=
  modify fun b => { b with phases := (status.map fun s => ⟨path, phase, s⟩).toList ++ b.phases }

/-- Do work that observers are told of. -/
def observed {α : Type} (path : Bytes) (phase : Phase) (act : BatchM (Result α)) :
    BatchM (Result α) := do
  tell path phase (some .started)
  let r ← act
  tell path phase (PhaseStatus.ofResult? r)
  return r

end BatchM

/-- How far the work on a file has come. -/
inductive FileWork where
  | waiting
  /-- The file was read. -/
  | loaded (data : Bytes) (key : Digest)
  /-- The batch does not remember the file. -/
  | unremembered (data : Bytes) (key : Digest)
  /-- The cache does not have the file either. -/
  | fresh (data : Bytes) (key : Digest)
  /-- The file was compiled. -/
  | compiled (key : Digest) (r : FileResult)
  /-- The result can be remembered. -/
  | settled (key : Digest) (r : FileResult)
  | finished (r : FileResult)
  /-- The process ended with the work. -/
  | crashed (how : Crash)

namespace FileWork

open BatchM

/-- The result of work that is finished. -/
def result? : FileWork → Option FileResult
  | .finished r => some r
  | _ => none

/-- How the process ended with the work, if it did. -/
def crash? : FileWork → Option Crash
  | .crashed how => some how
  | _ => none

/-- End the work on a file. -/
def finish (r : FileResult) : BatchM FileWork := do
  inSession (SessionM.note (.leave [] []))
  return .finished r

/-- Read a file. -/
def load (o : BatchOptions) (index : Nat) (path : Bytes) : BatchM FileWork := do
  inSession (SessionM.note (.enter .program path))
  let content ← observed path .read do
    return ((← get).session.disk.readFile path).mapError fun e => .other e.message
  match content with
  | .ok data => return .loaded data (cacheKey data)
  | .error f => finish (.ofFailure o index path (.during ("read " ++ path) f))

/-- Look a file up among those of the batch. -/
def lookBack (path : Bytes) (data : Bytes) (key : Digest) : BatchM FileWork := do
  match (← get).remembered? path key with
  | some r => finish r
  | none => return .unremembered data key

/-- Look a file up in the cache. -/
def lookUp (o : BatchOptions) (index : Nat) (path data : Bytes) (key : Digest) :
    BatchM FileWork := do
  match o.cache.bind (·.get? (← get).session.disk key) with
  | some e => return .settled key (.ofEntry o index path e)
  | none => return .fresh data key

/-- Compile a file. -/
def compile (o : BatchOptions) (index : Nat) (path data : Bytes) (key : Digest) :
    BatchM FileWork := do
  match ← observed path .decode (pure (Document.read data)) with
  | .error f =>
    match f.crash? with
    | some how => return .crashed how
    | none => finish (.ofFailure o index path f)
  | .ok p =>
    let c := p.compile o.limit
    let _ ← observed path .emit do
      inSession (modify fun s => { s with journal := c.journal ++ s.journal })
      return c.outcome
    match c.outcome.crash? with
    | some how => return .crashed how
    | none => return .compiled key (.ofCompiled index path c)

/-- Keep a module in the cache. That it cannot be kept does no harm. -/
def keep (o : BatchOptions) (path : Bytes) (key : Digest) (r : FileResult) : BatchM FileWork := do
  match r.outcome, o.cache with
  | .ok m, some cache =>
    let entry := CacheEntry.ofModule r.name m r.bag r.files
    let _ ← observed path .cache do
      return (← inSession (SessionM.onDisk (cache.put key entry))).mapError
        fun e => Failure.other e.message
    return .settled key r
  | _, _ => return .settled key r

/-- Remember a result for the rest of the batch. -/
def remember (path : Bytes) (key : Digest) (r : FileResult) : BatchM FileWork := do
  modify fun b => { b with memory := ⟨path, key, r⟩ :: b.memory }
  finish r

/-- A step of the work on a file. -/
def step (o : BatchOptions) (index : Nat) (path : Bytes) : FileWork → BatchM FileWork
  | .waiting => load o index path
  | .loaded data key => lookBack path data key
  | .unremembered data key => lookUp o index path data key
  | .fresh data key => compile o index path data key
  | .compiled key r => keep o path key r
  | .settled key r => remember path key r
  | .finished r => return .finished r
  | .crashed how => return .crashed how

/-- The most steps that the work on a file takes. -/
def maxSteps : Nat := 6

end FileWork

namespace BatchM

/-- How the process ended with the work on some file, if it did. -/
def crash? (works : List FileWork) : Option Crash := works.findSome? (·.crash?)

/-- Let the work on one file make a step, as long as the process goes on. -/
def stepAt (o : BatchOptions) (paths : List Bytes) (works : List FileWork) (i : Nat) :
    BatchM (List FileWork) := do
  match crash? works, paths[i]?, works[i]? with
  | none, some path, some w => return works.set i (← w.step o i path)
  | _, _, _ => return works

/-- Let the work on files make steps in the order of a schedule. -/
def follow (o : BatchOptions) (paths : List Bytes) (schedule : List Nat) : BatchM (List FileWork) :=
  schedule.foldlM (stepAt o paths) (paths.map fun _ => .waiting)

end BatchM

/-- The schedule on which one file after the other is worked on. -/
def oneByOne (files : Nat) : List Nat :=
  (List.range files).flatMap fun i => List.replicate FileWork.maxSteps i

/-- What came out of a batch: the results in the order of the paths, or why there are none. -/
structure BatchOutcome where
  results : Result (List FileResult)
  /-- What observers were told. -/
  phases : List PhaseEvent := []

/-- Compile files. -/
def compileFiles (o : BatchOptions) (paths : List Bytes) : SessionM BatchOutcome :=
  if paths.isEmpty then return { results := .ok [] }
  else
    SessionM.within .driver "compile_files" do
      if o.cancelled then return { results := .error cancelFailure }
      else fun s =>
        let (works, b) := (BatchM.follow o paths (oneByOne paths.length)).run { session := s }
        let results : Result (List FileResult) :=
          match BatchM.crash? works with
          | some how => .error (.crash how)
          | none => .ok (works.filterMap (·.result?))
        ({ results := results, phases := b.phases.reverse }, b.session)

end WastForge
