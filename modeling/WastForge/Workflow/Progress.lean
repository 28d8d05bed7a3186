import WastForge.Diagnostic.Basic
import WastForge.Path
import WastForge.Text.Utf8

/-!
# Progress

While files are worked on, events say how far each of them has come. An event without a file is
about the work as a whole.
-/

namespace WastForge

/-- A stretch of the work on a file, by its name. -/
structure Stage where
  name : Bytes := []
  deriving Repr, DecidableEq, Inhabited

namespace Stage

/-- Reading a program. -/
def decode : Stage := ⟨"decode"⟩

/-- Finding the module of a program. -/
def emit : Stage := ⟨"emit"⟩

/-- Storing a module. -/
def write : Stage := ⟨"write"⟩

/-- Running the directives of a module. -/
def run : Stage := ⟨"run"⟩

end Stage

/-- How far the work has come within a stage, by its name. -/
structure Status where
  name : Bytes := []
  deriving Repr, DecidableEq, Inhabited

namespace Status

/-- The work waits for its turn. -/
def queued : Status := ⟨"queued"⟩

/-- The work is going on. -/
def working : Status := ⟨"working"⟩

/-- The work is finished. -/
def done : Status := ⟨"done"⟩

/-- The work failed. -/
def error : Status := ⟨"error"⟩

end Status

/-- A step of the work on a file. -/
structure ProgressEvent where
  file : Bytes := []
  stage : Stage
  status : Status
  failure : Option Failure := none
  deriving Inhabited

namespace Progress

/-- The name under which events speak of a file: its path seen from a base directory, if it lies
below that. -/
def displayName (cwd base path : Bytes) : Bytes :=
  let base := Utf8.trim base
  if base.isEmpty then Path.clean path
  else
    let full := Path.absolute cwd path
    match Path.relative? (Path.absolute cwd base) full with
    | some rel => if rel == "." || (Bytes.after? ".." rel).isSome then full else rel
    | none => full

/-- Names in order, each of them once. -/
def distinct (names : List Bytes) : List Bytes := Bytes.sort names.eraseDups

/-- The names of all files. -/
def displayNames (cwd base : Bytes) (paths : List Bytes) : List Bytes :=
  distinct ((paths.filter (!·.isEmpty)).map (displayName cwd base))

end Progress

/-!
## The times of stages

How long each stage of the work took, in nanoseconds.
-/

/-- The times of stages, the one that was set last first. -/
structure StageTimes where
  times : List (Stage × Int64) := []
  deriving Repr, DecidableEq, Inhabited

namespace StageTimes

/-- Set the time of a stage. -/
def set (t : StageTimes) (s : Stage) (ns : Int64) : StageTimes := ⟨(s, ns) :: t.times⟩

/-- Whether the time of a stage is known. -/
def has (t : StageTimes) (s : Stage) : Bool := (t.times.lookup s).isSome

/-- The time of a stage; zero if it is not known. -/
def get (t : StageTimes) (s : Stage) : Int64 := (t.times.lookup s).getD 0

/-- The times of some stages in all. -/
def sum (t : StageTimes) (stages : List Stage) : Int64 :=
  stages.foldl (fun n s => n + t.get s) 0

end StageTimes

end WastForge
