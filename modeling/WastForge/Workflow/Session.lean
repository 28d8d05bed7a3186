import WastForge.Disk
import WastForge.Trace.Journal
import WastForge.Workflow.Progress

/-!
# Sessions

A session is what work on files reads and changes: the disk, the journal and the events that tell
of the progress.
-/

namespace WastForge

/-- What work on files reads and changes. -/
structure Session where
  disk : Disk := {}
  /-- What happened, the latest entry first. -/
  journal : Journal := []
  /-- How far the files have come, the latest event first. -/
  events : List ProgressEvent := []
  deriving Inhabited

/-- Work in a session. -/
abbrev SessionM := StateM Session

namespace SessionM

/-- Tell of a step. -/
def tell (e : ProgressEvent) : SessionM Unit :=
  modify fun s => { s with events := e :: s.events }

/-- Tell of a step of the work as a whole, and then of each file. -/
def tellAll (files : List Bytes) (stage : Stage) (status : Status)
    (failure : Option Failure) : SessionM Unit := do
  tell { stage := stage, status := status, failure := failure }
  files.forM fun f => tell { file := f, stage := stage, status := status, failure := failure }

/-- Tell that files wait for their turn. -/
def tellQueued (files : List Bytes) : SessionM Unit :=
  files.forM fun f => tell { file := f, stage := .decode, status := .queued }

/-- Write an entry into the journal. -/
def note (e : JournalEntry) : SessionM Unit :=
  modify fun s => { s with journal := e :: s.journal }

/-- Do a piece of work between its beginning and its end. -/
def within {α : Type} (scope : Scope) (name : Bytes) (act : SessionM α) : SessionM α := do
  note (.enter scope name)
  let a ← act
  note (.leave [] [])
  return a

/-- Do work that writes into the journal only. -/
def work {α : Type} (act : Work α) : SessionM (Result α) := fun s =>
  let (r, j) := act.run s.journal
  (r, { s with journal := j })

/-- Do work on the disk. -/
def onDisk {α : Type} (act : DiskM α) : SessionM (Except DiskError α) := fun s =>
  let (r, d) := act.run s.disk
  (r, { s with disk := d })

end SessionM

end WastForge
