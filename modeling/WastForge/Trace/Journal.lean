import WastForge.Diagnostic.Basic
import WastForge.Trace.Level

/-!
# Journals

Work on a program is written down as it goes: which piece of work begins and ends, and which
warnings come up. Diagnostics and traces are both read off the journal afterwards.
-/

namespace WastForge

/-- Something that happened. -/
inductive JournalEntry where
  /-- A warning came up. -/
  | warning (d : Diagnostic)
  /-- A piece of work began. -/
  | enter (scope : Scope) (name : Bytes)
  /-- The piece of work that began last, and has not ended, ended. -/
  | leave (detail : Bytes) (counts : List (Bytes × Bytes))
  /-- A moment worth noting. -/
  | point (scope : Scope) (name detail : Bytes)
  deriving Repr, DecidableEq, Inhabited

/-- What happened, the latest entry first. -/
abbrev Journal := List JournalEntry

namespace Journal

/-- The warnings in the order in which they came up. -/
def warnings (j : Journal) : List Diagnostic :=
  j.reverse.filterMap fun
    | .warning d => some d
    | _ => none

end Journal

/-- Work that is written down as it goes. A failure keeps what was written. -/
abbrev Work := ExceptT Failure (StateM Journal)

namespace Work

/-- Write an entry. -/
def note (e : JournalEntry) : Work Unit := modify (e :: ·)

/-- Write a warning. -/
def warn (d : Diagnostic) : Work Unit := note (.warning d)

/-- Stop with a problem at a place. -/
def problem {α : Type} (code : Code) (span : Span) (message : Bytes) : Work α :=
  throw (.problem (.fatal code span message))

/-- Go on with what is there; without it the process ends. -/
def need {α : Type} (how : Crash) : Option α → Work α
  | some a => pure a
  | none => throw (.crash how)

/-- Do a piece of work between its beginning and its end, which comes after a failure too. -/
def within {α : Type} (scope : Scope) (name : Bytes) (act : Work α) : Work α := fun j =>
  let (r, j) := act.run (.enter scope name :: j)
  (r, .leave [] [] :: j)

/-- Say of a failure in which member it happened. -/
def inMember {α : Type} (member : Bytes) (act : Work α) : Work α := fun j =>
  let (r, j) := act.run j
  match r with
  | .error (.problem d) => (.error (.problem (d.inMember member)), j)
  | .error f => (.error (.during member f), j)
  | .ok a => (.ok a, j)

end Work

end WastForge
