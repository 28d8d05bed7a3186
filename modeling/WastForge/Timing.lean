import WastForge.Number.Binary64
import WastForge.Number.FloatText
import WastForge.Text.Utf8

/-!
# Times of phases

How long the phases of a compilation take: reports, and the timers that they come from.
-/

namespace WastForge

/-!
## Timing reports

How long the phases of a compilation took, in milliseconds. Reports of several compilations are
added up phase by phase.
-/

/-- The time of a phase. -/
structure PhaseTime where
  name : Bytes
  /-- Milliseconds, as the bits of a number. -/
  millis : UInt64 := 0
  note : Bytes := []
  deriving Repr, DecidableEq, Inhabited

/-- The times of all phases. -/
structure TimingReport where
  /-- Milliseconds in all, as the bits of a number. -/
  total : UInt64 := 0
  phases : List PhaseTime := []
  deriving Repr, DecidableEq, Inhabited

namespace TimingReport

/-- Add the time of a phase to the one of its name, or put it last. -/
def addPhase (p : PhaseTime) : List PhaseTime → List PhaseTime
  | [] => [{ name := p.name, millis := Binary64.add 0 p.millis }]
  | q :: rest =>
    if q.name = p.name then { q with millis := Binary64.add q.millis p.millis } :: rest
    else q :: addPhase p rest

/-- Add a report to another one. Notes are dropped. -/
def add (r s : TimingReport) : TimingReport where
  total := Binary64.add r.total s.total
  phases := s.phases.foldl (fun l p => addPhase p l) r.phases

/-- The sum of reports; phases keep the order in which they come up first. -/
def merge (rs : List TimingReport) : TimingReport := rs.foldl add {}

/-- Put a phase among others, which go from the fastest to the slowest; of equal ones it comes
first. -/
def insertSlow (p : PhaseTime) : List PhaseTime → List PhaseTime
  | [] => [p]
  | q :: rest => if Binary64.lt q.millis p.millis then q :: insertSlow p rest else p :: q :: rest

/-- The `n` slowest phases, the slowest first; a negative number stands for all of them. -/
def slowest (r : TimingReport) (n : Int) : List PhaseTime :=
  let sorted := (r.phases.foldl (fun l p => insertSlow p l) []).reverse
  if n < 0 then sorted else sorted.take n.toNat

/-- A line of a summary. -/
def summaryLine (p : PhaseTime) : Bytes :=
  let name := p.name ++ List.replicate (20 - (Utf8.runes p.name).length) 32
  let note : Bytes := if p.note.isEmpty then [] else "  // " ++ p.note
  "  " ++ name ++ " " ++ Bytes.padLeft 8 32 (fixedFloat 2 p.millis.toNat) ++ " ms" ++ note ++ "\n"

/-- The report as a table. -/
def summary (r : TimingReport) : Bytes :=
  "timings:\n" ++ r.phases.flatMap summaryLine
    ++ summaryLine { name := "total", millis := r.total }

end TimingReport

/-!
## Timers

A timer is told when phases begin and end, and knows how long they took.
-/

/-- A phase that is timed; moments and durations are in nanoseconds. -/
structure TimedPhase where
  name : Bytes
  start : Int
  duration : Int := 0
  note : Bytes := []
  deriving Repr, DecidableEq, Inhabited

/-- The phases that a timer was told of, in the order of their beginning. -/
structure Timer where
  phases : List TimedPhase := []
  deriving Repr, DecidableEq, Inhabited

namespace Timer

/-- Begin a phase; the answer is the number by which it is ended. -/
def start (t : Timer) (now : Int) (name : Bytes) : Timer × Nat :=
  ({ phases := t.phases ++ [{ name := name, start := now }] }, t.phases.length)

/-- End a phase. A number that no phase has changes nothing. -/
def stop (t : Timer) (now : Int) (index : Int) (note : Bytes) : Timer :=
  if index < 0 then t
  else
    { phases := t.phases.modify index.toNat fun p =>
        { p with duration := now - p.start, note := note } }

/-- Time work as a phase; a failure is noted. -/
def measure {ε α : Type} (t : Timer) (before after : Int) (name : Bytes) (outcome : Except ε α) :
    Timer × Except ε α :=
  let (t, i) := t.start before name
  (t.stop after i (match outcome with
    | .ok _ => []
    | .error _ => "failed"), outcome)

/-- Nanoseconds as milliseconds. -/
def millis (ns : Int) : UInt64 := Binary64.div (Binary64.ofInt ns) (Binary64.ofInt 1000000)

/-- The times of all phases. -/
def report (t : Timer) : TimingReport where
  total := millis (t.phases.foldl (fun ns p => ns + p.duration) 0)
  phases := t.phases.map fun p => ⟨p.name, millis p.duration, p.note⟩

end Timer

end WastForge
