import WastForge.Path
import WastForge.Text.Case
import WastForge.Text.Quoted

/-!
# What is traced

Every event belongs to a scope, from coarse to fine, and a level says down to which scope events
are recorded. The names of levels, formats and storage modes are those of the command line.
-/

namespace WastForge

/-- How much of the work an event is about; a lower rank is coarser. -/
structure Scope where
  rank : UInt8 := 0
  deriving Repr, DecidableEq, Inhabited

namespace Scope

/-- A command or a whole batch. -/
def driver : Scope := ⟨1⟩

/-- One pass over a program. -/
def pass : Scope := ⟨2⟩

/-- One program. -/
def program : Scope := ⟨3⟩

/-- One function. -/
def function : Scope := ⟨4⟩

/-- The name of a scope. -/
def name (s : Scope) : Bytes :=
  match s.rank.toNat with
  | 1 => "driver"
  | 2 => "pass"
  | 3 => "program"
  | 4 => "function"
  | _ => "unknown"

end Scope

/-- How much is recorded. -/
structure TraceLevel where
  rank : UInt8 := 0
  deriving Repr, DecidableEq, Inhabited

namespace TraceLevel

/-- Nothing is recorded. -/
def off : TraceLevel := ⟨0⟩

/-- Passes are recorded, for a dump after a failure. -/
def error : TraceLevel := ⟨1⟩

/-- Passes are recorded. -/
def phase : TraceLevel := ⟨2⟩

/-- Programs are recorded too. -/
def detail : TraceLevel := ⟨3⟩

/-- Everything is recorded. -/
def debug : TraceLevel := ⟨4⟩

/-- The name of a level. -/
def name (l : TraceLevel) : Bytes :=
  match l.rank.toNat with
  | 0 => "off"
  | 1 => "error"
  | 2 => "phase"
  | 3 => "detail"
  | 4 => "debug"
  | _ => "unknown"

/-- The named levels. -/
def named : List TraceLevel := [off, error, phase, detail, debug]

/-- The level with a name, in any case. -/
def ofName? (s : Bytes) : Option TraceLevel := named.find? (·.name == Case.lower s)

/-- What is wrong with a name that no level has. -/
def badName (s : Bytes) : Bytes :=
  "invalid trace level: " ++ Quoted.text s ++ " (expected: off|error|phase|detail|debug)"

/-- Whether anything is recorded at all. -/
def isOn (l : TraceLevel) : Bool := l ≠ off

/-- Whether events of a scope are recorded. -/
def records (l : TraceLevel) (s : Scope) : Bool :=
  if l = error || l = phase then s.rank ≤ Scope.pass.rank
  else if l = detail then s.rank ≤ Scope.program.rank
  else l = debug

end TraceLevel

/-- Where events go. -/
structure StorageMode where
  number : UInt8 := 0
  deriving Repr, DecidableEq, Inhabited

namespace StorageMode

/-- Straight to the output. -/
def stream : StorageMode := ⟨1⟩

/-- Into a ring that keeps the latest. -/
def ring : StorageMode := ⟨2⟩

/-- To the output and into a ring. -/
def both : StorageMode := ⟨3⟩

/-- The name of a mode. -/
def name (m : StorageMode) : Bytes :=
  match m.number.toNat with
  | 1 => "stream"
  | 2 => "ring"
  | 3 => "both"
  | _ => "unknown"

/-- The mode with a name, in any case and with blanks around it. -/
def ofName? (s : Bytes) : Option StorageMode :=
  [stream, ring, both].find? (·.name == Case.lower (Utf8.trim s))

/-- What is wrong with a name that no mode has. -/
def badName (s : Bytes) : Bytes :=
  "invalid storage mode: " ++ Quoted.text s ++ " (expected: stream|ring|both)"

end StorageMode

/-- How events are written. -/
inductive TraceFormat where
  /-- As the name of the output suggests. -/
  | auto
  /-- One indented line for a reader. -/
  | text
  /-- One JSON object to a line. -/
  | ndjson
  deriving Repr, DecidableEq, Inhabited

namespace TraceFormat

/-- The number of a format. -/
def number : TraceFormat → Nat
  | .auto => 0
  | .text => 1
  | .ndjson => 2

/-- The format with a name, in any case. -/
def ofName? (s : Bytes) : Option TraceFormat :=
  let word := Case.lower s
  if word.isEmpty || word == "auto" then some .auto
  else if word == "text" then some .text
  else if word == "ndjson" || word == "json" then some .ndjson
  else none

/-- What is wrong with a name that no format has. -/
def badName (s : Bytes) : Bytes :=
  "invalid trace format: " ++ Quoted.text s ++ " (expected: auto|text|ndjson)"

/-- The format that is used for an output. -/
def chosen (f : TraceFormat) (path : Bytes) : TraceFormat :=
  match f with
  | .auto =>
    let ending := Path.extension path
    if ending == ".ndjson" || ending == ".json" then .ndjson else .text
  | f => f

end TraceFormat

end WastForge
