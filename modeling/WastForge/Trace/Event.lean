import WastForge.Text.Json
import WastForge.Trace.Level

/-!
# Trace events

An event says what begins, ends or happens, in which scope and under which span. It is written as
an indented line or as a JSON object.
-/

namespace WastForge

/-- What an event tells, by its number. -/
structure EventKind where
  number : UInt8 := 0
  deriving Repr, DecidableEq, Inhabited

namespace EventKind

/-- A span begins. -/
def spanBegin : EventKind := ⟨1⟩

/-- A span ends. -/
def spanEnd : EventKind := ⟨2⟩

/-- Something happens. -/
def point : EventKind := ⟨3⟩

/-- Work is still going on. -/
def heartbeat : EventKind := ⟨4⟩

/-- The name of a kind. -/
def name (k : EventKind) : Bytes :=
  match k.number.toNat with
  | 1 => "begin"
  | 2 => "end"
  | 3 => "point"
  | 4 => "heartbeat"
  | _ => "unknown"

/-- The sign in front of an event on a line. -/
def sign (k : EventKind) : Bytes :=
  match k.number.toNat with
  | 1 => "→ "
  | 2 => "← "
  | 3 => "• "
  | 4 => "♡ "
  | _ => []

end EventKind

/-- An event. -/
structure TraceEvent where
  /-- Microseconds since the start of the year 1970. -/
  time : Int := 0
  seq : UInt64 := 0
  kind : EventKind := {}
  scope : Scope := {}
  /-- The number of the span, or zero. -/
  span : UInt64 := 0
  /-- The number of the span around it, or zero. -/
  parent : UInt64 := 0
  /-- The number of the thread that worked on it. -/
  thread : UInt64 := 0
  name : Bytes := []
  detail : Bytes := []
  /-- Further values, by their names. -/
  extra : List (Bytes × Bytes) := []
  deriving Repr, DecidableEq, Inhabited

/-- The year, month and day that are some days after the start of the year 1970. -/
def civilDate (days : Int) : Int × Nat × Nat :=
  -- Count from the first of March of the year 0, so that leap days come last.
  let z := days + 719468
  let era := z.fdiv 146097
  let dayOfEra := (z - era * 146097).toNat
  let yearOfEra := (dayOfEra - dayOfEra / 1460 + dayOfEra / 36524 - dayOfEra / 146096) / 365
  let dayOfYear := dayOfEra - (365 * yearOfEra + yearOfEra / 4 - yearOfEra / 100)
  let shifted := (5 * dayOfYear + 2) / 153
  let day := dayOfYear - (153 * shifted + 2) / 5 + 1
  let month := if shifted < 10 then shifted + 3 else shifted - 9
  let year := (yearOfEra : Int) + era * 400 + (if month ≤ 2 then 1 else 0)
  (year, month, day)

/-- The sign of a number. -/
def minus (n : Int) : Bytes := if n < 0 then "-" else []

/-- A number with leading zeros. -/
def zeroPadded (width n : Nat) : Bytes := Bytes.padLeft width 48 (Bytes.ofNat n)

/-- A moment in universal time, down to microseconds. -/
def timestamp (micros : Int) : Bytes :=
  let seconds := micros.fdiv 1000000
  let (year, month, day) := civilDate (seconds.fdiv 86400)
  let inDay := (seconds.fmod 86400).toNat
  minus year ++ zeroPadded 4 year.natAbs ++ "-" ++ zeroPadded 2 month ++ "-"
    ++ zeroPadded 2 day ++ "T" ++ zeroPadded 2 (inDay / 3600) ++ ":"
    ++ zeroPadded 2 (inDay / 60 % 60) ++ ":" ++ zeroPadded 2 (inDay % 60) ++ "."
    ++ zeroPadded 6 (micros.fmod 1000000).toNat ++ "Z"

/-- A time span in milliseconds, right-aligned. -/
def elapsed (micros : Int) : Bytes :=
  let n := micros.natAbs
  Bytes.padLeft 9 32
    (minus micros ++ Bytes.ofNat (n / 1000) ++ "." ++ zeroPadded 3 (n % 1000))

namespace TraceEvent

/-- The further values in the order of their names. -/
def sortedExtra (e : TraceEvent) : List (Bytes × Bytes) :=
  e.extra.mergeSort fun a b => Bytes.le a.1 b.1

/-- A line for a reader; `start` is the moment that times are counted from. -/
def line (e : TraceEvent) (start : Int) : Bytes :=
  let values := e.sortedExtra.map fun (k, v) => k ++ "=" ++ v
  let detail : Bytes := if e.detail.isEmpty then [] else " (" ++ e.detail ++ ")"
  let list : Bytes := if values.isEmpty then [] else " \x7b" ++ Bytes.join ", " values ++ "\x7d"
  let indent : Bytes :=
    List.replicate (2 * (e.scope.rank.toNat - Scope.driver.rank.toNat)) 32
  "[" ++ elapsed (e.time - start) ++ "ms] " ++ indent
    ++ e.kind.sign ++ e.name ++ detail ++ list ++ "\n"

/-- A JSON object on a line; zeros and empty texts are left out where they say nothing. -/
def json (e : TraceEvent) : Bytes :=
  let number (k : Bytes) (n : UInt64) : List (Bytes × Json) := [(k, .num n.toNat)]
  let unlessZero (k : Bytes) (n : UInt64) : List (Bytes × Json) := if n = 0 then [] else number k n
  let text (k v : Bytes) : List (Bytes × Json) := [(k, .str v)]
  let extra := e.sortedExtra.map fun (k, v) => (k, Json.str v)
  (Json.ofGroups
    [text "time" (timestamp e.time), number "seq" e.seq, text "kind" e.kind.name,
      text "scope" e.scope.name, number "span_id" e.span, unlessZero "parent_id" e.parent,
      unlessZero "gid" e.thread, text "name" e.name,
      if e.detail.isEmpty then [] else text "detail" e.detail,
      if extra.isEmpty then [] else [("extra", .obj extra)]]).compact
    ++ "\n"

/-- An event as it is written in a format. -/
def written (e : TraceEvent) (format : TraceFormat) (start : Int) : Bytes :=
  match format with
  | .ndjson => e.json
  | _ => e.line start

/-- Whether a level lets an event through; heartbeats always pass. -/
def passes (e : TraceEvent) (level : TraceLevel) : Bool :=
  level.records e.scope || e.kind = .heartbeat

end TraceEvent

end WastForge
