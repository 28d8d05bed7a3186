import WastForge.Trace.Event
import WastForge.Trace.Journal

/-!
# Spans

The events of a journal. A piece of work whose scope is recorded is a span with a number of its
own, and what happens within it names that span as its parent.

The outermost work on a program is watched even when its scope is not recorded: it counts as in
flight, and takes the place of the span around it for what happens within it.
-/

namespace WastForge

/-- What new spans hang under. -/
structure SpanContext where
  span : UInt64 := 0
  scope : Scope := {}
  deriving Repr, DecidableEq, Inhabited

/-- A piece of work that has begun. -/
structure OpenSpan where
  /-- Its number; zero if it is not recorded. -/
  id : UInt64
  parent : UInt64
  scope : Scope
  name : Bytes
  /-- Whether it counts as a program in flight. -/
  inFlight : Bool
  /-- What new spans hang under once it has ended. -/
  outer : SpanContext
  deriving Repr, DecidableEq, Inhabited

/-- Where the reading of a journal stands. -/
structure SpanReader where
  lastSpan : UInt64 := 0
  lastSeq : UInt64 := 0
  context : SpanContext := {}
  /-- The work that has begun and not ended, the latest first. -/
  opened : List OpenSpan := []
  deriving Repr, DecidableEq, Inhabited

namespace SpanReader

/-- Begin a piece of work. -/
def enter (level : TraceLevel) (r : SpanReader) (scope : Scope) (name : Bytes) :
    SpanReader × List TraceEvent :=
  let recorded := level.records scope
  let id := if recorded then r.lastSpan + 1 else 0
  let inFlight := scope = .program && r.context.scope ≠ .program
  let parent := if recorded then r.context.span else 0
  let opened : OpenSpan := ⟨id, parent, scope, name, inFlight, r.context⟩
  let seq := if recorded then r.lastSeq + 1 else r.lastSeq
  let event : TraceEvent :=
    { seq := seq, kind := .spanBegin, scope := scope, span := id, parent := opened.parent
      thread := 1, name := name }
  ({ lastSpan := if recorded then id else r.lastSpan
     lastSeq := seq
     context := if recorded || inFlight then ⟨id, scope⟩ else r.context
     opened := opened :: r.opened },
   if recorded then [event] else [])

/-- End the latest piece of work. -/
def leave (r : SpanReader) (detail : Bytes) (extra : List (Bytes × Bytes)) :
    SpanReader × List TraceEvent :=
  match r.opened with
  | [] => (r, [])
  | s :: rest =>
    let recorded := s.id ≠ 0
    let seq := if recorded then r.lastSeq + 1 else r.lastSeq
    let event : TraceEvent :=
      { seq := seq, kind := .spanEnd, scope := s.scope, span := s.id, parent := s.parent
        thread := 1, name := s.name, detail := detail, extra := extra }
    ({ r with lastSeq := seq, context := s.outer, opened := rest },
     if recorded then [event] else [])

/-- Read an entry of a journal. -/
def read (level : TraceLevel) (r : SpanReader) : JournalEntry → SpanReader × List TraceEvent
  | .warning _ => (r, [])
  | .enter scope name => r.enter level scope name
  | .leave detail extra => r.leave detail extra
  | .point scope name detail =>
    if level.records scope then
      ({ r with lastSeq := r.lastSeq + 1 },
       [{ seq := r.lastSeq + 1, kind := .point, scope := scope, parent := r.context.span
          thread := 1, name := name, detail := detail }])
    else (r, [])

/-- Read entries in the order in which they were written. -/
def readAll (level : TraceLevel) (r : SpanReader) :
    List JournalEntry → SpanReader × List TraceEvent
  | [] => (r, [])
  | e :: rest =>
    let (r, es) := r.read level e
    let (r, more) := readAll level r rest
    (r, es ++ more)

/-- The programs in flight, in order. -/
def programs (r : SpanReader) : List Bytes :=
  Bytes.sort ((r.opened.filter (·.inFlight)).map (·.name))

end SpanReader

namespace Journal

/-- The reading of a whole journal. -/
def spans (j : Journal) (level : TraceLevel) : SpanReader × List TraceEvent :=
  SpanReader.readAll level {} j.reverse

end Journal

end WastForge
