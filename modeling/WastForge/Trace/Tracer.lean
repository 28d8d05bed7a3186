import WastForge.Trace.Event

/-!
# Keeping events

Rings that keep the latest events, and tracers that take events in.
-/

namespace WastForge

/-!
## Rings

A ring keeps the latest events in a fixed number of slots. They are filled one after the other, and
behind the last slot the first one comes again, so that a full ring gives up its oldest event.
-/

/-- A ring of events. -/
structure Ring where
  capacity : Nat
  level : TraceLevel
  /-- A slot for each event that can be kept; what is in it at first is never shown. -/
  slots : Vector TraceEvent capacity
  /-- The slot that is filled next. -/
  head : Fin capacity
  /-- Whether every slot was filled. -/
  full : Bool := false
  deriving Repr

namespace Ring

/-- An empty ring; a capacity that is not positive stands for a large one. -/
def ofCapacity (capacity : Int) (level : TraceLevel) : Ring :=
  let count := if capacity ≤ 0 then 4096 else capacity.toNat
  { capacity := count
    level := level
    slots := .replicate count default
    head := ⟨0, by grind⟩ }

/-- Keep an event, if it passes the level. -/
def emit (r : Ring) (e : TraceEvent) : Ring :=
  if !e.passes r.level then r
  else
    let next := (r.head + 1) % r.capacity
    { r with
      slots := r.slots.set r.head e r.head.isLt
      head := ⟨next, Nat.mod_lt _ r.head.pos⟩
      full := r.full || next = 0 }

/-- The events that were kept since the first slot was filled last. -/
def newer (r : Ring) : List TraceEvent := r.slots.toList.take r.head

/-- What the slots from the next one on hold. -/
def older (r : Ring) : List TraceEvent := r.slots.toList.drop r.head

/-- The events that are kept, the oldest first. -/
def snapshot (r : Ring) : List TraceEvent := if r.full then r.older ++ r.newer else r.newer

/-- All events that are kept, as they are written in a format. -/
def dump (r : Ring) (format : TraceFormat) (start : Int) : Bytes :=
  r.snapshot.flatMap (·.written format start)

end Ring

/-!
## Tracers

A tracer takes events in. Depending on its mode it writes them out at once, keeps them in a ring,
or both.
-/

/-- What a tracer is asked to do. -/
structure TraceConfig where
  level : TraceLevel := .off
  mode : StorageMode := {}
  format : TraceFormat := .auto
  /-- The path of the output, which may suggest a format. -/
  path : Bytes := []
  ringSize : Int := 0
  deriving Repr, Inhabited

/-- A tracer and what it has taken in. -/
structure Tracer where
  level : TraceLevel := .off
  /-- What was written out, if anything is. -/
  stream : Option Bytes := none
  ring : Option Ring := none
  format : TraceFormat := .text
  /-- The moment that times are counted from. -/
  start : Int := 0
  deriving Inhabited

namespace Tracer

/-- The tracer that takes nothing in. -/
def none : Tracer := {}

/-- The tracer that a configuration asks for. -/
def ofConfig (c : TraceConfig) (start : Int) : Except Bytes Tracer :=
  if !c.level.isOn then .ok none
  else
    let streams := c.mode = .stream || c.mode = .both
    let keeps := c.mode = .ring || c.mode = .both
    if !streams && !keeps then .error ("unknown storage mode: " ++ c.mode.name)
    else
      .ok
        { level := c.level
          stream := if streams then some [] else Option.none
          ring := if keeps then some (.ofCapacity c.ringSize c.level) else Option.none
          format := c.format.chosen c.path
          start := start }

/-- Take an event in. -/
def emit (t : Tracer) (e : TraceEvent) : Tracer :=
  { t with
    stream := t.stream.map fun s =>
      if e.passes t.level then s ++ e.written t.format t.start else s
    ring := t.ring.map (·.emit e) }

/-- Take events in, one after the other. -/
def emitAll (t : Tracer) (es : List TraceEvent) : Tracer := es.foldl emit t

end Tracer

end WastForge
