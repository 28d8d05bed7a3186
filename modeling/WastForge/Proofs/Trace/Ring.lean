import Mathlib.Data.List.DropRight
import WastForge.Trace.Tracer

/-!
# The newest events

A ring fills its slots one after the other and begins again behind the last one. So the number of
events that it has taken in says where it stands: the next slot is that number modulo the capacity,
and the ring is full as soon as that number reaches the capacity.

What it shows is then the end of all that it has taken in, of as many events as there are slots. One
more event keeps this up: a full ring forgets its oldest one for it, and any other ring has room.
-/

namespace WastForge

/-! ## The end of a list -/

/-- The end of a list gives up its first element for a new one behind it, once it is as long as it
may be. -/
theorem rtake_concat {α : Type} {n : Nat} (hn : 0 < n) (l : List α) (x : α) :
    (l ++ [x]).rtake n = (if n ≤ l.length then (l.rtake n).tail else l.rtake n) ++ [x] := by
  obtain ⟨m, rfl⟩ := Nat.exists_eq_succ_of_ne_zero hn.ne'
  rw [List.rtake_concat_succ, List.rtake, List.rtake]
  split
  · rw [List.tail_drop]
    congr 2
    omega
  · congr 2
    omega

theorem rtake_min_length {α : Type} (l : List α) (n : Nat) :
    l.rtake (min l.length n) = l.rtake n := by
  rw [List.rtake, List.rtake]
  congr 1
  omega

namespace Ring

variable {r : Ring} {e : TraceEvent} {taken : List TraceEvent}

/-! ## One event -/

theorem older_ne_nil (r : Ring) : r.older ≠ [] := by
  rw [older, ne_eq, List.drop_eq_nil_iff, Vector.length_toList]
  exact Nat.not_le_of_lt r.head.isLt

/-- An event takes the slot of the first of the older ones. -/
theorem toList_set (r : Ring) (e : TraceEvent) :
    (r.slots.set r.head e r.head.isLt).toList = (r.newer ++ [e]) ++ r.older.tail := by
  rw [Vector.toList_set, List.set_eq_take_append_cons_drop, if_pos (by simp), newer, older,
    List.tail_drop, List.append_assoc, List.singleton_append]

theorem emit_of_not_passes (h : ¬e.passes r.level) : r.emit e = r := by
  rw [emit, if_pos (by simpa using h)]

theorem capacity_emit (r : Ring) (e : TraceEvent) : (r.emit e).capacity = r.capacity := by
  rw [emit]
  split <;> rfl

theorem level_emit (r : Ring) (e : TraceEvent) : (r.emit e).level = r.level := by
  rw [emit]
  split <;> rfl

theorem head_emit (h : e.passes r.level) :
    ((r.emit e).head : Nat) = (r.head + 1) % r.capacity := by
  rw [emit, if_neg (by simpa using h)]

theorem full_emit (h : e.passes r.level) :
    (r.emit e).full ↔ r.full ∨ (r.head + 1) % r.capacity = 0 := by
  rw [emit, if_neg (by simpa using h)]
  simp

theorem newer_emit (h : e.passes r.level) : (r.emit e).newer
    = ((r.newer ++ [e]) ++ r.older.tail).take ((r.head + 1) % r.capacity) := by
  rw [newer, emit, if_neg (by simpa using h), toList_set]

theorem older_emit (h : e.passes r.level) : (r.emit e).older
    = ((r.newer ++ [e]) ++ r.older.tail).drop ((r.head + 1) % r.capacity) := by
  rw [older, emit, if_neg (by simpa using h), toList_set]

/-- A full ring forgets its oldest event for a new one, any other ring none. -/
theorem snapshot_emit (h : e.passes r.level) :
    (r.emit e).snapshot = (if r.full then r.snapshot.tail else r.snapshot) ++ [e] := by
  have htail : (r.older ++ r.newer).tail = r.older.tail ++ r.newer :=
    List.tail_append_of_ne_nil r.older_ne_nil
  rcases Nat.lt_or_eq_of_le r.head.isLt with hlt | heq
  · have hmod : (r.head + 1) % r.capacity = r.head + 1 := Nat.mod_eq_of_lt hlt
    have hlength : (r.newer ++ [e]).length = r.head + 1 := by simp [newer, r.head.isLt.le]
    have hnewer : (r.emit e).newer = r.newer ++ [e] := by
      rw [newer_emit h, hmod, List.take_left' hlength]
    have holder : (r.emit e).older = r.older.tail := by
      rw [older_emit h, hmod, List.drop_left' hlength]
    have hfull : (r.emit e).full = r.full := by
      rw [Bool.eq_iff_iff, full_emit h, hmod, or_iff_left (Nat.succ_ne_zero _)]
    rw [snapshot, snapshot, hfull, hnewer, holder]
    split
    · rw [htail, List.append_assoc]
    · rfl
  · -- The last slot is filled, so no older event is left and all slots count as older now.
    have hmod : (r.head + 1) % r.capacity = 0 := by rw [← Nat.succ_eq_add_one, heq, Nat.mod_self]
    have hnone : r.older.tail = [] := by simp [older, List.tail_drop, heq.ge]
    have hnewer : (r.emit e).newer = [] := by rw [newer_emit h, hmod, List.take_zero]
    have holder : (r.emit e).older = r.newer ++ [e] := by
      rw [older_emit h, hmod, List.drop_zero, hnone, List.append_nil]
    have hfull : (r.emit e).full := (full_emit h).mpr (.inr hmod)
    rw [snapshot, snapshot, if_pos hfull, hnewer, holder, List.append_nil]
    split
    · rw [htail, hnone, List.nil_append]
    · rfl

/-! ## All events -/

/-- How a ring stands once it has taken in some events, in order. -/
structure Took (r : Ring) (taken : List TraceEvent) : Prop where
  head : r.head = taken.length % r.capacity
  full : r.full ↔ r.capacity ≤ taken.length
  snapshot : r.snapshot = taken.rtake r.capacity

theorem took_ofCapacity (capacity : Int) (level : TraceLevel) :
    (ofCapacity capacity level).Took [] where
  head := (Nat.zero_mod _).symm
  full := iff_of_false Bool.false_ne_true (Nat.not_le_of_lt (ofCapacity capacity level).head.pos)
  snapshot := by rw [List.rtake_nil]; rfl

/-- There are as many events as slots just when there were as many before the last one, or when the
next slot is the first one again. -/
theorem wraps_iff {n capacity : Nat} (hpos : 0 < capacity) :
    (capacity ≤ n ∨ (n % capacity + 1) % capacity = 0) ↔ capacity ≤ n + 1 := by
  rw [Nat.mod_add_mod]
  rcases Nat.lt_trichotomy (n + 1) capacity with hlt | rfl | hgt
  · rw [Nat.mod_eq_of_lt hlt]
    omega
  · simp
  · omega

/-- An event that passes the level is taken in behind the others. -/
theorem Took.emit (h : r.Took taken) (hpasses : e.passes r.level) :
    (r.emit e).Took (taken ++ [e]) where
  head := by
    rw [head_emit hpasses, capacity_emit, h.head, Nat.mod_add_mod, List.length_append,
      List.length_singleton]
  full := by
    rw [full_emit hpasses, capacity_emit, h.full, h.head, wraps_iff r.head.pos,
      List.length_append, List.length_singleton]
  snapshot := by
    rw [snapshot_emit hpasses, capacity_emit, rtake_concat r.head.pos, h.snapshot]
    simp only [h.full]

/-- Of all events, those that pass the level are taken in. -/
theorem Took.emitAll (h : r.Took taken) (events : List TraceEvent) :
    (events.foldl Ring.emit r).Took (taken ++ events.filter (·.passes r.level)) := by
  induction events generalizing r taken with
  | nil => rwa [List.filter_nil, List.append_nil]
  | cons e rest ih =>
    rw [List.foldl_cons, List.filter_cons]
    by_cases hpasses : e.passes r.level
    · have hrest := ih (h.emit hpasses)
      rw [level_emit, List.append_assoc, List.singleton_append] at hrest
      rwa [if_pos hpasses]
    · rw [emit_of_not_passes hpasses, if_neg hpasses]
      exact ih h

theorem capacity_ofCapacity {capacity : Int} (h : 1 ≤ capacity) (level : TraceLevel) :
    (ofCapacity capacity level).capacity = capacity.toNat :=
  if_neg (Int.not_le_of_gt h)

theorem capacity_emitAll (r : Ring) (events : List TraceEvent) :
    (events.foldl emit r).capacity = r.capacity := by
  induction events generalizing r with
  | nil => rfl
  | cons e rest ih => rw [List.foldl_cons, ih, capacity_emit]

/-- Whatever a ring was given, it shows the newest of the events that passed its level, as many as
it has slots, or all of them if fewer passed, and the oldest first. Heartbeats pass every level. -/
theorem snapshot_emitAll (capacity : Int) (hcapacity : 1 ≤ capacity) (level : TraceLevel)
    (events : List TraceEvent) :
    let passed := events.filter fun e => level.records e.scope || e.kind = .heartbeat
    (events.foldl emit (ofCapacity capacity level)).snapshot
      = passed.rtake (min passed.length capacity.toNat) := by
  intro passed
  have htook := (took_ofCapacity capacity level).emitAll events
  have hslots : (events.foldl emit (ofCapacity capacity level)).capacity = capacity.toNat :=
    (capacity_emitAll ..).trans (capacity_ofCapacity hcapacity level)
  rw [rtake_min_length, ← hslots]
  exact htook.snapshot

/-- Four of these events pass where passes are recorded. -/
def mixedEvents : List TraceEvent :=
  [{ kind := .point, scope := .pass, name := "a" },
    { kind := .point, scope := .function, name := "hidden" },
    { kind := .point, scope := .pass, name := "b" },
    { kind := .heartbeat, scope := .function, name := "c" },
    { kind := .point, scope := .driver, name := "d" }]

/-- Two slots are filled twice, and the second round is shown. -/
theorem snapshot_mixedEvents : (1 : Int) ≤ 2 ∧
    (mixedEvents.foldl emit (ofCapacity 2 .phase)).snapshot
      = [{ kind := .heartbeat, scope := .function, name := "c" },
        { kind := .point, scope := .driver, name := "d" }] :=
  ⟨by decide, (snapshot_emitAll 2 (by decide) .phase mixedEvents).trans (by decide)⟩

end Ring

end WastForge
