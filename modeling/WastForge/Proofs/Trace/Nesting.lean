import Mathlib.Data.List.Forall2
import WastForge.Trace.Span

/-!
# Spans and the work around them

A journal says which work begins and ends, so at each place of it some work is going on, piece
within piece. A span should hang under the innermost recorded span around it, and a program should
count as in flight unless another one is around it.

A program always takes the place of what was around it, whether it is recorded or not. So a span
loses its parent where a program that is not recorded stands between the two, and a program is
counted again where another recorded span stands between it and the program around it. In all other
places both are as they should be.
-/

namespace WastForge

/-! ## Work at a place of a journal -/

/-- A piece of work that has begun and not ended. -/
structure OpenWork where
  /-- The number of its span; zero if it is not recorded. -/
  id : UInt64
  scope : Scope
  name : Bytes
  deriving Repr, DecidableEq, Inhabited

/-- How pieces of work are nested at a place of a journal. -/
structure Nesting where
  /-- How many spans have begun. -/
  spans : Nat := 0
  /-- The work that is going on, the innermost piece first. -/
  around : List OpenWork := []
  deriving Repr, DecidableEq, Inhabited

namespace Nesting

/-- Another piece of work begins. -/
def enter (level : TraceLevel) (n : Nesting) (scope : Scope) (name : Bytes) : Nesting where
  spans := if level.records scope then n.spans + 1 else n.spans
  around := ⟨if level.records scope then UInt64.ofNat (n.spans + 1) else 0, scope, name⟩ :: n.around

/-- The nesting behind an entry. -/
def next (level : TraceLevel) (n : Nesting) : JournalEntry → Nesting
  | .enter scope name => n.enter level scope name
  | .leave _ _ => { n with around := n.around.tail }
  | .warning _ | .point _ _ _ => n

/-- The nesting behind some entries. -/
def follow (level : TraceLevel) (n : Nesting) (entries : List JournalEntry) : Nesting :=
  entries.foldl (next level) n

end Nesting

/-- The beginning or the end of a piece of work. -/
structure Moment where
  kind : EventKind
  work : OpenWork
  /-- The work around it, the innermost piece first. -/
  around : List OpenWork
  deriving Repr, DecidableEq, Inhabited

namespace Nesting

/-- What begins or ends with an entry. -/
def moment? (level : TraceLevel) (n : Nesting) : JournalEntry → Option Moment
  | .enter scope name =>
    (n.enter level scope name).around.head?.map fun w => ⟨.spanBegin, w, n.around⟩
  | .leave _ _ => n.around.head?.map fun w => ⟨.spanEnd, w, n.around.tail⟩
  | .warning _ | .point _ _ _ => none

/-- What begins and ends with some entries, in order. -/
def moments (level : TraceLevel) : Nesting → List JournalEntry → List Moment
  | _, [] => []
  | n, e :: rest => (n.moment? level e).toList ++ moments level (n.next level e) rest

end Nesting

/-! ## What stands around a piece of work -/

namespace OpenWork

variable (level : TraceLevel)

/-- The number of the innermost recorded span; zero if there is none. -/
def recordedId (around : List OpenWork) : UInt64 :=
  ((around.find? fun w => level.records w.scope).map (·.id)).getD 0

/-- The outermost program. -/
def outermost? (around : List OpenWork) : Option OpenWork :=
  around.reverse.find? fun w => w.scope = .program

/-- Within the innermost recorded span stands a program, which is not recorded. -/
def Masked (around : List OpenWork) : Prop :=
  ∃ inner r outer, around = inner ++ r :: outer ∧ level.records r.scope
    ∧ (∀ w ∈ inner, ¬level.records w.scope) ∧ ∃ w ∈ inner, w.scope = .program

/-- A recorded span that is no program stands within a program and around another one. -/
def Parted (around : List OpenWork) : Prop :=
  ∃ p r q, [p, r, q].Sublist around ∧ p.scope = .program ∧ q.scope = .program
    ∧ level.records r.scope ∧ r.scope ≠ .program

/-- Only recorded spans have numbers. -/
def Numbered (around : List OpenWork) : Prop :=
  ∀ w ∈ around, w.id ≠ 0 ↔ level.records w.scope

/-- What new spans hang under. -/
def context : List OpenWork → SpanContext
  | [] => {}
  | w :: rest =>
    if level.records w.scope || (w.scope = .program && (context rest).scope ≠ .program) then
      ⟨w.id, w.scope⟩
    else context rest

/-- Whether a piece of work counts as a program in flight. -/
def isInFlight (w : OpenWork) (around : List OpenWork) : Bool :=
  w.scope = .program && (context level around).scope ≠ .program

/-- The programs in flight. -/
def inFlight : List OpenWork → List Bytes
  | [] => []
  | w :: rest => if isInFlight level w rest then w.name :: inFlight rest else inFlight rest

/-- The work as the reader of a journal remembers it. -/
def openSpans : List OpenWork → List OpenSpan
  | [] => []
  | w :: rest =>
    ⟨w.id, if level.records w.scope then (context level rest).span else 0, w.scope, w.name,
      isInFlight level w rest, context level rest⟩ :: openSpans rest

variable {level} {around : List OpenWork}

/-- A piece of work that new spans hang under: it is recorded, or it is a program. -/
def marks (level : TraceLevel) (w : OpenWork) : Bool :=
  level.records w.scope || w.scope = .program

theorem Numbered.tail {w : OpenWork} (h : Numbered level (w :: around)) : Numbered level around :=
  fun v hv => h v (List.mem_cons_of_mem w hv)

theorem Numbered.id_eq_zero {w : OpenWork} (h : Numbered level around) (hw : w ∈ around)
    (hrec : level.records w.scope = false) : w.id = 0 :=
  Decidable.byContradiction fun hne =>
    Bool.false_ne_true (hrec.symm.trans ((h w hw).mp hne))

/-- New spans hang under the innermost piece of work that is recorded or a program. -/
theorem context_eq (h : Numbered level around) : context level around
    = ((around.find? (marks level)).map fun w => ⟨w.id, w.scope⟩).getD {} := by
  induction around with
  | nil => rfl
  | cons w rest ih =>
    have hrest := ih h.tail
    rw [context, List.find?_cons]
    by_cases hrec : level.records w.scope
    · rw [hrec, Bool.true_or, if_pos rfl, marks, hrec, Bool.true_or]
      rfl
    rw [Bool.not_eq_true] at hrec
    by_cases hprogram : w.scope = .program
    · have hmarks : marks level w = true := by simp [marks, hprogram]
      rw [hmarks, hrec]
      simp only [hprogram, decide_true, Bool.false_or, Bool.true_and, decide_eq_true_eq,
        Option.map_some, Option.getD_some]
      split
      · rfl
      · next hcontext =>
        -- The program around it is not recorded either, so both leave the same context.
        rw [Decidable.not_not] at hcontext
        rw [hrest] at hcontext ⊢
        cases hfind : rest.find? (marks level) with
        | none =>
          rw [hfind] at hcontext
          exact absurd hcontext (by decide)
        | some v =>
          rw [hfind] at hcontext
          have hv : v.scope = .program := hcontext
          have hvrec : level.records v.scope = false := by rw [hv, ← hprogram, hrec]
          have hvid := h.tail.id_eq_zero (List.mem_of_find?_eq_some hfind) hvrec
          have hwid := h.id_eq_zero List.mem_cons_self hrec
          rw [Option.map_some, Option.getD_some, hvid, hv, hwid]
    · have hmarks : marks level w = false := by simp [marks, hrec, hprogram]
      simp only [hmarks, hrec, hprogram, decide_false, Bool.false_and, Bool.or_false,
        Bool.false_eq_true, if_false, hrest]

theorem recordedId_of_split {inner outer : List OpenWork} {r : OpenWork}
    (hr : level.records r.scope) (hinner : ∀ w ∈ inner, ¬level.records w.scope) :
    recordedId level (inner ++ r :: outer) = r.id := by
  have hfind : (inner ++ r :: outer).find? (fun w => level.records w.scope) = some r :=
    List.find?_eq_some_iff_append.mpr ⟨hr, inner, outer, rfl, by simpa using hinner⟩
  rw [recordedId, hfind]
  rfl

/-- A program that masks the recorded span around it leaves no number. -/
theorem Masked.context_span (h : Masked level around) (hid : Numbered level around) :
    (context level around).span = 0 := by
  obtain ⟨inner, r, outer, rfl, hr, hinner, w, hw, hprogram⟩ := h
  obtain ⟨v, hv⟩ : ∃ v, inner.find? (marks level) = some v := by
    rw [← Option.isSome_iff_exists, List.find?_isSome]
    exact ⟨w, hw, by simp [marks, hprogram]⟩
  have hmem := List.mem_of_find?_eq_some hv
  rw [context_eq hid, List.find?_append, hv]
  exact hid.id_eq_zero (List.mem_append_left _ hmem) (by simpa using hinner v hmem)

/-- Unless a program masks it, new spans hang under the innermost recorded span. -/
theorem context_span_of_not_masked (h : ¬Masked level around) (hid : Numbered level around) :
    (context level around).span = recordedId level around := by
  rw [context_eq hid]
  cases hfind : around.find? fun w => level.records w.scope with
  | none =>
    rw [recordedId, hfind]
    cases hmark : around.find? (marks level) with
    | none => rfl
    | some v =>
      have hmem := List.mem_of_find?_eq_some hmark
      exact hid.id_eq_zero hmem (by simpa using List.find?_eq_none.mp hfind v hmem)
  | some r =>
    obtain ⟨hr, inner, outer, rfl, hinner⟩ := List.find?_eq_some_iff_append.mp hfind
    have hnone : inner.find? (marks level) = none := by
      refine List.find?_eq_none.mpr fun w hw hmark => h ⟨inner, r, outer, rfl, hr, ?_, w, hw, ?_⟩
      · simpa using hinner
      · have hrec : level.records w.scope = false := by simpa using hinner w hw
        simpa [marks, hrec] using hmark
    rw [List.find?_append, hnone, Option.none_or, List.find?_cons_of_pos (by simp [marks, hr]),
      recordedId, hfind]
    rfl

/-- Only where no recorded span is around is there no number. -/
theorem recordedId_eq_zero_iff (hid : Numbered level around) :
    recordedId level around = 0 ↔ ∀ w ∈ around, ¬level.records w.scope := by
  rw [recordedId]
  cases hfind : around.find? fun w => level.records w.scope with
  | none => exact iff_of_true rfl (List.find?_eq_none.mp hfind)
  | some r =>
    have hmem := List.mem_of_find?_eq_some hfind
    have hr := List.find?_some hfind
    exact iff_of_false ((hid r hmem).mpr hr) fun h => h r hmem hr

/-- New spans are roots just where a program masks the recorded span around it, or where there is
none. -/
theorem context_span_eq_zero_iff (hid : Numbered level around) :
    (context level around).span = 0
      ↔ Masked level around ∨ ∀ w ∈ around, ¬level.records w.scope := by
  by_cases hmasked : Masked level around
  · exact iff_of_true (hmasked.context_span hid) (.inl hmasked)
  · rw [context_span_of_not_masked hmasked hid, recordedId_eq_zero_iff hid, or_iff_right hmasked]

/-- New spans hang under the innermost recorded span just if no program masks it. -/
theorem context_span_iff (hid : Numbered level around) :
    (context level around).span = recordedId level around ↔ ¬Masked level around := by
  refine ⟨fun h hmasked => ?_, fun h => context_span_of_not_masked h hid⟩
  have hzero := hmasked.context_span hid
  obtain ⟨inner, r, outer, rfl, hr, hinner, -⟩ := hmasked
  rw [hzero, recordedId_of_split hr hinner] at h
  exact (hid r (List.mem_append_right _ List.mem_cons_self)).mpr hr h.symm

/-! ### Programs in flight -/

/-- New spans hang under a program just if the innermost piece that is recorded or a program is
one. -/
theorem context_scope_eq_program_iff (hid : Numbered level around) :
    (context level around).scope = .program
      ↔ ∃ p, around.find? (marks level) = some p ∧ p.scope = .program := by
  rw [context_eq hid]
  cases around.find? (marks level) with
  | none => simp [Scope.program]
  | some p => simp

theorem exists_program_of_context (hid : Numbered level around)
    (h : (context level around).scope = .program) : ∃ p ∈ around, p.scope = .program := by
  obtain ⟨p, hfind, hp⟩ := (context_scope_eq_program_iff hid).mp h
  exact ⟨p, List.mem_of_find?_eq_some hfind, hp⟩

theorem inFlight_eq_nil_iff (hid : Numbered level around) :
    inFlight level around = [] ↔ ¬∃ p ∈ around, p.scope = .program := by
  induction around with
  | nil => simp [inFlight]
  | cons w rest ih =>
    have hrest := ih hid.tail
    by_cases hprogram : w.scope = .program
    · refine iff_of_false ?_ fun h => h ⟨w, List.mem_cons_self, hprogram⟩
      by_cases hcontext : (context level rest).scope = .program
      · simpa [inFlight, isInFlight, hcontext, hrest] using
          exists_program_of_context hid.tail hcontext
      · simp [inFlight, isInFlight, hprogram, hcontext]
    · simp [inFlight, isInFlight, hprogram, hrest]

theorem outermost?_cons (w : OpenWork) (rest : List OpenWork) :
    outermost? (w :: rest)
      = (outermost? rest).or (if w.scope = .program then some w else none) := by
  simp [outermost?, List.find?_append, List.find?_singleton]

theorem outermost?_eq_none_iff :
    outermost? around = none ↔ ¬∃ p ∈ around, p.scope = .program := by
  simp [outermost?]

theorem Parted.exists_program (h : Parted level around) : ∃ p ∈ around, p.scope = .program := by
  obtain ⟨p, r, q, hsub, hp, -⟩ := h
  exact ⟨p, hsub.subset List.mem_cons_self, hp⟩

/-- A further piece of work parts programs just if it is one, around which a recorded span that is
none stands within another one. -/
theorem parted_cons (w : OpenWork) (rest : List OpenWork) :
    Parted level (w :: rest) ↔ Parted level rest
      ∨ w.scope = .program ∧ ∃ r q, [r, q].Sublist rest ∧ q.scope = .program
        ∧ level.records r.scope ∧ r.scope ≠ .program := by
  constructor
  · rintro ⟨p, r, q, hsub, hp, hq, hr, hne⟩
    cases hsub with
    | cons _ hsub => exact .inl ⟨p, r, q, hsub, hp, hq, hr, hne⟩
    | cons_cons _ hsub => exact .inr ⟨hp, r, q, hsub, hq, hr, hne⟩
  · rintro (⟨p, r, q, hsub, h⟩ | ⟨hp, r, q, hsub, h⟩)
    · exact ⟨p, r, q, hsub.cons w, h⟩
    · exact ⟨w, r, q, hsub.cons_cons w, hp, h⟩

/-- A program that begins where new spans hang under a program adds nothing to what is parted. -/
theorem parted_cons_of_context (hid : Numbered level around) (w : OpenWork)
    (hcontext : (context level around).scope = .program) :
    Parted level (w :: around) ↔ Parted level around := by
  rw [parted_cons, or_iff_left_iff_imp]
  rintro ⟨-, r, q, hsub, hq, hr, hne⟩
  obtain ⟨p, hfind, hp⟩ := (context_scope_eq_program_iff hid).mp hcontext
  obtain ⟨-, inner, outer, rfl, hinner⟩ := List.find?_eq_some_iff_append.mp hfind
  -- Up to `p` there is nothing that new spans hang under, so the two stand behind it.
  have hbehind : ∀ inner : List OpenWork, (∀ v ∈ inner, ¬marks level v) →
      [r, q].Sublist (inner ++ p :: outer) → [r, q].Sublist (p :: outer) := by
    intro inner
    induction inner with
    | nil => exact fun _ h => h
    | cons v inner ih =>
      intro hnone hsub
      refine ih (fun u hu => hnone u (List.mem_cons_of_mem v hu)) ?_
      cases hsub with
      | cons _ hsub => exact hsub
      | cons_cons _ _ => exact absurd (by simp [marks, hr]) (hnone r List.mem_cons_self)
  have hsub := hbehind inner (by simpa using hinner) hsub
  cases hsub with
  | cons _ hsub =>
    exact ⟨p, r, q, (hsub.cons_cons p).trans (List.sublist_append_right inner _), hp, hq, hr, hne⟩
  | cons_cons _ _ => exact absurd hp hne

/-- A program that begins where new spans hang under none is parted from every program around. -/
theorem parted_cons_of_program (hid : Numbered level around) {w : OpenWork}
    (hw : w.scope = .program) (hcontext : (context level around).scope ≠ .program)
    (hprogram : ∃ p ∈ around, p.scope = .program) : Parted level (w :: around) := by
  obtain ⟨q, hmem, hq⟩ := hprogram
  obtain ⟨r, hfind⟩ : ∃ r, around.find? (marks level) = some r := by
    rw [← Option.isSome_iff_exists, List.find?_isSome]
    exact ⟨q, hmem, by simp [marks, hq]⟩
  have hne : r.scope ≠ .program := fun hr =>
    hcontext ((context_scope_eq_program_iff hid).mpr ⟨r, hfind, hr⟩)
  obtain ⟨hr, inner, outer, rfl, hinner⟩ := List.find?_eq_some_iff_append.mp hfind
  have hbehind : q ∈ outer := by
    rcases List.mem_append.mp hmem with hinner' | houter
    · exact absurd (hinner q hinner') (by simp [marks, hq])
    · refine (List.mem_cons.mp houter).resolve_left fun heq => hne (heq ▸ hq)
  refine (parted_cons w _).mpr (.inr ⟨hw, r, q, ?_, hq, by simpa [marks, hne] using hr, hne⟩)
  exact ((List.singleton_sublist.mpr hbehind).cons_cons r).trans (List.sublist_append_right inner _)

/-- The outermost program alone is in flight just if no recorded span parts two programs. -/
theorem inFlight_eq_iff (hid : Numbered level around) :
    inFlight level around = ((outermost? around).map (·.name)).toList ↔ ¬Parted level around := by
  induction around with
  | nil => exact iff_of_true rfl fun h => by simpa using h.exists_program
  | cons w rest ih =>
    have hrest := ih hid.tail
    by_cases hw : w.scope = .program
    · by_cases hcontext : (context level rest).scope = .program
      · have hsome : outermost? rest ≠ none := fun h =>
          outermost?_eq_none_iff.mp h (exists_program_of_context hid.tail hcontext)
        obtain ⟨q, hq⟩ := Option.ne_none_iff_exists'.mp hsome
        rw [parted_cons_of_context hid.tail w hcontext, ← hrest, outermost?_cons, hq]
        simp [inFlight, isInFlight, hcontext]
      · have hinFlight : inFlight level (w :: rest) = w.name :: inFlight level rest := by
          simp [inFlight, isInFlight, hw, hcontext]
        by_cases hprogram : ∃ p ∈ rest, p.scope = .program
        · refine iff_of_false (fun h => ?_)
            (not_not_intro (parted_cons_of_program hid.tail hw hcontext hprogram))
          have hne := mt (inFlight_eq_nil_iff hid.tail).mp (not_not_intro hprogram)
          have hlength := congrArg List.length h
          have hpos := List.length_pos_iff.mpr hne
          have htoList := Option.length_toList_le (o := (outermost? (w :: rest)).map (·.name))
          rw [hinFlight, List.length_cons] at hlength
          omega
        · refine iff_of_true ?_ fun h => ?_
          · rw [hinFlight, (inFlight_eq_nil_iff hid.tail).mpr hprogram, outermost?_cons,
              outermost?_eq_none_iff.mpr hprogram, if_pos hw]
            rfl
          · rcases (parted_cons w rest).mp h with hparted | ⟨-, r, q, hsub, hq, -⟩
            · exact hprogram hparted.exists_program
            · exact hprogram ⟨q, hsub.subset (by simp), hq⟩
    · have hparted : Parted level (w :: rest) ↔ Parted level rest := by
        rw [parted_cons, or_iff_left fun h => hw h.1]
      rw [hparted, ← hrest, outermost?_cons, if_neg hw, Option.or_none]
      simp [inFlight, isInFlight, hw]

/-- What a reader lists are the programs in flight, sorted. -/
theorem map_openSpans : ((openSpans level around).filter (·.inFlight)).map (·.name)
    = inFlight level around := by
  induction around with
  | nil => rfl
  | cons w rest ih =>
    rw [openSpans, List.filter_cons, inFlight]
    cases isInFlight level w rest with
    | false => exact ih
    | true => exact congrArg (w.name :: ·) ih

end OpenWork

/-! ## Reading a journal -/

/-- At most one text comes out of sorting as it is just if it went in so. -/
theorem Bytes.sort_eq_toList_iff (l : List Bytes) (o : Option Bytes) :
    Bytes.sort l = o.toList ↔ l = o.toList := by
  constructor
  · intro h
    have hperm : l.Perm o.toList := h ▸ (List.mergeSort_perm l Bytes.le).symm
    cases o with
    | none => exact List.perm_nil.mp hperm
    | some s => exact List.perm_singleton.mp hperm
  · rintro rfl
    cases o with
    | none => exact List.mergeSort_nil
    | some s => exact List.mergeSort_singleton s

/-- An event is of the beginning or the end of a span. -/
def TraceEvent.isSpan (e : TraceEvent) : Bool := e.kind = .spanBegin || e.kind = .spanEnd

/-- Whether what begins or ends is recorded. -/
def Moment.isRecorded (level : TraceLevel) (m : Moment) : Bool := level.records m.work.scope

/-- An event tells of the beginning or the end of a piece of work, and of the span around it. -/
structure Moment.ToldBy (level : TraceLevel) (m : Moment) (e : TraceEvent) : Prop where
  kind : e.kind = m.kind
  scope : e.scope = m.work.scope
  name : e.name = m.work.name
  span : e.span = m.work.id
  parent_eq_iff : e.parent = OpenWork.recordedId level m.around ↔ ¬OpenWork.Masked level m.around
  parent_eq_zero_iff : e.parent = 0 ↔ OpenWork.Masked level m.around
    ∨ ∀ w ∈ m.around, ¬level.records w.scope

namespace SpanReader

open OpenWork

/-- A reader stands where some work is going on. -/
structure Follows (level : TraceLevel) (r : SpanReader) (n : Nesting) : Prop where
  lastSpan : r.lastSpan = UInt64.ofNat n.spans
  opened : r.opened = openSpans level n.around
  context : r.context = OpenWork.context level n.around
  numbered : Numbered level n.around

variable {level : TraceLevel} {r : SpanReader} {n : Nesting}

theorem follows_start : Follows level {} {} :=
  ⟨rfl, rfl, rfl, fun _ h => absurd h List.not_mem_nil⟩

/-- The work within a piece that begins has the same numbers, and the piece one of its own if it is
recorded. -/
theorem numbered_enter (hid : Numbered level n.around) {scope : Scope} {name : Bytes}
    (hbound : (n.enter level scope name).spans < UInt64.size) :
    Numbered level (n.enter level scope name).around := by
  refine List.forall_mem_cons.mpr ⟨?_, hid⟩
  by_cases hrec : level.records scope
  · rw [Nesting.enter, if_pos hrec] at hbound
    rw [if_pos hrec]
    refine iff_of_true (fun h => ?_) hrec
    have hzero := congrArg UInt64.toNat h
    rw [UInt64.toNat_ofNat_of_lt' hbound] at hzero
    exact Nat.succ_ne_zero _ hzero
  · rw [if_neg hrec]
    exact iff_of_false (fun h => h rfl) hrec

/-- A reader keeps up with the work. -/
theorem Follows.read (h : Follows level r n) (e : JournalEntry)
    (hbound : (n.next level e).spans < UInt64.size) :
    Follows level (r.read level e).1 (n.next level e) := by
  obtain ⟨hlast, hopened, hcontext, hid⟩ := h
  cases e with
  | warning d => exact ⟨hlast, hopened, hcontext, hid⟩
  | point scope name detail =>
    rw [SpanReader.read]
    split <;> exact ⟨hlast, hopened, hcontext, hid⟩
  | leave detail counts =>
    cases haround : n.around with
    | nil =>
      rw [haround] at hopened hcontext hid
      simp only [SpanReader.read, leave, hopened, openSpans, Nesting.next, haround]
      exact ⟨hlast, hopened, hcontext, hid⟩
    | cons w rest =>
      rw [haround] at hopened hid
      simp only [SpanReader.read, leave, hopened, openSpans, Nesting.next, haround]
      exact ⟨hlast, rfl, rfl, hid.tail⟩
  | enter scope name =>
    refine ⟨?_, ?_, ?_, numbered_enter hid hbound⟩
    · by_cases hrec : level.records scope <;>
        simp [SpanReader.read, SpanReader.enter, Nesting.next, Nesting.enter, hrec, hlast]
    · by_cases hrec : level.records scope <;>
        simp [SpanReader.read, SpanReader.enter, Nesting.next, Nesting.enter, hrec, hlast, hopened,
          hcontext, openSpans, isInFlight]
    · by_cases hrec : level.records scope <;>
        simp [SpanReader.read, SpanReader.enter, Nesting.next, Nesting.enter, hrec, hlast,
          hcontext, OpenWork.context]

end SpanReader

namespace Moment

open OpenWork

variable {level : TraceLevel} {m : Moment} {e : TraceEvent}

theorem toldBy_of_parent (hid : Numbered level m.around) (hkind : e.kind = m.kind)
    (hscope : e.scope = m.work.scope) (hname : e.name = m.work.name) (hspan : e.span = m.work.id)
    (hparent : e.parent = (OpenWork.context level m.around).span) : m.ToldBy level e :=
  ⟨hkind, hscope, hname, hspan, hparent ▸ context_span_iff hid,
    hparent ▸ context_span_eq_zero_iff hid⟩

/-- The moments that are recorded, with the events that tell of them. -/
abbrev AllTold (level : TraceLevel) (moments : List Moment) (events : List TraceEvent) : Prop :=
  List.Forall₂ (ToldBy level) (moments.filter (isRecorded level)) (events.filter TraceEvent.isSpan)

theorem allTold_singleton (hrec : m.isRecorded level) (hspan : e.isSpan) (h : m.ToldBy level e) :
    AllTold level [m] [e] := by
  rw [AllTold, List.filter_cons_of_pos hrec, List.filter_cons_of_pos hspan]
  exact .cons h .nil

theorem allTold_of_not_recorded (hrec : ¬m.isRecorded level) : AllTold level [m] [] := by
  rw [AllTold, List.filter_cons_of_neg hrec]
  exact .nil

end Moment

namespace SpanReader

open OpenWork

variable {level : TraceLevel} {r : SpanReader} {n : Nesting}

/-- A reader tells of what is recorded, and of nothing else. -/
theorem Follows.allTold (h : Follows level r n) (e : JournalEntry) :
    Moment.AllTold level (n.moment? level e).toList (r.read level e).2 := by
  obtain ⟨hlast, hopened, hcontext, hid⟩ := h
  cases e with
  | warning d => exact .nil
  | point scope name detail =>
    rw [SpanReader.read]
    split <;> exact .nil
  | leave detail counts =>
    cases haround : n.around with
    | nil =>
      rw [haround] at hopened
      simp only [SpanReader.read, leave, hopened, openSpans, Nesting.moment?, haround]
      exact .nil
    | cons w rest =>
      rw [haround] at hopened hid
      simp only [SpanReader.read, leave, hopened, openSpans, Nesting.moment?, haround]
      by_cases hrec : level.records w.scope
      · simp only [(hid w List.mem_cons_self).mpr hrec, hrec, if_true, ne_eq, not_false_eq_true]
        exact Moment.allTold_singleton hrec rfl
          (Moment.toldBy_of_parent hid.tail rfl rfl rfl rfl rfl)
      · rw [if_neg fun h => hrec ((hid w List.mem_cons_self).mp (by simpa using h))]
        exact Moment.allTold_of_not_recorded hrec
  | enter scope name =>
    simp only [SpanReader.read, SpanReader.enter, Nesting.moment?, Nesting.enter]
    by_cases hrec : level.records scope
    · simp only [hrec, if_true]
      refine Moment.allTold_singleton hrec rfl
        (Moment.toldBy_of_parent hid rfl rfl rfl ?_ (congrArg SpanContext.span hcontext))
      exact hlast ▸ (UInt64.ofNat_add n.spans 1).symm
    · simp only [if_neg hrec]
      exact Moment.allTold_of_not_recorded hrec

/-- The spans that have begun are never fewer later. -/
theorem spans_le_next (e : JournalEntry) : n.spans ≤ (n.next level e).spans := by
  cases e with
  | enter scope name =>
    rw [Nesting.next, Nesting.enter]
    split
    · exact Nat.le_succ _
    · exact Nat.le_refl _
  | leave _ _ | warning _ | point _ _ _ => exact Nat.le_refl _

theorem spans_le_follow (entries : List JournalEntry) :
    n.spans ≤ (n.follow level entries).spans := by
  induction entries generalizing n with
  | nil => exact Nat.le_refl _
  | cons e rest ih => exact Nat.le_trans (spans_le_next e) ih

/-- A reader keeps up with all the work, and tells of all that is recorded. -/
theorem Follows.readAll (h : Follows level r n) (entries : List JournalEntry)
    (hbound : (n.follow level entries).spans < UInt64.size) :
    Follows level (r.readAll level entries).1 (n.follow level entries)
      ∧ Moment.AllTold level (n.moments level entries) (r.readAll level entries).2 := by
  induction entries generalizing r n with
  | nil => exact ⟨h, .nil⟩
  | cons e rest ih =>
    have hnext := h.read e (Nat.lt_of_le_of_lt (spans_le_follow rest) hbound)
    obtain ⟨hfollows, htold⟩ := ih hnext hbound
    refine ⟨hfollows, ?_⟩
    rw [Moment.AllTold, Nesting.moments, SpanReader.readAll, List.filter_append,
      List.filter_append]
    exact List.rel_append (h.allTold e) htold

/-- Where a reader stands, it lists the outermost program alone just if no recorded span parts two
programs. -/
theorem Follows.programs_eq_iff (h : Follows level r n) :
    r.programs = ((outermost? n.around).map (·.name)).toList ↔ ¬Parted level n.around := by
  rw [← inFlight_eq_iff h.numbered, programs, h.opened, map_openSpans, Bytes.sort_eq_toList_iff]

end SpanReader

/-! ## Parents and programs in flight -/

open OpenWork

/-- Every event of a span tells of the beginning or the end of a recorded piece of work, in the
order of the journal. Its parent is the innermost recorded span around it just if no program that
is not recorded stands between them, and it has no parent where one does or where no recorded span
is around it. The outermost program alone is in flight just if no other recorded span stands between
two programs. -/
theorem Journal.parents_and_programs (j : Journal) (level : TraceLevel)
    (hbound : (Nesting.follow level {} j.reverse).spans < UInt64.size) :
    List.Forall₂ (Moment.ToldBy level)
        ((Nesting.moments level {} j.reverse).filter (Moment.isRecorded level))
        ((j.spans level).2.filter TraceEvent.isSpan)
      ∧ ((j.spans level).1.programs
          = ((outermost? (Nesting.follow level {} j.reverse).around).map (·.name)).toList
        ↔ ¬Parted level (Nesting.follow level {} j.reverse).around) := by
  obtain ⟨hfollows, htold⟩ := SpanReader.follows_start.readAll j.reverse hbound
  exact ⟨htold, hfollows.programs_eq_iff⟩

/-- A pass within a program within a command. -/
def Journal.passInProgram : Journal :=
  [.enter .pass "emit", .enter .program "p", .enter .driver "build"]

/-- Where programs are recorded, what begins in a program hangs under it. -/
theorem Journal.parents_and_programs_detail :
    (Nesting.follow .detail {} Journal.passInProgram.reverse).spans < UInt64.size
      ∧ List.Forall₂ (Moment.ToldBy .detail)
          ((Nesting.moments .detail {} Journal.passInProgram.reverse).filter
            (Moment.isRecorded .detail))
          ((Journal.passInProgram.spans .detail).2.filter TraceEvent.isSpan)
      ∧ (Journal.passInProgram.spans .detail).1.programs = ["p"] := by
  have hbound : (Nesting.follow .detail {} Journal.passInProgram.reverse).spans < UInt64.size := by
    decide
  obtain ⟨htold, hprograms⟩ := Journal.parents_and_programs Journal.passInProgram .detail hbound
  refine ⟨hbound, htold, hprograms.mpr ?_⟩
  rintro ⟨p, r, q, hsub, -, hq, -⟩
  cases hsub.eq_of_length rfl
  exact absurd hq (by decide)

/-- Where programs are not recorded, a pass in a program has no parent, though the command around
them is recorded; and a program in a pass in a program is in flight besides the outer one. -/
theorem Journal.parent_lost :
    (Journal.passInProgram.spans .phase).2.map (fun e => (e.name, e.span, e.parent))
        = [(Bytes.ofString "build", 1, 0), (Bytes.ofString "emit", 2, 0)]
      ∧ ((Nesting.moments .phase {} Journal.passInProgram.reverse).filter
            (Moment.isRecorded .phase)).map
          (fun m => (m.work.name, m.work.id, recordedId .phase m.around))
        = [(Bytes.ofString "build", 1, 0), (Bytes.ofString "emit", 2, 1)]
      ∧ (Journal.spans [.enter .program "p", .enter .pass "run", .enter .program "q"]
          .phase).1.programs = [Bytes.ofString "p", Bytes.ofString "q"] := by
  have hsorted : List.Pairwise (fun a b => Bytes.le a b) [Bytes.ofString "p", Bytes.ofString "q"] :=
    by decide
  exact ⟨by decide, by decide, List.mergeSort_of_pairwise hsorted⟩

end WastForge
