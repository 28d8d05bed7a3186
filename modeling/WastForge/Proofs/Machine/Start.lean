import WastForge.Proofs.Branch.Script
import WastForge.Proofs.Emit.Instance

/-!
# How a module starts

A module that was read keeps the segments of all its memories, in the order in which they are
written, but only the size of the last memory. Each segment was measured by the memory that it
stands in, so a module starts where the last memory is no smaller than the others; it starts exactly
if its segments fit into the last one.
-/

namespace WastForge

namespace Script

namespace Segment

/-- The segment lies in a memory of `size` bytes. -/
def Fits (s : Segment) (size : UInt32) : Prop := s.offset.toNat + s.data.length ≤ size.toNat

instance (s : Segment) (size : UInt32) : Decidable (s.Fits size) :=
  inferInstanceAs (Decidable (_ ≤ _))

/-- The byte that the segment has for an address, if it covers it. -/
def byteAt? (s : Segment) (addr : Nat) : Option UInt8 :=
  if s.offset.toNat ≤ addr then s.data[addr - s.offset.toNat]? else none

theorem Fits.mono {s : Segment} {size size' : UInt32} (h : s.Fits size) (hle : size ≤ size') :
    s.Fits size' :=
  Nat.le_trans h (UInt32.le_iff_toNat_le.mp hle)

end Segment

/-- The byte of the last segment that covers an address; zero if none does. -/
def Module.initialByte (m : Module) (addr : Nat) : UInt8 :=
  (m.segments.reverse.findSome? (·.byteAt? addr)).getD 0

/-- The memories among the items of a module. -/
def memoryItems (items : List SourceForm) : List SourceForm :=
  items.filter fun item => item.head = "memory"

theorem memoryItems_cons (item : SourceForm) (rest : List SourceForm) :
    memoryItems (item :: rest)
      = if item.head = "memory" then item :: memoryItems rest else memoryItems rest := by
  simp only [memoryItems, List.filter_cons, decide_eq_true_eq]

/-- What a module keeps of its memories: the size of the last one, and the segments of all of them.
Every segment fits into its own memory. -/
structure Module.Keeps (m : Module) (memories : List (UInt32 × List Segment)) : Prop where
  memory : m.memory = (memories.getLast?.map Prod.fst).getD 0
  segments : m.segments = memories.flatMap Prod.snd
  fits : ∀ x ∈ memories, ∀ s ∈ x.2, s.Fits x.1

theorem fits_of_segments {size : UInt32} {ns : List SourceForm} {segs : List Segment}
    (h : segments size ns = .ok segs) : ∀ s ∈ segs, s.Fits size := by
  induction ns generalizing segs with
  | nil =>
    obtain rfl := Except.ok.inj h
    exact List.forall_mem_nil _
  | cons n rest ih =>
    rw [segments] at h
    split at h
    · rename_i offset _ data _ _
      cases hoff : size? offset with
      | none =>
        rw [hoff] at h
        cases h
      | some off =>
        rw [hoff] at h
        dsimp only at h
        split at h
        · cases h
        · rename_i hfit
          obtain ⟨segs', hsegs, h⟩ := ok_of_bind h
          obtain rfl := Except.ok.inj h
          exact List.forall_mem_cons.mpr ⟨Nat.not_lt.mp hfit, ih hsegs⟩
    · cases h

theorem fits_of_memoryOf {n : SourceForm} {x : UInt32 × List Segment} (h : memoryOf n = .ok x) :
    ∀ s ∈ x.2, s.Fits x.1 := by
  unfold memoryOf at h
  split at h
  · split at h
    · cases h
    · obtain ⟨segs, hsegs, h⟩ := ok_of_bind h
      obtain rfl := Except.ok.inj h
      exact fits_of_segments hsegs
  · cases h

/-- What one item adds to a module and to the exports that wait. -/
inductive Adds (m : Module) (pending : List PendingExport) (item : SourceForm) :
    Module → List PendingExport → Prop where
  | func {fn : Function} : item.head = "func" → function item = .ok fn →
      (m.func? fn.name).isNone →
      Adds m pending item { m with funcs := m.funcs ++ [fn] } pending
  | export_ {line : UInt32} {name : Bytes} {target : SourceForm} : item.head = "export" →
      item.args = [.text line name, target] →
      Adds m pending item m (pending ++ [⟨name, target.word, item.line⟩])
  | import_ {imp : Import} : item.head = "import" → importOf item = .ok imp →
      Adds m pending item { m with imports := m.imports ++ [imp] } pending
  | memory {size : UInt32} {segs : List Segment} : item.head = "memory" →
      memoryOf item = .ok (size, segs) →
      Adds m pending item { m with memory := size, segments := m.segments ++ segs } pending

section adding

variable {m m' : Module} {pending pending' : List PendingExport}

/-- Items are added one after the other. -/
theorem exists_adds {item : SourceForm} {rest : List SourceForm}
    {r : Module × List PendingExport} (h : addItems m pending (item :: rest) = .ok r) :
    ∃ m₁ pending₁, Adds m pending item m₁ pending₁ ∧ addItems m₁ pending₁ rest = .ok r := by
  unfold addItems at h
  simp only at h
  split at h
  · rename_i hhead
    obtain ⟨fn, hfn, h⟩ := ok_of_bind h
    split at h
    · cases h
    · rename_i hnew
      exact ⟨_, _, .func (beq_iff_eq.mp hhead) hfn (Option.not_isSome_iff_eq_none.mp hnew ▸ rfl), h⟩
  split at h
  · rename_i hhead
    split at h
    · rename_i hargs
      exact ⟨_, _, .export_ (beq_iff_eq.mp hhead) hargs, h⟩
    · cases h
  split at h
  · rename_i hhead
    obtain ⟨imp, himp, h⟩ := ok_of_bind h
    exact ⟨_, _, .import_ (beq_iff_eq.mp hhead) himp, h⟩
  split at h
  · rename_i hhead
    obtain ⟨⟨size, segs⟩, hmemory, h⟩ := ok_of_bind h
    exact ⟨_, _, .memory (beq_iff_eq.mp hhead) hmemory, h⟩
  · cases h

/-- The items of a module change its size to the one of their last memory, and add the segments of
their memories in order. -/
theorem memories_of_addItems {ns : List SourceForm}
    (h : addItems m pending ns = .ok (m', pending')) :
    ∃ memories, (memoryItems ns).mapM memoryOf = .ok memories
      ∧ (∀ x ∈ memories, ∀ s ∈ x.2, s.Fits x.1)
      ∧ m'.memory = (memories.getLast?.map Prod.fst).getD m.memory
      ∧ m'.segments = m.segments ++ memories.flatMap Prod.snd := by
  induction ns generalizing m pending with
  | nil =>
    cases h
    exact ⟨[], rfl, List.forall_mem_nil _, rfl, (List.append_nil _).symm⟩
  | cons item rest ih =>
    obtain ⟨m₁, pending₁, hadds, hrest⟩ := exists_adds h
    obtain ⟨memories, hread, hfits, hsize, hsegs⟩ := ih hrest
    cases hadds with
    | memory hhead hmemory =>
      rename_i size segs
      refine ⟨(size, segs) :: memories, ?_,
        List.forall_mem_cons.mpr ⟨fits_of_memoryOf hmemory, hfits⟩, ?_, ?_⟩
      · rw [memoryItems_cons, if_pos hhead, List.mapM_cons, hmemory, hread]
        rfl
      · rw [hsize, List.getLast?_cons]
        cases memories.getLast? <;> rfl
      · rw [hsegs, List.append_assoc]
        rfl
    | func hhead | export_ hhead | import_ hhead =>
      -- Only a memory touches the size and the segments.
      refine ⟨memories, ?_, hfits, hsize, hsegs⟩
      rwa [memoryItems_cons, if_neg (by rw [hhead]; decide)]

/-- Exports leave the memory alone. -/
theorem memory_of_resolveExports (h : resolveExports m pending = .ok m') :
    m'.memory = m.memory ∧ m'.segments = m.segments := by
  induction pending generalizing m with
  | nil =>
    cases h
    exact ⟨rfl, rfl⟩
  | cons e rest ih =>
    unfold resolveExports at h
    split at h
    · cases h
    · have hrest := ih h
      exact hrest

end adding

theorem keeps_of_moduleOf {n : SourceForm} {m : Module} (h : moduleOf n = .ok m) :
    ∃ memories, (memoryItems n.args).mapM memoryOf = .ok memories ∧ m.Keeps memories := by
  obtain ⟨⟨m₁, pending⟩, hitems, h⟩ := ok_of_bind h
  obtain ⟨memories, hread, hfits, hsize, hsegs⟩ := memories_of_addItems hitems
  obtain ⟨hmemory, hsegments⟩ := memory_of_resolveExports h
  exact ⟨memories, hread, hmemory.trans hsize, hsegments.trans hsegs, hfits⟩

/-- Among the forms that a module is read from stands the form of the module. -/
theorem exists_module {m : Module} {rev forms ds : List SourceForm}
    (h : instantiateFrom none rev forms = .ok (m, ds)) :
    ∃ n ∈ forms, n.head = "module" ∧ moduleOf n = .ok m := by
  induction forms generalizing rev with
  | nil => cases h
  | cons first rest ih =>
    rw [instantiateFrom] at h
    split at h
    · obtain ⟨n, hn, hmodule⟩ := ih h
      exact ⟨n, List.mem_cons_of_mem _ hn, hmodule⟩
    · rename_i hhead
      obtain ⟨m₀, hm₀, h⟩ := ok_of_bind h
      obtain ⟨rfl, -⟩ := instantiateFrom_some h
      exact ⟨first, List.mem_cons_self, by simpa using hhead, hm₀⟩

end Script

namespace Memory

open Script

/-- Segments that are written one after the other leave at each address the byte of the last one
that covers it. -/
theorem byte_putAll (memory : Memory) (segments : List Segment) (i : Nat) :
    (memory.putAll segments).byte i
      = (segments.reverse.findSome? (·.byteAt? i)).getD (memory.byte i) := by
  induction segments generalizing memory with
  | nil => rfl
  | cons s rest ih =>
    have hput : (memory.put s.offset.toNat s.data).byte i
        = (s.byteAt? i).getD (memory.byte i) := by
      unfold Segment.byteAt?
      split
      · rename_i hle
        obtain ⟨k, rfl⟩ := Nat.exists_eq_add_of_le hle
        rw [Nat.add_sub_cancel_left]
        cases hk : s.data[k]? with
        | none =>
          have hpast := List.getElem?_eq_none_iff.mp hk
          exact byte_put_outside memory (.inr (by omega))
        | some b => exact byte_put_inside memory hk
      · rename_i hlt
        exact byte_put_outside memory (.inl (Nat.not_le.mp hlt))
    refine (ih (memory.put s.offset.toNat s.data)).trans ?_
    rw [hput, List.reverse_cons, List.findSome?_append]
    cases rest.reverse.findSome? (·.byteAt? i) with
    | none => rw [Option.none_or, List.findSome?_singleton, Option.getD_none]
    | some b => rfl

/-- A segment that does not fit is out of bounds. -/
theorem write_error {memory : Memory} {s : Segment} (hlen : s.data.length < 2 ^ 32)
    (h : ¬s.Fits memory.size) :
    ∃ t : Trap, t.code = .outOfBounds ∧ memory.write s.offset s.data = .error t := by
  obtain ⟨t, hcode, hcheck⟩ := check_error hlen (Nat.not_le.mp h)
  refine ⟨t, hcode, ?_⟩
  rw [write, hcheck]
  rfl

/-- Writing segments stops at the first one that does not fit. -/
theorem writeAll_error {memory : Memory} {segments : List Segment}
    (hlen : ∀ s ∈ segments, s.data.length < 2 ^ 32) (h : ¬∀ s ∈ segments, s.Fits memory.size) :
    ∃ t : Trap, t.code = .outOfBounds
      ∧ segments.foldlM (fun mem s => mem.write s.offset s.data) memory = .error t := by
  induction segments generalizing memory with
  | nil => exact absurd (List.forall_mem_nil _) h
  | cons s rest ih =>
    rw [List.forall_mem_cons] at hlen h
    rw [List.foldlM_cons]
    by_cases hfit : s.Fits memory.size
    · rw [write_ok hfit]
      refine @ih (memory.put s.offset.toNat s.data) hlen.2 fun hrest => h ⟨hfit, ?_⟩
      rwa [size_put] at hrest
    · obtain ⟨t, hcode, hwrite⟩ := write_error hlen.1 hfit
      rw [hwrite]
      exact ⟨t, hcode, rfl⟩

end Memory

namespace Script

variable {m : Module}

/-- The segments of a module are short enough for memories. -/
theorem Module.Keeps.length_lt {memories : List (UInt32 × List Segment)} (h : m.Keeps memories) :
    ∀ s ∈ m.segments, s.data.length < 2 ^ 32 := by
  intro s hs
  rw [h.segments] at hs
  obtain ⟨x, hx, hs⟩ := List.mem_flatMap.mp hs
  have hfit := h.fits x hx s hs
  have hsize := x.1.toNat_lt
  unfold Segment.Fits at hfit
  omega

/-- The segments fit into the last memory if it is no smaller than the others. -/
theorem Module.Keeps.fits_last {memories : List (UInt32 × List Segment)} (h : m.Keeps memories)
    (hle : ∀ x ∈ memories, x.1 ≤ m.memory) : ∀ s ∈ m.segments, s.Fits m.memory := by
  intro s hs
  rw [h.segments] at hs
  obtain ⟨x, hx, hs⟩ := List.mem_flatMap.mp hs
  exact (h.fits x hx s hs).mono (hle x hx)

theorem Module.Keeps.start_error {memories : List (UInt32 × List Segment)} (h : m.Keeps memories)
    (hfit : ¬∀ s ∈ m.segments, s.Fits m.memory) :
    ∃ t : Trap, t.code = .outOfBounds ∧ Machine.start m = .error t := by
  obtain ⟨t, hcode, hwrite⟩ :=
    @Memory.writeAll_error (Memory.ofSize m.memory) m.segments h.length_lt hfit
  refine ⟨t, hcode, ?_⟩
  rw [Machine.start, hwrite]
  rfl

/-- How an accepted module starts: it has the segments of all its memories and the size of the last
one, and it starts just if they all fit. Then every byte of its memory is the one of the last
segment that covers it, and zero where there is none; otherwise the start is out of bounds. A module
whose last memory is no smaller than the others starts. -/
theorem start_iff_fits {forms ds : List SourceForm} (h : instantiate forms = .ok (m, ds)) :
    ∃ n ∈ forms, n.head = "module" ∧ ∃ memories, (memoryItems n.args).mapM memoryOf = .ok memories
      ∧ m.Keeps memories
      ∧ ((∃ start, Machine.start m = .ok start) ↔ ∀ s ∈ m.segments, s.Fits m.memory)
      ∧ (∀ start, Machine.start m = .ok start → start.memory.size = m.memory
          ∧ ∀ i, start.memory.byte i = m.initialByte i)
      ∧ (∀ t, Machine.start m = .error t → t.code = .outOfBounds)
      ∧ ((∀ x ∈ memories, x.1 ≤ m.memory) → ∃ start, Machine.start m = .ok start) := by
  obtain ⟨n, hn, hhead, hmodule⟩ := exists_module h
  obtain ⟨memories, hread, hkeeps⟩ := keeps_of_moduleOf hmodule
  refine ⟨n, hn, hhead, memories, hread, hkeeps, ?_⟩
  by_cases hfit : ∀ s ∈ m.segments, s.Fits m.memory
  · have hstart := Machine.start_ok hfit
    refine ⟨iff_of_true ⟨_, hstart⟩ hfit, fun start hok => ?_, fun t ht => ?_,
      fun _ => ⟨_, hstart⟩⟩
    · obtain rfl := Except.ok.inj (hstart.symm.trans hok)
      refine ⟨Memory.size_putAll _ _, fun i => ?_⟩
      rw [Memory.byte_putAll, Memory.byte_ofSize]
      rfl
    · cases hstart.symm.trans ht
  · obtain ⟨t, hcode, hstart⟩ := hkeeps.start_error hfit
    refine ⟨iff_of_false ?_ hfit, fun start hok => ?_, fun t' ht => ?_,
      fun hle => absurd (hkeeps.fits_last hle) hfit⟩
    · rintro ⟨start, hok⟩
      cases hstart.symm.trans hok
    · cases hstart.symm.trans hok
    · obtain rfl := Except.error.inj (hstart.symm.trans ht)
      exact hcode

/-- A module with the memories that are given by their sizes and segments, on one line. -/
def moduleWith (memories : List (Bytes × List (Bytes × Bytes))) : List SourceForm :=
  let segment := fun s : Bytes × Bytes =>
    SourceForm.list 1 [.atom 1 "segment", .atom 1 s.1, .text 1 s.2]
  let memory := fun x : Bytes × List (Bytes × Bytes) =>
    SourceForm.list 1 (.atom 1 "memory" :: .atom 1 x.1 :: .atom 1 x.1 :: x.2.map segment)
  [.list 1 (.atom 1 "module" :: memories.map memory)]

/-- Of two segments that overlap, the later one is seen. -/
theorem start_iff_fits_overlapping :
    ∃ m ds start, instantiate (moduleWith [("6", [("1", "abc"), ("2", "x")])]) = .ok (m, ds)
      ∧ Machine.start m = .ok start
      ∧ (List.range 6).map start.memory.byte = [0, 0x61, 0x78, 0x63, 0, 0] := by
  have hall : (instantiate (moduleWith [("6", [("1", "abc"), ("2", "x")])])).toOption.any fun r =>
      decide (∀ s ∈ r.1.segments, s.Fits r.1.memory)
        && (List.range 6).map r.1.initialByte == [0, 0x61, 0x78, 0x63, 0, 0] := by
    decide +kernel
  obtain ⟨⟨m, ds⟩, hm, hall⟩ := (Option.any_eq_true _ _).mp hall
  obtain ⟨hfit, hbytes⟩ := Bool.and_eq_true_iff.mp hall
  obtain ⟨n, -, -, memories, -, -, hiff, hmemory, -⟩ := start_iff_fits (ok_of_toOption hm)
  obtain ⟨start, hstart⟩ := hiff.mpr (of_decide_eq_true hfit)
  refine ⟨m, ds, start, ok_of_toOption hm, hstart, ?_⟩
  rw [show start.memory.byte = m.initialByte from funext (hmemory start hstart).2]
  exact beq_iff_eq.mp hbytes

/-- A memory that is smaller than the one before it: the module is accepted, and does not start,
as the segment of the first memory is past the end of the second. -/
theorem start_shrunk :
    ∃ m ds, instantiate (moduleWith [("100", [("50", "x")]), ("10", [])]) = .ok (m, ds)
      ∧ (∃ s ∈ m.segments, ¬s.Fits m.memory) ∧ ¬∃ start, Machine.start m = .ok start := by
  have hany : (instantiate (moduleWith [("100", [("50", "x")]), ("10", [])])).toOption.any fun r =>
      decide (∃ s ∈ r.1.segments, ¬s.Fits r.1.memory)
        && (Machine.start r.1).toOption.isNone := by
    decide +kernel
  obtain ⟨⟨m, ds⟩, hm, hany⟩ := (Option.any_eq_true _ _).mp hany
  obtain ⟨hpast, hnone⟩ := Bool.and_eq_true_iff.mp hany
  refine ⟨m, ds, ok_of_toOption hm, of_decide_eq_true hpast, ?_⟩
  rintro ⟨start, hstart⟩
  rw [hstart] at hnone
  cases hnone

end Script

end WastForge
