import Mathlib
import WastForge.Machine.Run

/-!
# Bytes in memory

What was written is read back, and nothing else is changed: byte by byte, for numbers of a width,
and for the segments that a memory starts with.

An element that a view has starts at the address that 32 bits give for it. Where the element starts
before the memory or behind it, these 32 bits may still be an address of the memory: that of another
element, or one between two of them.
-/

namespace WastForge

namespace Memory

variable (m : Memory)

theorem size_put (addr : Nat) (data : Bytes) : (m.put addr data).size = m.size := by
  induction data generalizing m addr with
  | nil => rfl
  | cons b rest ih =>
    rw [put, ih]

/-- Bytes that are not written keep their values. -/
theorem byte_put_outside {addr i : Nat} {data : Bytes}
    (h : i < addr ∨ addr + data.length ≤ i) : (m.put addr data).byte i = m.byte i := by
  induction data generalizing m addr with
  | nil => rfl
  | cons b rest ih =>
    rw [List.length_cons] at h
    rw [put, ih _ (by omega), byte, Std.HashMap.getD_insert]
    rw [if_neg (by simp; omega)]
    rfl

/-- Bytes that are written have the values of the data. -/
theorem byte_put_inside {addr i : Nat} {data : Bytes} {b : UInt8} (h : data[i]? = some b) :
    (m.put addr data).byte (addr + i) = b := by
  induction data generalizing m addr i with
  | nil => cases h
  | cons first rest ih =>
    rw [put]
    cases i with
    | zero =>
      obtain rfl : first = b := by simpa using h
      rw [byte_put_outside _ (.inl (by omega)), byte, Nat.add_zero, Std.HashMap.getD_insert_self]
    | succ i =>
      have hrest :=
        @ih { m with cells := m.cells.insert addr first } (addr + 1) i (by simpa using h)
      rwa [show addr + (i + 1) = addr + 1 + i by omega]

theorem slice_congr {m m' : Memory} {addr n : Nat}
    (h : ∀ i < n, m.byte (addr + i) = m'.byte (addr + i)) : m.slice addr n = m'.slice addr n := by
  refine List.map_congr_left fun i hi => h i ?_
  exact List.mem_range.mp hi

theorem slice_put_same (addr : Nat) (data : Bytes) :
    (m.put addr data).slice addr data.length = data := by
  refine List.ext_getElem? fun i => ?_
  rw [slice, List.getElem?_map]
  by_cases h : i < data.length
  · rw [List.getElem?_range h, Option.map_some, byte_put_inside m (List.getElem?_eq_getElem h),
      List.getElem?_eq_getElem h]
  · rw [List.getElem?_eq_none (by simpa using h), List.getElem?_eq_none (by omega)]
    rfl

theorem slice_put_outside {addr start n : Nat} {data : Bytes}
    (h : start + n ≤ addr ∨ addr + data.length ≤ start) :
    (m.put addr data).slice start n = m.slice start n := by
  refine slice_congr fun i hi => byte_put_outside m ?_
  omega

section access

variable {m} {addr : UInt32} {n : Nat}

/-- The end of an access. -/
theorem toNat_end (hn : n < 2 ^ 32) :
    (addr.toUInt64 + (Int64.ofNat n).toUInt64).toNat = addr.toNat + n := by
  have haddr := addr.toNat_lt
  have hn' : (Int64.ofNat n).toUInt64.toNat = n := by
    show (UInt64.ofNat n).toNat = n
    rw [UInt64.toNat_ofNat']
    omega
  rw [UInt64.toNat_add, hn', UInt32.toNat_toUInt64]
  omega

/-- An access that stays within the size is allowed. -/
theorem check_ok (h : addr.toNat + n ≤ m.size.toNat) :
    m.check addr.toUInt64 (Int64.ofNat n) = .ok () := by
  have hsize := m.size.toNat_lt
  rw [check, if_neg]
  rw [UInt64.lt_iff_toNat_lt, toNat_end (by omega), UInt32.toNat_toUInt64]
  omega

theorem read_ok (h : addr.toNat + n ≤ m.size.toNat) :
    m.read addr (Int64.ofNat n) = .ok (m.slice addr.toNat n) := by
  have hsize := m.size.toNat_lt
  have hn : (Int64.ofNat n).toInt.toNat = n := by
    rw [Int64.toInt_ofNat_of_lt (by omega)]
    rfl
  rw [read, check_ok h, hn]
  rfl

theorem write_ok {data : Bytes} (h : addr.toNat + data.length ≤ m.size.toNat) :
    m.write addr data = .ok (m.put addr.toNat data) := by
  rw [write, check_ok h]
  rfl

theorem load_ok (h : addr.toNat + n ≤ m.size.toNat) :
    m.load addr n = .ok (ofLittleEndian (m.slice addr.toNat n)) := by
  rw [load, check_ok h]
  rfl

/-- An access past the end of the memory is out of bounds. -/
theorem check_error (hn : n < 2 ^ 32) (h : m.size.toNat < addr.toNat + n) :
    ∃ t : Trap, t.code = .outOfBounds ∧ m.check addr.toUInt64 (Int64.ofNat n) = .error t := by
  have hpast : m.size.toUInt64 < addr.toUInt64 + (Int64.ofNat n).toUInt64 := by
    rw [UInt64.lt_iff_toNat_lt, toNat_end hn, UInt32.toNat_toUInt64]
    exact h
  rw [check, if_pos hpast]
  exact ⟨_, rfl, rfl⟩

/-- A load past the end of the memory fails. -/
theorem load_error (hn : n < 2 ^ 32) (h : m.size.toNat < addr.toNat + n) :
    ∃ t, m.load addr n = .error t := by
  obtain ⟨t, -, ht⟩ := check_error hn h
  rw [load, ht]
  exact ⟨_, rfl⟩

theorem store_ok (bits : UInt64) (h : addr.toNat + n ≤ m.size.toNat) :
    m.store addr n bits = .ok (m.put addr.toNat (toLittleEndian n bits)) := by
  rw [store, check_ok h]
  rfl

end access

theorem length_toLittleEndian (n : Nat) (bits : UInt64) : (toLittleEndian n bits).length = n := by
  induction n generalizing bits with
  | zero => rfl
  | succ n ih => rw [toLittleEndian, List.length_cons, ih]

/-- The lowest byte comes first. -/
theorem toNat_ofLittleEndian_cons {b : UInt8} {rest : Bytes}
    (h : (ofLittleEndian rest).toNat < 2 ^ 56) :
    (ofLittleEndian (b :: rest)).toNat = b.toNat + 256 * (ofLittleEndian rest).toNat := by
  have hb := b.toNat_lt
  have hshift : (ofLittleEndian rest <<< 8).toNat = (ofLittleEndian rest).toNat <<< 8 := by
    rw [UInt64.toNat_shiftLeft]
    show _ <<< 8 % 2 ^ 64 = _
    rw [Nat.shiftLeft_eq]
    omega
  rw [ofLittleEndian, UInt64.toNat_or, hshift, UInt8.toNat_toUInt64, Nat.or_comm,
    ← Nat.shiftLeft_add_eq_or_of_lt hb, Nat.shiftLeft_eq]
  omega

theorem toNat_ofLittleEndian_lt {bytes : Bytes} (h : bytes.length ≤ 8) :
    (ofLittleEndian bytes).toNat < 2 ^ (8 * bytes.length) := by
  induction bytes with
  | nil => decide
  | cons b rest ih =>
    rw [List.length_cons] at h
    have hrest := ih (by omega)
    have hle : 2 ^ (8 * rest.length) ≤ 2 ^ 56 := Nat.pow_le_pow_right (by decide) (by omega)
    have hb := b.toNat_lt
    rw [toNat_ofLittleEndian_cons (by omega), List.length_cons, Nat.mul_succ, Nat.pow_add]
    omega

/-- The lowest bytes of a number, read back. -/
theorem ofLittleEndian_toLittleEndian {n : Nat} (hn : n ≤ 8) (bits : UInt64) :
    (ofLittleEndian (toLittleEndian n bits)).toNat = bits.toNat % 2 ^ (8 * n) := by
  induction n generalizing bits with
  | zero => simp [toLittleEndian, ofLittleEndian, Nat.mod_one]
  | succ n ih =>
    have hrest := ih (by omega) (bits >>> 8)
    have hle : 2 ^ (8 * n) ≤ 2 ^ 56 := Nat.pow_le_pow_right (by decide) (by omega)
    have hlt : (bits >>> 8).toNat % 2 ^ (8 * n) < 2 ^ (8 * n) :=
      Nat.mod_lt _ (Nat.two_pow_pos _)
    have hshift : (bits >>> 8).toNat = bits.toNat / 256 := by
      rw [UInt64.toNat_shiftRight]
      exact Nat.shiftRight_eq_div_pow _ _
    rw [toLittleEndian, toNat_ofLittleEndian_cons (by omega), hrest, UInt64.toNat_toUInt8, hshift,
      Nat.mul_succ, Nat.pow_add, Nat.mul_comm (2 ^ (8 * n)), Nat.mod_mul]

/-- A number that was stored is loaded again, cut to its width. -/
theorem load_store_same {addr : UInt32} {n : Nat} (bits : UInt64) (hn : n ≤ 8)
    (h : addr.toNat + n ≤ m.size.toNat) :
    ∃ r, (m.put addr.toNat (toLittleEndian n bits)).load addr n = .ok r
      ∧ r.toNat = bits.toNat % 2 ^ (8 * n) := by
  refine ⟨_, load_ok (by rwa [size_put]), ?_⟩
  have hslice := slice_put_same m addr.toNat (toLittleEndian n bits)
  rw [length_toLittleEndian] at hslice
  rw [hslice, ofLittleEndian_toLittleEndian hn]

/-- A memory with segments written one after the other. -/
def putAll (segments : List Script.Segment) : Memory :=
  segments.foldl (fun m s => m.put s.offset.toNat s.data) m

theorem size_putAll (segments : List Script.Segment) : (m.putAll segments).size = m.size := by
  induction segments generalizing m with
  | nil => rfl
  | cons s rest ih => exact (ih _).trans (size_put m _ _)

theorem byte_putAll_outside {segments : List Script.Segment} {i : Nat}
    (h : ∀ s ∈ segments, i < s.offset.toNat ∨ s.offset.toNat + s.data.length ≤ i) :
    (m.putAll segments).byte i = m.byte i := by
  induction segments generalizing m with
  | nil => rfl
  | cons s rest ih =>
    rw [List.forall_mem_cons] at h
    exact (ih _ h.2).trans (byte_put_outside m h.1)

/-- Segments that follow one another are all in memory. -/
theorem slice_putAll {segments : List Script.Segment}
    (h : segments.Pairwise fun s t => s.offset.toNat + s.data.length ≤ t.offset.toNat) :
    ∀ s ∈ segments, (m.putAll segments).slice s.offset.toNat s.data.length = s.data := by
  induction segments generalizing m with
  | nil => exact List.forall_mem_nil _
  | cons s rest ih =>
    rw [List.pairwise_cons] at h
    refine List.forall_mem_cons.mpr ⟨?_, ih _ h.2⟩
    have hkept : ((m.put s.offset.toNat s.data).putAll rest).slice s.offset.toNat s.data.length
        = (m.put s.offset.toNat s.data).slice s.offset.toNat s.data.length :=
      slice_congr fun i hi => byte_putAll_outside _ fun t ht =>
        .inl (Nat.lt_of_lt_of_le (Nat.add_lt_add_left hi _) (h.1 t ht))
    exact hkept.trans (slice_put_same m s.offset.toNat s.data)

end Memory

/-- A machine starts with the segments of its module in memory. -/
theorem Machine.start_ok {mod : Script.Module}
    (h : ∀ s ∈ mod.segments, s.offset.toNat + s.data.length ≤ mod.memory.toNat) :
    Machine.start mod = .ok { memory := (Memory.ofSize mod.memory).putAll mod.segments } := by
  have hfold : ∀ (segments : List Script.Segment) (m : Memory), m.size = mod.memory →
      (∀ s ∈ segments, s.offset.toNat + s.data.length ≤ mod.memory.toNat) →
      segments.foldlM (fun mem s => mem.write s.offset s.data) m = .ok (m.putAll segments) := by
    intro segments
    induction segments with
    | nil => exact fun m _ _ => rfl
    | cons s rest ih =>
      intro m hm hfit
      rw [List.forall_mem_cons] at hfit
      rw [List.foldlM_cons, Memory.write_ok (by rw [hm]; exact hfit.1)]
      exact ih _ ((Memory.size_put m _ _).trans hm) hfit.2
  rw [start, hfold _ _ rfl h]
  rfl

end WastForge

namespace WastForge.MemoryView

variable {v : MemoryView} {m : Memory} {k x : Int32}

/-- How many bytes stand before an element. -/
def offset (v : MemoryView) (k : Int32) : Int := k.toInt * v.width

/-- The element lies in the memory. -/
def Has (v : MemoryView) (m : Memory) (k : Int32) : Prop :=
  0 ≤ k ∧ v.offset k + v.width ≤ m.size.toNat

/-- What 32 bits hold of the number of bytes before an element. -/
def wrapped (v : MemoryView) (k : Int32) : UInt32 := UInt32.ofInt (v.offset k)

/-- The number of bytes before an element is not one of 32 bits, but what 32 bits hold of it is the
address of as many bytes of the memory. -/
def Strays (v : MemoryView) (m : Memory) (k : Int32) : Prop :=
  ¬(0 ≤ v.offset k ∧ v.offset k < 2 ^ 32) ∧ (v.wrapped k).toNat + v.width ≤ m.size.toNat

instance : Decidable (v.Has m k) := inferInstanceAs (Decidable (_ ∧ _))

instance : Decidable (v.Strays m k) := inferInstanceAs (Decidable (_ ∧ _))

theorem offset_nonneg (hw : 0 < v.width) : 0 ≤ v.offset k ↔ 0 ≤ k := by
  have hk : 0 ≤ k ↔ 0 ≤ k.toInt := Int32.le_iff_toInt_le
  rw [hk]
  exact Int.mul_nonneg_iff_of_pos_right (by omega)

/-- The number of bytes before an element, as the view computes it. -/
theorem toNat_mul_width (h : 0 ≤ k) : ((k.toInt.toNat * v.width : Nat) : Int) = v.offset k := by
  rw [Int.natCast_mul, Int.toNat_of_nonneg (Int32.le_iff_toInt_le.mp h)]
  rfl

theorem toNat_wrapped (h : 0 ≤ v.offset k) (hlt : v.offset k < 2 ^ 32) :
    ((v.wrapped k).toNat : Int) = v.offset k := by
  rw [wrapped, UInt32.ofInt, UInt32.toNat_ofNat']
  omega

/-- The address of an element that the memory has is what 32 bits hold of it. -/
theorem address_of_has (hw : 0 < v.width) (h : v.Has m k) :
    v.address m k = .ok (v.wrapped k) ∧ ((v.wrapped k).toNat : Int) = v.offset k := by
  obtain ⟨hk, hin⟩ := h
  have hsize := m.size.toNat_lt
  have hoffset := (offset_nonneg hw).mpr hk
  have hwrapped := toNat_wrapped hoffset (by omega)
  have hnat : k.toInt.toNat * v.width = (v.wrapped k).toNat :=
    Int.ofNat_inj.mp ((toNat_mul_width hk).trans hwrapped.symm)
  refine ⟨?_, hwrapped⟩
  rw [address, if_neg (Int32.not_lt.mpr hk), hnat, if_neg (by omega), UInt32.ofNat_toNat]

/-- An element that the memory does not have is refused, at once or at its address. -/
theorem address_of_not_has (hlt : v.width < 2 ^ 32) (h : ¬v.Has m k) :
    ∃ t : Trap, t.code = .outOfBounds ∧ (v.address m k = .error t
      ∨ ∃ addr, v.address m k = .ok addr
        ∧ m.check addr.toUInt64 (Int64.ofNat v.width) = .error t) := by
  unfold address
  by_cases hneg : k < 0
  · rw [if_pos hneg]
    exact ⟨_, rfl, .inl rfl⟩
  · rw [if_neg hneg]
    simp only
    by_cases hpast : m.size.toNat ≤ k.toInt.toNat * v.width
    · rw [if_pos hpast]
      exact ⟨_, rfl, .inl rfl⟩
    · rw [if_neg hpast]
      have hsize := m.size.toNat_lt
      have hmul := toNat_mul_width (v := v) (Int32.not_lt.mp hneg)
      have haddr : (UInt32.ofNat (k.toInt.toNat * v.width)).toNat = k.toInt.toNat * v.width := by
        rw [UInt32.toNat_ofNat']
        omega
      have hout : m.size.toNat
          < (UInt32.ofNat (k.toInt.toNat * v.width)).toNat + v.width := by
        rw [haddr]
        refine Nat.lt_of_not_le fun hle => h ⟨Int32.not_lt.mp hneg, ?_⟩
        omega
      obtain ⟨t, ht, hcheck⟩ := Memory.check_error hlt hout
      exact ⟨t, ht, .inr ⟨_, rfl, hcheck⟩⟩

/-- What 32 bits hold of an element is in the memory if the memory has the element, or if it
strays. -/
theorem wrapped_in_iff (hw : 0 < v.width) :
    (v.wrapped k).toNat + v.width ≤ m.size.toNat ↔ v.Has m k ∨ v.Strays m k := by
  have hsize := m.size.toNat_lt
  constructor
  · intro hin
    by_cases hoffset : 0 ≤ v.offset k ∧ v.offset k < 2 ^ 32
    · have hwrapped := toNat_wrapped hoffset.1 hoffset.2
      exact .inl ⟨(offset_nonneg hw).mp hoffset.1, by omega⟩
    · exact .inr ⟨hoffset, hin⟩
  · rintro (hhas | hstrays)
    · have hwrapped := (address_of_has hw hhas).2
      have hin := hhas.2
      omega
    · exact hstrays.2

theorem not_strays_of_has (hw : 0 < v.width) (h : v.Has m k) : ¬v.Strays m k := by
  have hsize := m.size.toNat_lt
  obtain ⟨hk, hin⟩ := h
  exact fun hstrays => hstrays.1 ⟨(offset_nonneg hw).mpr hk, by omega⟩

/-- An element that the memory has is read at its address. -/
theorem get_of_has (hw : 0 < v.width) (h : v.Has m k) :
    ∃ bits, m.load (v.wrapped k) v.width = .ok bits
      ∧ v.get m k = .ok bits.toUInt32.toInt32 := by
  have hload := Memory.load_ok (m := m) ((wrapped_in_iff hw).mpr (.inl h))
  refine ⟨_, hload, ?_⟩
  rw [get, (address_of_has hw h).1]
  show (m.load (v.wrapped k) v.width >>= _) = _
  rw [hload]
  rfl

theorem set_of_has (hw : 0 < v.width) (h : v.Has m k) (x : Int32) :
    ∃ memory, m.store (v.wrapped k) v.width x.toUInt32.toUInt64 = .ok memory
      ∧ v.set m k x = .ok memory := by
  have hstore := Memory.store_ok (m := m) x.toUInt32.toUInt64 ((wrapped_in_iff hw).mpr (.inl h))
  refine ⟨_, hstore, ?_⟩
  rw [set, (address_of_has hw h).1]
  exact hstore

/-- An element that the memory does not have is not read, and not written. -/
theorem get_of_not_has (hlt : v.width < 2 ^ 32) (h : ¬v.Has m k) :
    ∃ t : Trap, t.code = .outOfBounds ∧ v.get m k = .error t := by
  obtain ⟨t, ht, haddr | ⟨addr, haddr, hcheck⟩⟩ := address_of_not_has hlt h
  · refine ⟨t, ht, ?_⟩
    rw [get, haddr]
    rfl
  · refine ⟨t, ht, ?_⟩
    rw [get, haddr]
    show (m.load addr v.width >>= _) = _
    rw [Memory.load, hcheck]
    rfl

theorem set_of_not_has (hlt : v.width < 2 ^ 32) (h : ¬v.Has m k) (x : Int32) :
    ∃ t : Trap, t.code = .outOfBounds ∧ v.set m k x = .error t := by
  obtain ⟨t, ht, haddr | ⟨addr, haddr, hcheck⟩⟩ := address_of_not_has hlt h
  · refine ⟨t, ht, ?_⟩
    rw [set, haddr]
    rfl
  · refine ⟨t, ht, ?_⟩
    rw [set, haddr]
    show m.store addr v.width _ = _
    rw [Memory.store, hcheck]
    rfl

end WastForge.MemoryView
