import WastForge.Machine.Output
import WastForge.Proofs.Layout.Arena
import WastForge.Proofs.Machine.Cell
import WastForge.Proofs.Machine.Memory
import WastForge.Proofs.Text.Latin1

/-!
# What memory holds

The memory at the start, and static fields while they are read and written.
-/

namespace WastForge

/-!
## The memory at the start

What the memory of an arena holds before anything runs: every string in its slot, with its length in
front of its characters, and zeros everywhere else.
-/

/-- What a slot writes into memory. -/
def StringSlot.toSegment (s : StringSlot) : Script.Segment := ⟨s.offset, s.segment⟩

theorem StringSlot.length_segment (s : StringSlot) : s.segment.length = 4 + s.chars.length :=
  List.length_append

/-- The four bytes of a number, read back. -/
theorem toNat_littleEndian32 (n : UInt32) :
    (Memory.ofLittleEndian (littleEndian32 n)).toNat = n.toNat := by
  have hn := n.toNat_lt
  have hlt : ∀ bytes : Bytes, bytes.length ≤ 7 → (Memory.ofLittleEndian bytes).toNat < 2 ^ 56 := by
    intro bytes hlength
    refine (Memory.toNat_ofLittleEndian_lt (by omega)).trans_le ?_
    exact Nat.pow_le_pow_right (by decide) (by omega)
  have hbyte : ∀ k : UInt32, (n >>> k).toUInt8.toNat = n.toNat / 2 ^ (k.toNat % 32) % 256 := by
    intro k
    rw [UInt32.toNat_toUInt8, UInt32.toNat_shiftRight, Nat.shiftRight_eq_div_pow]
  have h1 : (n >>> 8).toUInt8.toNat = n.toNat / 2 ^ 8 % 256 := hbyte 8
  have h2 : (n >>> 16).toUInt8.toNat = n.toNat / 2 ^ 16 % 256 := hbyte 16
  have h3 : (n >>> 24).toUInt8.toNat = n.toNat / 2 ^ 24 % 256 := hbyte 24
  have hzero : (Memory.ofLittleEndian []).toNat = 0 := rfl
  rw [littleEndian32, Memory.toNat_ofLittleEndian_cons (hlt _ (by simp)),
    Memory.toNat_ofLittleEndian_cons (hlt _ (by simp)),
    Memory.toNat_ofLittleEndian_cons (hlt _ (by simp)),
    Memory.toNat_ofLittleEndian_cons (hlt _ (by simp)), h1, h2, h3, hzero, UInt32.toNat_toUInt8]
  omega

namespace Memory

theorem slice_append (m : Memory) (addr n k : Nat) :
    m.slice addr (n + k) = m.slice addr n ++ m.slice (addr + n) k := by
  rw [slice, List.range_add, List.map_append, List.map_map]
  refine congrArg _ (List.map_congr_left fun i _ => ?_)
  rw [Function.comp_apply, Nat.add_assoc]

theorem byte_ofSize (size : UInt32) (i : Nat) : (ofSize size).byte i = 0 :=
  Std.HashMap.getD_emptyWithCapacity

theorem length_slice (m : Memory) (addr n : Nat) : (m.slice addr n).length = n := by
  rw [slice, List.length_map, List.length_range]

theorem byte_of_slice {m : Memory} {addr n i : Nat} {data : Bytes} {b : UInt8}
    (h : m.slice addr n = data) (hi : data[i]? = some b) : m.byte (addr + i) = b := by
  rw [← h, slice, List.getElem?_map, Option.map_eq_some_iff] at hi
  obtain ⟨j, hj, rfl⟩ := hi
  obtain ⟨-, rfl⟩ := List.getElem?_eq_some_iff.mp hj
  rw [List.getElem_range]

end Memory

namespace Arena

/-- The memory before anything runs. -/
def memory (a : Arena) : Memory :=
  (Memory.ofSize a.total.toUInt32).putAll (a.strings.map StringSlot.toSegment)

variable {a : Arena} {s : StringSlot}

theorem Sound.size_memory (h : a.Sound) : a.memory.size.toNat = a.stop := by
  rw [memory, Memory.size_putAll]
  show a.total.toUInt32.toNat = _
  rw [UInt64.toNat_toUInt32, h.total]
  exact Nat.mod_eq_of_lt h.bound

/-- The characters of a string and its length lie in its slot. -/
theorem IsString.segment_le (h : a.IsString s) :
    s.offset.toNat + s.segment.length + 4 ≤ s.stop := by
  have hspec := slotSize_spec (s.chars.length + 8)
  rw [s.length_segment, StringSlot.stop, h.size]
  omega

/-- Every string is in memory. -/
theorem Sound.slice_memory (h : a.Sound) (hs : s ∈ a.strings) :
    a.memory.slice s.offset.toNat s.segment.length = s.segment := by
  have hapart : (a.strings.map StringSlot.toSegment).Pairwise fun s t =>
      s.offset.toNat + s.data.length ≤ t.offset.toNat := by
    rw [List.pairwise_map]
    refine h.strings.imp_of_mem fun {s t} hs _ hst => ?_
    have hle := (h.string s hs).segment_le
    exact (Nat.le_of_add_right_le hle).trans hst
  exact Memory.slice_putAll _ hapart _ (List.mem_map_of_mem hs)

/-- Whatever is not part of a string starts as zero. -/
theorem Sound.byte_memory (h : a.Sound) {i : Nat}
    (hi : ∀ s ∈ a.strings, i < s.offset.toNat ∨ s.stop ≤ i) : a.memory.byte i = 0 := by
  refine (Memory.byte_putAll_outside _ (List.forall_mem_map.mpr fun s hs => ?_)).trans
    (Memory.byte_ofSize _ i)
  have hle := (h.string s hs).segment_le
  refine (hi s hs).imp_right fun hstop => ?_
  exact (Nat.le_of_add_right_le hle).trans hstop

theorem Sound.toNat_firstChar (h : a.Sound) (hs : s ∈ a.strings) :
    s.firstChar.toNat = s.offset.toNat + 4 := by
  have hstop := (h.string s hs).stop
  have hle := (h.string s hs).segment_le
  have hbound := h.bound
  have hfour : (4 : UInt32).toNat = 4 := rfl
  rw [StringSlot.firstChar, UInt32.toNat_add, hfour]
  omega

/-- The length of a string stands in front of it. -/
theorem Sound.slice_length (h : a.Sound) (hs : s ∈ a.strings) :
    a.memory.slice s.offset.toNat 4 = littleEndian32 (UInt32.ofNat s.chars.length)
      ∧ a.memory.slice (s.offset.toNat + 4) s.chars.length = s.chars := by
  have hslice := h.slice_memory hs
  rw [s.length_segment, Memory.slice_append] at hslice
  exact List.append_inj hslice (by rw [Memory.length_slice]; rfl)

theorem Sound.length_lt (h : a.Sound) (hs : s ∈ a.strings) : s.chars.length < 2 ^ 32 := by
  have hstop := (h.string s hs).stop
  have hle := (h.string s hs).segment_le
  have hbound := h.bound
  rw [s.length_segment] at hle
  omega

/-- The length is loaded from the four bytes in front of a string. -/
theorem Sound.load_length (h : a.Sound) (hs : s ∈ a.strings) :
    a.memory.load s.offset 4 = .ok (UInt64.ofNat s.chars.length) := by
  have hstop := (h.string s hs).stop
  have hle := (h.string s hs).segment_le
  have hlt := h.length_lt hs
  rw [s.length_segment] at hle
  rw [Memory.load_ok (by rw [h.size_memory]; omega), (h.slice_length hs).1]
  refine congrArg _ (UInt64.toNat_inj.mp ?_)
  rw [toNat_littleEndian32, UInt32.toNat_ofNat', UInt64.toNat_ofNat']
  omega

/-- A string is read from memory. -/
theorem Sound.string_memory (h : a.Sound) (hs : s ∈ a.strings) :
    a.memory.string s.firstChar = .ok s.content := by
  have hstop := (h.string s hs).stop
  have hle := (h.string s hs).segment_le
  have hfirst := h.toNat_firstChar hs
  have hsize := h.size_memory
  have hlength := h.load_length hs
  rw [s.length_segment] at hle
  have hfour : ¬s.firstChar < 4 := by
    rw [UInt32.lt_iff_toNat_lt, hfirst]
    exact Nat.not_lt.mpr (Nat.le_add_left _ _)
  have hback : s.firstChar - 4 = s.offset := UInt32.add_sub_cancel s.offset 4
  have hread : a.memory.read s.offset 4 = .ok (a.memory.slice s.offset.toNat 4) :=
    Memory.read_ok (n := 4) (by omega)
  rw [Memory.load_ok (by omega)] at hlength
  rw [Memory.string, if_neg hfour, hback, hread]
  show (a.memory.read s.firstChar (Memory.ofLittleEndian (a.memory.slice s.offset.toNat 4)).toInt64
    >>= fun chars => pure (Latin1.decode chars)) = _
  rw [Except.ok.inj hlength]
  show (a.memory.read s.firstChar (Int64.ofNat s.chars.length)
    >>= fun chars => pure (Latin1.decode chars)) = _
  rw [Memory.read_ok (by omega), hfirst, (h.slice_length hs).2]
  exact congrArg _ (Latin1.decode_of_encode? (h.string s hs).chars)

/-- The characters of a string are the bytes from its address on. -/
theorem Sound.load_char (h : a.Sound) (hs : s ∈ a.strings) {i : Nat} {b : UInt8}
    (hi : s.chars[i]? = some b) :
    a.memory.load (s.firstChar + UInt32.ofNat i) 1 = .ok b.toUInt64 := by
  have hstop := (h.string s hs).stop
  have hle := (h.string s hs).segment_le
  have hbound := h.bound
  have hfirst := h.toNat_firstChar hs
  have hsize := h.size_memory
  obtain ⟨hlt, -⟩ := List.getElem?_eq_some_iff.mp hi
  rw [s.length_segment] at hle
  have haddr : (s.firstChar + UInt32.ofNat i).toNat = s.offset.toNat + 4 + i := by
    rw [UInt32.toNat_add, hfirst, UInt32.toNat_ofNat']
    omega
  rw [Memory.load_ok (by omega), haddr]
  have hbyte := Memory.byte_of_slice (h.slice_length hs).2 hi
  show Except.ok (Memory.ofLittleEndian [a.memory.byte (s.offset.toNat + 4 + i + 0)]) = _
  rw [Nat.add_zero, hbyte]
  refine congrArg _ (UInt64.toNat_inj.mp ?_)
  rw [Memory.toNat_ofLittleEndian_cons (by decide), UInt8.toNat_toUInt64]
  rfl

end Arena

end WastForge

namespace WastForge

/-!
## Static fields as variables

What the slots of fields hold while they are read and written: each one the value that was written
last, and zero before that. A write stays in its slot.
-/

/-- The bytes of a memory that belong to the heap, to a string or to a field other than `field` are
those of another one. -/
def Arena.Spares (a : Arena) (field : MemberRef) (m m' : Memory) : Prop :=
  ∀ i : Nat, (i < a.heapSize.toNat ∨ (∃ s ∈ a.strings, s.offset.toNat ≤ i ∧ i < s.stop)
    ∨ ∃ g ∈ a.fields, g.field ≠ field ∧ g.offset.toNat ≤ i ∧ i < g.stop) → m'.byte i = m.byte i

/-- Every field holds its value. -/
structure Arena.Holds (a : Arena) (m : Memory) (value : MemberRef → Value) : Prop where
  size : m.size = a.memory.size
  load : ∀ f ∈ a.fields, ∀ s, a.types.cell? f.type = some s →
    ∃ bits, m.load f.offset s.access.width = .ok bits
      ∧ Eval.loaded s.keyword s.access bits = value f.field

namespace Arena

variable {a : Arena} {f g : FieldSlot} {m : Memory} {s : Cell} {value : MemberRef → Value}

/-- A slot has room for any cell. -/
theorem Sound.access_le (h : a.Sound) (hf : f ∈ a.fields) (s : Cell) :
    f.offset.toNat + s.access.width ≤ f.stop ∧ f.stop ≤ a.memory.size.toNat := by
  have hspec := slotSize_spec f.size.toNat
  have hwidth := s.width_le
  refine ⟨?_, h.size_memory.symm ▸ (h.field f hf).stop⟩
  rw [FieldSlot.stop, FieldSlot.width]
  omega

/-- Slots of different fields do not overlap. -/
theorem Sound.fields_apart (h : a.Sound) (hf : f ∈ a.fields) (hg : g ∈ a.fields)
    (hne : f.field ≠ g.field) : f.stop ≤ g.offset.toNat ∨ g.stop ≤ f.offset.toNat := by
  have hpairwise : a.fields.Pairwise fun f g =>
      f.stop ≤ g.offset.toNat ∨ g.stop ≤ f.offset.toNat := h.fields.imp .inl
  have : Std.Symm fun f g : FieldSlot => f.stop ≤ g.offset.toNat ∨ g.stop ≤ f.offset.toNat :=
    ⟨fun _ _ => Or.symm⟩
  exact hpairwise.forall hf hg fun heq => hne (congrArg _ heq)

theorem ofLittleEndian_slice_zero {addr n : Nat} (h : ∀ i < n, m.byte (addr + i) = 0) :
    Memory.ofLittleEndian (m.slice addr n) = 0 := by
  have hzeros : m.slice addr n = List.replicate n 0 := by
    rw [Memory.slice, List.eq_replicate_iff]
    refine ⟨by rw [List.length_map, List.length_range], List.forall_mem_map.mpr fun i hi => ?_⟩
    exact h i (List.mem_range.mp hi)
  rw [hzeros]
  clear h hzeros
  induction n with
  | zero => rfl
  | succ n ih =>
    rw [List.replicate_succ, Memory.ofLittleEndian, ih]
    rfl

/-- Fields start as zero. -/
theorem Sound.holds_start (h : a.Sound)
    (hvalue : ∀ f ∈ a.fields, ∀ s, a.types.cell? f.type = some s → value f.field = s.zero) :
    a.Holds a.memory value where
  size := rfl
  load f hf s hs := by
    obtain ⟨hle, hstop⟩ := h.access_le hf s
    have hzero : ∀ i < s.access.width, a.memory.byte (f.offset.toNat + i) = 0 := by
      refine fun i hi => h.byte_memory fun t ht => ?_
      rcases h.apart t ht f hf with hapart | hapart
      · exact .inr (by omega)
      · exact .inl (by omega)
    refine ⟨0, ?_, ?_⟩
    · rw [Memory.load_ok (hle.trans hstop), ofLittleEndian_slice_zero hzero]
    · rw [hvalue f hf s hs]
      exact Cell.loaded_of_isValue s.isValue_zero (Nat.zero_mod _).symm

/-- A write changes what its field holds and nothing else. -/
theorem Holds.write (hm : a.Holds m value) (h : a.Sound) (hf : f ∈ a.fields)
    (hs : a.types.cell? f.type = some s) {v : Value} (hv : s.IsValue v) :
    ∃ m', m.store f.offset s.access.width v.bits = .ok m' ∧ a.Spares f.field m m'
      ∧ a.Holds m' (Function.update value f.field v) := by
  obtain ⟨hle, hstop⟩ := h.access_le hf s
  have hroom : f.offset.toNat + s.access.width ≤ m.size.toNat := by
    rw [hm.size]
    exact hle.trans hstop
  have hlength := Memory.length_toLittleEndian s.access.width v.bits
  refine ⟨_, Memory.store_ok v.bits hroom, ?_, (Memory.size_put m _ _).trans hm.size, ?_⟩
  · intro i hi
    refine Memory.byte_put_outside m ?_
    rw [hlength]
    rcases hi with hheap | ⟨t, ht, hlo, hhi⟩ | ⟨g, hg, hne, hlo, hhi⟩
    · exact .inl (hheap.trans_le (h.field f hf).start)
    · rcases h.apart t ht f hf with hapart | hapart
      · exact .inl (by omega)
      · exact .inr (by omega)
    · rcases h.fields_apart hg hf hne with hapart | hapart
      · exact .inl (by omega)
      · exact .inr (by omega)
  · intro g hg s' hs'
    by_cases hsame : g.field = f.field
    · obtain rfl := List.inj_on_of_nodup_map h.refs hg hf hsame
      obtain rfl := Option.some.inj (hs.symm.trans hs')
      obtain ⟨bits, hload, hbits⟩ := m.load_store_same v.bits s.width_le hroom
      refine ⟨bits, hload, ?_⟩
      rw [Function.update_self]
      exact Cell.loaded_of_isValue hv hbits
    · obtain ⟨bits, hload, hvalue⟩ := hm.load g hg s' hs'
      obtain ⟨hle', hstop'⟩ := h.access_le hg s'
      have hroom' : g.offset.toNat + s'.access.width ≤ m.size.toNat := by
        rw [hm.size]
        exact hle'.trans hstop'
      refine ⟨bits, ?_, by rw [Function.update_of_ne hsame]; exact hvalue⟩
      rw [Memory.load_ok hroom'] at hload
      rw [Memory.load_ok (by rwa [Memory.size_put]), Memory.slice_put_outside, hload]
      rw [hlength]
      rcases h.fields_apart hg hf hsame with hapart | hapart
      · exact .inl (by omega)
      · exact .inr (by omega)

end Arena

end WastForge
