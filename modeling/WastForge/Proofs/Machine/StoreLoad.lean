import WastForge.Proofs.Machine.Ends
import WastForge.Proofs.Machine.Memory

/-!
# Stores and loads

Memory as the numbers of one, two, four and eight bytes in it: what is stored is loaded again, cut
to its width; a number elsewhere stays; and a number is made of its bytes, the lowest first. An
access that reaches past the size is out of bounds, also where its end has more than 32 bits, and
changes nothing.
-/

namespace WastForge

namespace Memory

/-- The widths of the numbers in memory. -/
def widths : List Nat := [1, 2, 4, 8]

theorem le_of_mem_widths {w : Nat} (hw : w ∈ widths) : w ≤ 8 :=
  (by decide : ∀ w ∈ widths, w ≤ 8) w hw

/-- An access that traps because it is out of bounds. -/
def OutOfBounds {α : Type} (r : Except Trap α) : Prop :=
  ∃ t : Trap, t.code = .outOfBounds ∧ r = .error t

variable {m : Memory} {addr : UInt32} {w : Nat}

theorem outOfBounds_load_iff (hw : w ≤ 8) :
    OutOfBounds (m.load addr w) ↔ m.size.toNat < addr.toNat + w := by
  constructor
  · rintro ⟨t, -, ht⟩
    refine Nat.lt_of_not_le fun hle => ?_
    rw [load_ok hle] at ht
    cases ht
  · intro h
    obtain ⟨t, hcode, ht⟩ := check_error (by omega) h
    refine ⟨t, hcode, ?_⟩
    rw [load, ht]
    rfl

theorem outOfBounds_store_iff (hw : w ≤ 8) (bits : UInt64) :
    OutOfBounds (m.store addr w bits) ↔ m.size.toNat < addr.toNat + w := by
  constructor
  · rintro ⟨t, -, ht⟩
    refine Nat.lt_of_not_le fun hle => ?_
    rw [store_ok bits hle] at ht
    cases ht
  · intro h
    obtain ⟨t, hcode, ht⟩ := check_error (by omega) h
    refine ⟨t, hcode, ?_⟩
    rw [store, ht]
    rfl

/-- What is stored does not show in a load elsewhere, not even in the way in which it fails. -/
theorem load_put_outside {data : Bytes} {start : Nat}
    (h : addr.toNat + w ≤ start ∨ start + data.length ≤ addr.toNat) :
    (m.put start data).load addr w = m.load addr w := by
  rw [load, load, check, check, size_put, slice_put_outside m h]

/-- A number is made of its bytes. -/
theorem toNat_ofLittleEndian {bytes : Bytes} (h : bytes.length ≤ 8) :
    (ofLittleEndian bytes).toNat = Nat.ofDigits 256 (bytes.map UInt8.toNat) := by
  induction bytes with
  | nil => rfl
  | cons b rest ih =>
    rw [List.length_cons] at h
    have hrest : rest.length ≤ 7 := Nat.le_of_succ_le_succ h
    have hlt : (ofLittleEndian rest).toNat < 2 ^ (8 * rest.length) :=
      toNat_ofLittleEndian_lt (Nat.le_succ_of_le hrest)
    have hle : 2 ^ (8 * rest.length) ≤ 2 ^ 56 := Nat.pow_le_pow_right (by decide) (by omega)
    rw [toNat_ofLittleEndian_cons (Nat.lt_of_lt_of_le hlt hle), ih (Nat.le_of_succ_le h),
      List.map_cons, Nat.ofDigits_cons]

/-- A byte of a number is loaded at its own address. -/
theorem load_byte {i : Nat} (hi : i < w) (h : addr.toNat + w ≤ m.size.toNat) :
    m.load (addr + UInt32.ofNat i) 1 = .ok (m.byte (addr.toNat + i)).toUInt64 := by
  have hsize := m.size.toNat_lt
  have haddr : (addr + UInt32.ofNat i).toNat = addr.toNat + i := by
    rw [UInt32.toNat_add, UInt32.toNat_ofNat']
    omega
  rw [load_ok (by omega), haddr]
  simp [slice, ofLittleEndian]

/-- What a load gives is made of what the loads of its bytes give, the lowest byte first. -/
def LoadsBytes (m : Memory) (addr : UInt32) (w : Nat) : Prop :=
  ∃ (n : UInt64) (b : Nat → UInt64), m.load addr w = .ok n
    ∧ (∀ i < w, m.load (addr + UInt32.ofNat i) 1 = .ok (b i))
    ∧ n.toNat = Nat.ofDigits 256 ((List.range w).map fun i => (b i).toNat)

theorem loadsBytes (hw : w ≤ 8) (h : addr.toNat + w ≤ m.size.toNat) : m.LoadsBytes addr w := by
  refine ⟨_, fun i => (m.byte (addr.toNat + i)).toUInt64, load_ok h, fun i hi => load_byte hi h, ?_⟩
  rw [toNat_ofLittleEndian (by simpa [slice] using hw), slice, List.map_map]
  exact congrArg (Nat.ofDigits 256) (List.map_congr_left fun i _ => (UInt8.toNat_toUInt64 _).symm)

/-- A memory with a number stored in it: the number is loaded, cut to its width, and all else is as
before. -/
structure Stores (m : Memory) (addr : UInt32) (w : Nat) (bits : UInt64) (m' : Memory) : Prop where
  size : m'.size = m.size
  same : ∃ n, m'.load addr w = .ok n ∧ n.toNat = bits.toNat % 2 ^ (8 * w)
  elsewhere : ∀ (addr' : UInt32), ∀ w' ∈ widths,
    addr'.toNat + w' ≤ addr.toNat ∨ addr.toNat + w ≤ addr'.toNat →
      m'.load addr' w' = m.load addr' w'

theorem stores_put (hw : w ≤ 8) (h : addr.toNat + w ≤ m.size.toNat) (bits : UInt64) :
    m.Stores addr w bits (m.put addr.toNat (toLittleEndian w bits)) where
  size := size_put m _ _
  same := load_store_same m bits hw h
  elsewhere addr' w' _ hapart := load_put_outside (by rwa [length_toLittleEndian])

end Memory

namespace Eval

/-- A store instruction with its operands evaluated: `v` is to be stored in `w` bytes at `addr`. -/
structure StoreReady (eval : Inner) (kw : Keyword) (suffix : Bytes) (f : Frame)
    (address value : SourceForm) (start m : Machine) (addr : UInt32) (w : Nat) (v : Value) :
    Prop where
  width : ∃ signed, access kw suffix = pure ⟨w, signed⟩
  operands : ∃ base between, eval f address start = .ok base between ∧ base.word = addr
    ∧ eval f value between = .ok v m

/-- A store that is out of bounds traps, and the machine stays as its operands left it. -/
theorem StoreReady.store_error {eval : Inner} {kw : Keyword} {suffix : Bytes} {f : Frame}
    {address value : SourceForm} {start m : Machine} {addr : UInt32} {w : Nat} {v : Value}
    {t : Trap} (h : StoreReady eval kw suffix f address value start m addr w v)
    (ht : m.memory.store addr w v.bits = .error t) :
    store eval kw suffix f [address, value] start = .error (.trap t) m := by
  obtain ⟨⟨signed, haccess⟩, base, between, haddress, rfl, hvalue⟩ := h
  have hlift : (lift (m.memory.store base.word w v.bits) : Eval Memory) m = .error (.trap t) m := by
    rw [ht]
    rfl
  unfold store
  rw [haccess, pure_bind]
  refine (bind_of_ok haddress).trans ((bind_of_ok hvalue).trans ?_)
  show (lift (m.memory.store base.word w v.bits) >>= fun _ => _) m = _
  exact bind_of_error hlift

end Eval

namespace Memory

/-- Loads and stores of one, two, four and eight bytes trap just where they reach past the size, and
a store that traps changes nothing. Else what is loaded is made of its bytes, and what is stored is
loaded again, cut to its width, with all other numbers as before. -/
theorem store_load (m : Memory) (addr : UInt32) {w : Nat} (hw : w ∈ widths) (bits : UInt64) :
    (OutOfBounds (m.load addr w) ↔ m.size.toNat < addr.toNat + w)
      ∧ (OutOfBounds (m.store addr w bits) ↔ m.size.toNat < addr.toNat + w)
      ∧ (m.size.toNat < addr.toNat + w →
          ∀ {eval kw suffix f address value start s v},
            Eval.StoreReady eval kw suffix f address value start s addr w v →
            s.memory = m → v.bits = bits →
            ∃ t : Trap, t.code = .outOfBounds
              ∧ Eval.store eval kw suffix f [address, value] start = .error (.trap t) s)
      ∧ (addr.toNat + w ≤ m.size.toNat →
          m.LoadsBytes addr w ∧ ∃ m', m.store addr w bits = .ok m' ∧ m.Stores addr w bits m') := by
  have hle := le_of_mem_widths hw
  have hstore : OutOfBounds (m.store addr w bits) ↔ m.size.toNat < addr.toNat + w :=
    outOfBounds_store_iff hle bits
  refine ⟨outOfBounds_load_iff hle, hstore, ?_, fun hin => ?_⟩
  · rintro hout eval kw suffix f address value start s v hready rfl rfl
    obtain ⟨t, hcode, ht⟩ := hstore.mpr hout
    exact ⟨t, hcode, hready.store_error ht⟩
  · exact ⟨loadsBytes hle hin, _, store_ok bits hin, stores_put hle hin bits⟩

/-- A number of 33 bits loses the highest one in four bytes at the end of a memory; and two bytes at
the last address reach past 2^32, not back to the first address. -/
theorem store_load_end :
    4 ∈ widths ∧ 2 ∈ widths
      ∧ (∃ m' n, (ofSize 8).store 4 4 0x123456789 = .ok m' ∧ m'.load 4 4 = .ok n
        ∧ n.toNat = 0x23456789 ∧ m'.load 0 4 = (ofSize 8).load 0 4)
      ∧ OutOfBounds ((ofSize 0xFFFFFFFF).store 0xFFFFFFFF 2 7) := by
  have hfour : 4 ∈ widths := by decide
  have htwo : 2 ∈ widths := by decide
  obtain ⟨-, m', hstore, hstores⟩ :=
    (store_load (ofSize 8) 4 hfour 0x123456789).2.2.2 (by decide)
  obtain ⟨n, hn, hbits⟩ := hstores.same
  refine ⟨hfour, htwo, ⟨m', n, hstore, hn, hbits, ?_⟩, ?_⟩
  · exact hstores.elsewhere 0 4 hfour (.inl (by decide))
  · exact (store_load (ofSize 0xFFFFFFFF) 0xFFFFFFFF htwo 7).2.1.mpr (by decide)

end Memory

end WastForge
