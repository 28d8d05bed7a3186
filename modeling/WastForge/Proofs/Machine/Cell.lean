import WastForge.Proofs.Integer.Held
import WastForge.Proofs.Machine.Memory

/-!
# Values in memory

What of a value is kept in memory, by the type that it has: how many bytes, and how a load makes the
value of them again.
-/

namespace WastForge

open Eval

/-- What a place in memory holds: an integer, a floating point number, or an address. -/
inductive Cell where
  | int (T : IntType)
  | single
  | double
  | address
  deriving Repr, DecidableEq

namespace Cell

/-- The cell for the values of a descriptor. -/
def ofDescriptor? (d : Descriptor) : Option Cell :=
  match d.kind with
  | .float => if d.width = 32 then some .single else if d.width = 64 then some .double else none
  | .string | .delegate | .pointer => some .address
  | _ => (IntType.ofDescriptor? d).map .int

/-- The machine type of the values. -/
def keyword : Cell → Keyword
  | .int T => T.keyword
  | .single => .f32
  | .double => .f64
  | .address => .i32

/-- The values. -/
def IsValue : Cell → Value → Prop
  | .int T, v => ∃ x, T.contains x ∧ v = T.value x
  | .single, v => ∃ n, v = .f32 n
  | .double, v => ∃ n, v = .f64 n
  | .address, v => ∃ n, v = .i32 n

/-- What is zero. -/
def zero (s : Cell) : Value := ⟨valueType s.keyword, 0⟩

/-- How values are loaded. -/
def access : Cell → Access
  | .int .bool | .int .u8 => ⟨1, false⟩
  | .int .i8 => ⟨1, true⟩
  | .int .char | .int .u16 => ⟨2, false⟩
  | .int .i16 => ⟨2, true⟩
  | .int .i64 | .int .u64 | .double => ⟨8, false⟩
  | _ => ⟨4, false⟩

/-- What an instruction says about the access, apart from the machine type. -/
def suffix : Cell → Bool → Bytes
  | .int .bool, store | .int .u8, store => if store then "8" else "8_u"
  | .int .i8, store => if store then "8" else "8_s"
  | .int .char, store | .int .u16, store => if store then "16" else "16_u"
  | .int .i16, store => if store then "16" else "16_s"
  | _, _ => []

theorem isValue_zero (s : Cell) : s.IsValue s.zero := by
  cases s with
  | int T => exact ⟨0, T.contains_zero, by cases T <;> rfl⟩
  | single | double | address => exact ⟨0, rfl⟩

theorem width_le (s : Cell) : s.access.width ≤ 8 := by
  cases s with
  | int T => cases T <;> decide
  | _ => decide

theorem width_pos (s : Cell) : 0 < s.access.width := by
  cases s with
  | int T => cases T <;> decide
  | _ => decide

theorem ofName_load (s : Cell) :
    Opcode.ofName (s.keyword.text ++ ".load" ++ s.suffix false)
      = .load s.keyword (s.suffix false) := by
  cases s with
  | int T => cases T <;> decide
  | _ => decide

theorem ofName_store (s : Cell) :
    Opcode.ofName (s.keyword.text ++ ".store" ++ s.suffix true)
      = .store s.keyword (s.suffix true) := by
  cases s with
  | int T => cases T <;> decide
  | _ => decide

theorem access_load (s : Cell) : Eval.access s.keyword (s.suffix false) = pure s.access := by
  cases s with
  | int T => cases T <;> rfl
  | _ => rfl

theorem access_store (s : Cell) :
    Eval.access s.keyword (s.suffix true) = pure ⟨s.access.width, false⟩ := by
  cases s with
  | int T => cases T <;> rfl
  | _ => rfl

/-- The sign of a narrow number is repeated above it. -/
theorem signExtend_of_fits {w : Nat} {bits : UInt64} {x : Int} (hw : w = 1 ∨ w = 2)
    (hlo : -2 ^ (8 * w - 1) ≤ x) (hhi : x < 2 ^ (8 * w - 1))
    (hbits : (bits.toNat : Int) = x % 2 ^ (8 * w)) : signExtend w bits = UInt64.ofInt x := by
  have hshift : (signExtend w bits).toBitVec
      = BitVec.sshiftRight (bits.toBitVec <<< (64 - 8 * w)) (64 - 8 * w) := by
    rcases hw with rfl | rfl <;> rfl
  apply UInt64.toBitVec_inj.1
  rw [hshift]
  apply BitVec.eq_of_toInt_eq
  rw [BitVec.toInt_sshiftRight, toBitVec_uint64_ofInt, BitVec.toInt_ofInt, BitVec.toInt_shiftLeft,
    UInt64.toNat_toBitVec, Nat.shiftLeft_eq, Int.natCast_mul, hbits, Int.shiftRight_eq_div_pow]
  rcases hw with rfl | rfl <;> simp only [Int.bmod] <;> omega

theorem toNat_uint32_ofInt (x : Int) : ((UInt32.ofInt x).toUInt64.toNat : Int) = x % 2 ^ 32 := by
  rw [UInt32.toNat_toUInt64, UInt32.ofInt, UInt32.toNat_ofNat']
  omega

/-- A word of which only the low bytes are in use is loaded again. -/
theorem loaded_word {w : Nat} {n : UInt32} {bits : UInt64} (hn : n.toUInt64.toNat < 2 ^ (8 * w))
    (hbits : bits.toNat = n.toUInt64.toNat % 2 ^ (8 * w)) :
    loaded .i32 ⟨w, false⟩ bits = .i32 n := by
  have hsame : bits = n.toUInt64 := UInt64.toNat_inj.mp (hbits.trans (Nat.mod_eq_of_lt hn))
  show Value.i32 bits.toUInt32 = _
  rw [hsame, UInt32.toUInt32_toUInt64]

/-- A narrow number with its sign is loaded again. -/
theorem loaded_signed {w : Nat} {x : Int} {bits : UInt64} (hw : w = 1 ∨ w = 2)
    (hlo : -2 ^ (8 * w - 1) ≤ x) (hhi : x < 2 ^ (8 * w - 1))
    (hbits : bits.toNat = (UInt32.ofInt x).toUInt64.toNat % 2 ^ (8 * w)) :
    loaded .i32 ⟨w, true⟩ bits = .i32 (UInt32.ofInt x) := by
  have hlow : (bits.toNat : Int) = x % 2 ^ (8 * w) := by
    have hword := toNat_uint32_ofInt x
    rcases hw with rfl | rfl <;> omega
  show Value.i32 (signExtend w bits).toUInt32 = _
  rw [signExtend_of_fits hw hlo hhi hlow, IntType.uint64_toUInt32_ofInt]

/-- What is left of a value in memory makes the value again. -/
theorem loaded_of_isValue {s : Cell} {v : Value} {bits : UInt64} (hv : s.IsValue v)
    (hbits : bits.toNat = v.bits.toNat % 2 ^ (8 * s.access.width)) :
    loaded s.keyword s.access bits = v := by
  cases s with
  | int T =>
    obtain ⟨x, ⟨hlo, hhi⟩, rfl⟩ := hv
    have hword := toNat_uint32_ofInt x
    cases T with
    | i8 => exact loaded_signed (.inl rfl) hlo hhi hbits
    | i16 => exact loaded_signed (.inr rfl) hlo hhi hbits
    | bool | u8 | char | u16 =>
      change 0 ≤ x at hlo
      refine loaded_word ?_ hbits
      change x < _ at hhi
      simp only [IntType.bound, IntType.signed, IntType.width] at hhi
      omega
    | i32 | u32 =>
      exact loaded_word (by rw [UInt32.toNat_toUInt64]; exact UInt32.toNat_lt _) hbits
    | i64 | u64 =>
      refine congrArg (Value.mk .i64) (UInt64.toNat_inj.mp (hbits.trans ?_))
      exact Nat.mod_eq_of_lt (UInt64.toNat_lt _)
  | single =>
    obtain ⟨n, rfl⟩ := hv
    refine congrArg (Value.mk .f32) (UInt64.toNat_inj.mp (hbits.trans (Nat.mod_eq_of_lt ?_)))
    show n.toUInt64.toNat < 2 ^ 32
    rw [UInt32.toNat_toUInt64]
    exact n.toNat_lt
  | double =>
    obtain ⟨n, rfl⟩ := hv
    refine congrArg (Value.mk .f64) (UInt64.toNat_inj.mp (hbits.trans (Nat.mod_eq_of_lt ?_)))
    exact n.toNat_lt
  | address =>
    obtain ⟨n, rfl⟩ := hv
    exact loaded_word (by rw [UInt32.toNat_toUInt64]; exact n.toNat_lt) hbits

end Cell

namespace TypeTable

variable {tt : TypeTable} {t : TypeId} {s : Cell}

/-- The cell for the values of a type: of an integral type, of a floating point type of 32 or 64
bits, of a string, a delegate or a pointer. -/
def cell? (tt : TypeTable) (t : TypeId) : Option Cell := (tt.lookup? t).bind Cell.ofDescriptor?

/-- The descriptors that have a cell. -/
theorem cases_of_cell? (h : tt.cell? t = some s) :
    (∃ T, tt.intType? t = some T ∧ s = .int T)
      ∨ ∃ d, tt.lookup? t = some d ∧ (d.kind = .float ∧ d.width = 32 ∧ s = .single
        ∨ d.kind = .float ∧ d.width = 64 ∧ s = .double
        ∨ (d.kind = .string ∨ d.kind = .delegate ∨ d.kind = .pointer) ∧ s = .address) := by
  obtain ⟨d, hd, hs⟩ := Option.bind_eq_some_iff.mp h
  unfold Cell.ofDescriptor? at hs
  split at hs
  · rename_i hkind
    refine .inr ⟨d, hd, ?_⟩
    split at hs
    · rename_i hwidth
      exact .inl ⟨hkind, hwidth, (Option.some.inj hs).symm⟩
    · split at hs
      · rename_i hwidth
        exact .inr (.inl ⟨hkind, hwidth, (Option.some.inj hs).symm⟩)
      · cases hs
  · rename_i hkind
    exact .inr ⟨d, hd, .inr (.inr ⟨.inl hkind, (Option.some.inj hs).symm⟩)⟩
  · rename_i hkind
    exact .inr ⟨d, hd, .inr (.inr ⟨.inr (.inl hkind), (Option.some.inj hs).symm⟩)⟩
  · rename_i hkind
    exact .inr ⟨d, hd, .inr (.inr ⟨.inr (.inr hkind), (Option.some.inj hs).symm⟩)⟩
  · obtain ⟨T, hT, rfl⟩ := Option.map_eq_some_iff.mp hs
    exact .inl ⟨T, Option.bind_eq_some_iff.mpr ⟨d, hd, hT⟩, rfl⟩

theorem keyword_of_cell? (h : tt.cell? t = some s) : tt.valueKeyword? t = some s.keyword := by
  rcases cases_of_cell? h with ⟨T, hT, rfl⟩ | ⟨d, hd, hcell⟩
  · exact valueKeyword?_of_intType? hT
  · unfold valueKeyword? keyword?
    rcases hcell with ⟨hkind, hwidth, rfl⟩ | ⟨hkind, hwidth, rfl⟩ | ⟨hkind | hkind | hkind, rfl⟩
    all_goals simp [Cell.keyword, *]

theorem suffix_of_cell? (h : tt.cell? t = some s) (store : Bool) :
    tt.memorySuffix t store = s.suffix store := by
  rcases cases_of_cell? h with ⟨T, hT, rfl⟩ | ⟨d, hd, hcell⟩
  · obtain ⟨d, hd, hkind, hwidth⟩ := lookup?_of_intType? hT
    unfold memorySuffix
    cases T <;> simp_all [IntType.kind, IntType.signed, IntType.tableWidth, IntType.width,
      Cell.suffix] <;> cases store <;> rfl
  · unfold memorySuffix
    rcases hcell with ⟨hkind, hwidth, rfl⟩ | ⟨hkind, hwidth, rfl⟩ | ⟨hkind | hkind | hkind, rfl⟩
    all_goals simp [Cell.suffix, *]

end TypeTable

end WastForge
