import WastForge.Machine.Operation
import WastForge.Proofs.Integer.Reference

/-!
# Operations on bits

The machine's operations on 32 and on 64 bits are one operation on bits of a given width, and on
the bits of values of a type this operation is the operator of the type.
-/

namespace WastForge

section Bits

variable {w : Nat} {x y v : Int}

theorem ofInt_emod_two_pow (v : Int) : BitVec.ofInt w (v % 2 ^ w) = BitVec.ofInt w v := by
  apply BitVec.eq_of_toNat_eq
  simp [BitVec.toNat_ofInt]

theorem toNat_ofInt_of_nonneg (hlo : 0 ≤ v) (hhi : v < 2 ^ w) :
    ((BitVec.ofInt w v).toNat : Int) = v := by
  rw [BitVec.toNat_ofInt, Int.emod_eq_of_lt hlo (by push_cast; exact hhi)]
  omega

theorem ofInt_toNat (b : BitVec w) : BitVec.ofInt w b.toNat = b := by
  simp

theorem ofInt_shiftLeft (x : Int) (k : Nat) :
    BitVec.ofInt w x <<< k = BitVec.ofInt w (x * 2 ^ k) := by
  have hpow : BitVec.twoPow w k = BitVec.ofInt w (2 ^ k) := by
    apply BitVec.eq_of_toNat_eq
    rw [BitVec.toNat_twoPow, BitVec.toNat_ofInt]
    have hcast : ((2 : Int) ^ k % ((2 ^ w : Nat) : Int)) = ((2 ^ k % 2 ^ w : Nat) : Int) := by
      push_cast
      rfl
    rw [hcast, Int.toNat_natCast]
  rw [BitVec.shiftLeft_eq_mul_twoPow, BitVec.ofInt_mul, hpow]

theorem ofInt_ushiftRight (hlo : 0 ≤ x) (hhi : x < 2 ^ w) (k : Nat) :
    BitVec.ofInt w x >>> k = BitVec.ofInt w (x / 2 ^ k) := by
  have hx : ((BitVec.ofInt w x).toNat : Int) = x := toNat_ofInt_of_nonneg hlo hhi
  rw [← ofInt_toNat (BitVec.ofInt w x >>> k), BitVec.toNat_ushiftRight,
    Nat.shiftRight_eq_div_pow, Int.natCast_ediv, hx]
  push_cast
  rfl

theorem ofInt_udiv (hx : 0 ≤ x) (hx' : x < 2 ^ w) (hy : 0 ≤ y) (hy' : y < 2 ^ w) :
    BitVec.ofInt w x / BitVec.ofInt w y = BitVec.ofInt w (x.tdiv y) := by
  rw [← ofInt_toNat (BitVec.ofInt w x / BitVec.ofInt w y), BitVec.toNat_udiv, Int.natCast_ediv,
    toNat_ofInt_of_nonneg hx hx', toNat_ofInt_of_nonneg hy hy', Int.tdiv_eq_ediv_of_nonneg hx]

theorem ofInt_umod (hx : 0 ≤ x) (hx' : x < 2 ^ w) (hy : 0 ≤ y) (hy' : y < 2 ^ w) :
    BitVec.ofInt w x % BitVec.ofInt w y = BitVec.ofInt w (x.tmod y) := by
  rw [← ofInt_toNat (BitVec.ofInt w x % BitVec.ofInt w y), BitVec.toNat_umod, Int.natCast_emod,
    toNat_ofInt_of_nonneg hx hx', toNat_ofInt_of_nonneg hy hy', Int.tmod_eq_emod_of_nonneg hx]

/-- Whether a number is one of `w` bits with a sign. -/
def FitsSigned (w : Nat) (v : Int) : Prop := 0 < w ∧ -2 ^ (w - 1) ≤ v ∧ v < 2 ^ (w - 1)

theorem FitsSigned.toInt_ofInt (h : FitsSigned w v) : (BitVec.ofInt w v).toInt = v :=
  BitVec.toInt_ofInt_eq_self h.1 h.2.1 h.2.2

theorem ofInt_sshiftRight (hx : FitsSigned w x) (k : Nat) :
    (BitVec.ofInt w x).sshiftRight k = BitVec.ofInt w (x / 2 ^ k) := by
  rw [← BitVec.ofInt_toInt (x := (BitVec.ofInt w x).sshiftRight k), BitVec.toInt_sshiftRight,
    hx.toInt_ofInt, Int.shiftRight_eq_div_pow]
  simp

theorem ofInt_sdiv (hx : FitsSigned w x) (hy : FitsSigned w y) :
    (BitVec.ofInt w x).sdiv (BitVec.ofInt w y) = BitVec.ofInt w (x.tdiv y) := by
  apply BitVec.eq_of_toInt_eq
  rw [BitVec.toInt_sdiv, hx.toInt_ofInt, hy.toInt_ofInt, BitVec.toInt_ofInt]

theorem ofInt_srem (hx : FitsSigned w x) (hy : FitsSigned w y) :
    (BitVec.ofInt w x).srem (BitVec.ofInt w y) = BitVec.ofInt w (x.tmod y) := by
  rw [← BitVec.ofInt_toInt (x := (BitVec.ofInt w x).srem _), BitVec.toInt_srem, hx.toInt_ofInt,
    hy.toInt_ofInt]

/-- A quotient of `w` bits with a sign leaves them only when the least number is negated. -/
theorem fitsSigned_tdiv (hx : FitsSigned w x) (hy : y ≠ 0) :
    FitsSigned w (x.tdiv y) ↔ ¬(x = -2 ^ (w - 1) ∧ y = -1) := by
  obtain ⟨hw, hlo, hhi⟩ := hx
  generalize hp : (2 : Int) ^ (w - 1) = p at *
  have hnat : (x.tdiv y).natAbs = x.natAbs / y.natAbs := Int.natAbs_tdiv x y
  unfold FitsSigned
  rw [hp]
  by_cases hone : y = -1
  · subst hone
    rw [Int.tdiv_neg, Int.tdiv_one]
    omega
  · have hsmall : y = 1 ∨ 2 ≤ y.natAbs := by omega
    rcases hsmall with rfl | htwo
    · rw [Int.tdiv_one]
      omega
    · have hhalf : x.natAbs / y.natAbs ≤ x.natAbs / 2 := Nat.div_le_div_left htwo (by decide)
      omega

end Bits

theorem toBitVec_uint32_ofInt (v : Int) : (UInt32.ofInt v).toBitVec = BitVec.ofInt 32 v := by
  apply BitVec.eq_of_toNat_eq
  rw [UInt32.toNat_toBitVec, UInt32.ofInt, BitVec.toNat_ofInt, UInt32.toNat_ofNat']
  omega

theorem toBitVec_uint64_ofInt (v : Int) : (UInt64.ofInt v).toBitVec = BitVec.ofInt 64 v := by
  apply BitVec.eq_of_toNat_eq
  rw [UInt64.toNat_toBitVec, UInt64.ofInt, BitVec.toNat_ofInt, UInt64.toNat_ofNat']
  omega

namespace IntOp

/-- An operation on bits of any width: bits or the truth of a comparison, or why there is none. -/
def onBits {w : Nat} (op : IntOp) (x y : BitVec w) : Except TrapCode (BitVec w ⊕ Bool) :=
  match op with
  | .add => .ok (.inl (x + y))
  | .sub => .ok (.inl (x - y))
  | .mul => .ok (.inl (x * y))
  | .divS =>
    if y = 0 then .error .divideByZero
    else if x = BitVec.intMin w ∧ y = -1 then .error .overflow
    else .ok (.inl (x.sdiv y))
  | .divU => if y = 0 then .error .divideByZero else .ok (.inl (x / y))
  | .remS => if y = 0 then .error .divideByZero else .ok (.inl (x.srem y))
  | .remU => if y = 0 then .error .divideByZero else .ok (.inl (x % y))
  | .and => .ok (.inl (x &&& y))
  | .or => .ok (.inl (x ||| y))
  | .xor => .ok (.inl (x ^^^ y))
  | .shl => .ok (.inl (x <<< (y.toNat % w)))
  | .shrS => .ok (.inl (x.sshiftRight (y.toNat % w)))
  | .shrU => .ok (.inl (x >>> (y.toNat % w)))
  | .eq => .ok (.inr (x == y))
  | .ne => .ok (.inr (x != y))
  | .ltS => .ok (.inr (x.slt y))
  | .ltU => .ok (.inr (x.ult y))
  | .leS => .ok (.inr (x.sle y))
  | .leU => .ok (.inr (x.ule y))
  | .gtS => .ok (.inr (y.slt x))
  | .gtU => .ok (.inr (y.ult x))
  | .geS => .ok (.inr (y.sle x))
  | .geU => .ok (.inr (y.ule x))

/-- The outcome of an operation on 32 bits as a value. -/
def outcome32 : BitVec 32 ⊕ Bool → Value
  | .inl b => .i32 (UInt32.ofBitVec b)
  | .inr t => .ofBool t

/-- The outcome of an operation on 64 bits as a value. -/
def outcome64 : BitVec 64 ⊕ Bool → Value
  | .inl b => .i64 (UInt64.ofBitVec b)
  | .inr t => .ofBool t

theorem srem_neg_one {w : Nat} (hw : 0 < w) (x : BitVec w) : x.srem (-1) = 0 := by
  have hone : (-1 : BitVec w).toInt = -1 := by
    show (-1#w).toInt = -1
    rw [BitVec.neg_one_eq_allOnes, BitVec.toInt_allOnes, if_pos hw]
  apply BitVec.eq_of_toInt_eq
  rw [BitVec.toInt_srem, hone]
  simp

theorem toNat_smod_of_lt {w n : Nat} {b : BitVec w} (hb : b.toNat < n) (hn : 2 * n < 2 ^ w) :
    (b.smod (BitVec.ofNat w n)).toNat = b.toNat := by
  have hnat : (BitVec.ofNat w n).toNat = n := by
    rw [BitVec.toNat_ofNat, Nat.mod_eq_of_lt (by omega)]
  have hleft : b.msb = false := by
    rw [BitVec.msb_eq_false_iff_two_mul_lt]
    omega
  have hright : (BitVec.ofNat w n).msb = false := by
    rw [BitVec.msb_eq_false_iff_two_mul_lt, hnat]
    exact hn
  rw [BitVec.smod_eq, hleft, hright]
  show (b % BitVec.ofNat w n).toNat = b.toNat
  rw [BitVec.toNat_umod, hnat, Nat.mod_eq_of_lt hb]

theorem ofBool_decide (p : Bool) : Value.ofBool (decide (p = true)) = Value.ofBool p := by
  simp

theorem toNat_and_31 (y : UInt32) : (y &&& 31).toNat = y.toBitVec.toNat % 32 := by
  rw [UInt32.toNat_and]
  exact Nat.and_two_pow_sub_one_eq_mod y.toNat 5

theorem shl_uint32 (x y : UInt32) :
    x <<< (y &&& 31) = UInt32.ofBitVec (x.toBitVec <<< (y.toBitVec.toNat % 32)) := by
  apply UInt32.toBitVec_inj.1
  rw [UInt32.toBitVec_shiftLeft, BitVec.shiftLeft_eq', BitVec.toNat_umod, UInt32.toNat_toBitVec,
    toNat_and_31]
  exact congrArg _ (Nat.mod_mod _ _)

theorem shrU_uint32 (x y : UInt32) :
    x >>> (y &&& 31) = UInt32.ofBitVec (x.toBitVec >>> (y.toBitVec.toNat % 32)) := by
  apply UInt32.toBitVec_inj.1
  rw [UInt32.toBitVec_shiftRight, BitVec.ushiftRight_eq', BitVec.toNat_umod, UInt32.toNat_toBitVec,
    toNat_and_31]
  exact congrArg _ (Nat.mod_mod _ _)

theorem shrS_uint32 (x y : UInt32) :
    (x.toInt32 >>> (y &&& 31).toInt32).toUInt32 =
      UInt32.ofBitVec (x.toBitVec.sshiftRight (y.toBitVec.toNat % 32)) := by
  have hlt : (y &&& 31).toNat < 32 := by
    rw [toNat_and_31]
    exact Nat.mod_lt _ (by decide)
  have hcount : ((y &&& 31).toInt32.toBitVec.smod 32).toNat = (y &&& 31).toNat :=
    toNat_smod_of_lt hlt (by decide)
  apply UInt32.toBitVec_inj.1
  rw [Int32.toBitVec_toUInt32, Int32.toBitVec_shiftRight, BitVec.sshiftRight_eq', hcount,
    toNat_and_31]
  rfl

/-- An operation on 32 bits is the operation on bits. -/
theorem on32_eq (op : IntOp) (x y : UInt32) :
    (op.on32 x y).mapError Trap.code = (op.onBits x.toBitVec y.toBitVec).map outcome32 := by
  have hzero : y = 0 ↔ y.toBitVec = 0 := UInt32.toBitVec_inj.symm
  have hone : y.toInt32 = -1 ↔ y.toBitVec = -1 := Int32.toBitVec_inj.symm
  have hleast : x.toInt32 = Int32.minValue ↔ x.toBitVec = BitVec.intMin 32 :=
    Int32.toBitVec_inj.symm
  cases op with
  | divS =>
    simp only [on32, onBits, hzero, hone, hleast, Bool.and_eq_true, decide_eq_true_eq]
    split
    · rfl
    · split <;> rfl
  | divU =>
    simp only [on32, onBits, hzero]
    split <;> rfl
  | remS =>
    simp only [on32, onBits, hzero, hone]
    split
    · rfl
    · split
      · rename_i h
        rw [h, srem_neg_one (by decide)]
        rfl
      · rfl
  | remU =>
    simp only [on32, onBits, hzero]
    split <;> rfl
  | shl =>
    simp only [on32, onBits, shl_uint32]
    rfl
  | shrS =>
    simp only [on32, onBits, shrS_uint32]
    rfl
  | shrU =>
    simp only [on32, onBits, shrU_uint32]
    rfl
  | eq =>
    have h : (x == y) = (x.toBitVec == y.toBitVec) := by
      rw [Bool.eq_iff_iff]
      simp [← UInt32.toBitVec_inj]
    simp only [on32, onBits, h]
    rfl
  | ne =>
    have h : (x != y) = (x.toBitVec != y.toBitVec) := by
      rw [Bool.eq_iff_iff]
      simp [← UInt32.toBitVec_inj]
    simp only [on32, onBits, h]
    rfl
  | ltS => exact congrArg Except.ok (ofBool_decide _)
  | leS => exact congrArg Except.ok (ofBool_decide _)
  | gtS => exact congrArg Except.ok (ofBool_decide _)
  | geS => exact congrArg Except.ok (ofBool_decide _)
  | _ => rfl

theorem toNat_and_63 (y : UInt64) : (y &&& 63).toNat = y.toBitVec.toNat % 64 := by
  rw [UInt64.toNat_and]
  exact Nat.and_two_pow_sub_one_eq_mod y.toNat 6

theorem shl_uint64 (x y : UInt64) :
    x <<< (y &&& 63) = UInt64.ofBitVec (x.toBitVec <<< (y.toBitVec.toNat % 64)) := by
  apply UInt64.toBitVec_inj.1
  rw [UInt64.toBitVec_shiftLeft, BitVec.shiftLeft_eq', BitVec.toNat_umod, UInt64.toNat_toBitVec,
    toNat_and_63]
  exact congrArg _ (Nat.mod_mod _ _)

theorem shrU_uint64 (x y : UInt64) :
    x >>> (y &&& 63) = UInt64.ofBitVec (x.toBitVec >>> (y.toBitVec.toNat % 64)) := by
  apply UInt64.toBitVec_inj.1
  rw [UInt64.toBitVec_shiftRight, BitVec.ushiftRight_eq', BitVec.toNat_umod, UInt64.toNat_toBitVec,
    toNat_and_63]
  exact congrArg _ (Nat.mod_mod _ _)

theorem shrS_uint64 (x y : UInt64) :
    (x.toInt64 >>> (y &&& 63).toInt64).toUInt64 =
      UInt64.ofBitVec (x.toBitVec.sshiftRight (y.toBitVec.toNat % 64)) := by
  have hlt : (y &&& 63).toNat < 64 := by
    rw [toNat_and_63]
    exact Nat.mod_lt _ (by decide)
  have hcount : ((y &&& 63).toInt64.toBitVec.smod 64).toNat = (y &&& 63).toNat :=
    toNat_smod_of_lt hlt (by decide)
  apply UInt64.toBitVec_inj.1
  rw [Int64.toBitVec_toUInt64, Int64.toBitVec_shiftRight, BitVec.sshiftRight_eq', hcount,
    toNat_and_63]
  rfl

/-- An operation on 64 bits is the operation on bits. -/
theorem on64_eq (op : IntOp) (x y : UInt64) :
    (op.on64 x y).mapError Trap.code = (op.onBits x.toBitVec y.toBitVec).map outcome64 := by
  have hzero : y = 0 ↔ y.toBitVec = 0 := UInt64.toBitVec_inj.symm
  have hone : y.toInt64 = -1 ↔ y.toBitVec = -1 := Int64.toBitVec_inj.symm
  have hleast : x.toInt64 = Int64.minValue ↔ x.toBitVec = BitVec.intMin 64 :=
    Int64.toBitVec_inj.symm
  cases op with
  | divS =>
    simp only [on64, onBits, hzero, hone, hleast, Bool.and_eq_true, decide_eq_true_eq]
    split
    · rfl
    · split <;> rfl
  | divU =>
    simp only [on64, onBits, hzero]
    split <;> rfl
  | remS =>
    simp only [on64, onBits, hzero, hone]
    split
    · rfl
    · split
      · rename_i h
        rw [h, srem_neg_one (by decide)]
        rfl
      · rfl
  | remU =>
    simp only [on64, onBits, hzero]
    split <;> rfl
  | shl =>
    simp only [on64, onBits, shl_uint64]
    rfl
  | shrS =>
    simp only [on64, onBits, shrS_uint64]
    rfl
  | shrU =>
    simp only [on64, onBits, shrU_uint64]
    rfl
  | eq =>
    have h : (x == y) = (x.toBitVec == y.toBitVec) := by
      rw [Bool.eq_iff_iff]
      simp [← UInt64.toBitVec_inj]
    simp only [on64, onBits, h]
    rfl
  | ne =>
    have h : (x != y) = (x.toBitVec != y.toBitVec) := by
      rw [Bool.eq_iff_iff]
      simp [← UInt64.toBitVec_inj]
    simp only [on64, onBits, h]
    rfl
  | ltS => exact congrArg Except.ok (ofBool_decide _)
  | leS => exact congrArg Except.ok (ofBool_decide _)
  | gtS => exact congrArg Except.ok (ofBool_decide _)
  | geS => exact congrArg Except.ok (ofBool_decide _)
  | _ => rfl

end IntOp

end WastForge
