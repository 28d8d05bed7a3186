import WastForge.Emit.Instruction
import WastForge.Proofs.Integer.Operation

/-!
# Operators of types

The operators of an integer type stay within the type, and on the bits of its values they are
operations of the machine. The sign of the type chooses among the operations.
-/

namespace WastForge

namespace IntType

variable {T : IntType} {x y v : Int}

theorem width_pos (T : IntType) : 0 < T.width := by
  cases T <;> decide

theorem contains_iff_fitsSigned (hs : T.signed) : T.contains v ↔ FitsSigned T.width v := by
  simp [contains, least, bound, hs, FitsSigned, T.width_pos]

theorem contains_iff_nonneg (hs : T.signed = false) : T.contains v ↔ 0 ≤ v ∧ v < 2 ^ T.width := by
  simp [contains, least, bound, hs]

/-- What has the low bits of a number is a value. -/
theorem contains_wrap (T : IntType) (v : Int) : T.contains (T.wrap v) := by
  cases hs : T.signed with
  | false =>
    rw [contains_iff_nonneg hs, wrap, hs]
    have hpos : (0 : Int) < 2 ^ T.width := Int.pow_pos (by decide)
    exact ⟨Int.emod_nonneg _ (by omega), Int.emod_lt_of_pos _ hpos⟩
  | true =>
    rw [contains_iff_fitsSigned hs, wrap, hs]
    have hbits : (BitVec.ofInt T.width v).toInt = v.bmod (2 ^ T.width) := BitVec.toInt_ofInt v
    refine ⟨T.width_pos, ?_, ?_⟩
    · rw [if_pos rfl, ← hbits]
      exact BitVec.le_toInt _
    · rw [if_pos rfl, ← hbits]
      exact BitVec.toInt_lt

theorem ofBits_toBits (T : IntType) (v : Int) : T.ofBits (T.toBits v) = T.wrap v := by
  unfold ofBits toBits wrap
  split
  · exact BitVec.toInt_ofInt v
  · rw [BitVec.toNat_ofInt]
    have hpos : (0 : Int) < 2 ^ T.width := Int.pow_pos (by decide)
    have hmod : 0 ≤ v % 2 ^ T.width := Int.emod_nonneg _ (by omega)
    push_cast
    omega

theorem toBits_ofBits (T : IntType) (b : BitVec T.width) : T.toBits (T.ofBits b) = b := by
  unfold ofBits toBits
  split
  · exact BitVec.ofInt_toInt
  · exact ofInt_toNat b

theorem toBits_wrap (T : IntType) (v : Int) : T.toBits (T.wrap v) = T.toBits v := by
  rw [← ofBits_toBits, toBits_ofBits]

/-- A value is the number with its bits. -/
theorem wrap_of_contains (h : T.contains v) : T.wrap v = v := by
  rw [← ofBits_toBits]
  cases hs : T.signed with
  | false =>
    rw [contains_iff_nonneg hs] at h
    rw [ofBits, if_neg (by simp [hs]), toBits, toNat_ofInt_of_nonneg h.1 h.2]
  | true =>
    rw [contains_iff_fitsSigned hs] at h
    rw [ofBits, if_pos hs, toBits, h.toInt_ofInt]

theorem contains_ofBits (T : IntType) (b : BitVec T.width) : T.contains (T.ofBits b) := by
  have h := T.contains_wrap (T.ofBits b)
  rwa [← ofBits_toBits, toBits_ofBits] at h

theorem toBits_inj (hx : T.contains x) (hy : T.contains y) : T.toBits x = T.toBits y ↔ x = y := by
  constructor
  · intro h
    rw [← wrap_of_contains hx, ← wrap_of_contains hy, ← ofBits_toBits, h, ofBits_toBits]
  · rintro rfl
    rfl

theorem toBits_neg_one (T : IntType) : T.toBits (-1) = -1 := by
  rw [toBits, BitVec.ofInt_neg]
  rfl

theorem toBits_add (T : IntType) (x y : Int) : T.toBits (x + y) = T.toBits x + T.toBits y :=
  BitVec.ofInt_add x y

theorem toBits_sub (T : IntType) (x y : Int) : T.toBits (x - y) = T.toBits x - T.toBits y := by
  rw [Int.sub_eq_add_neg, toBits_add, BitVec.sub_eq_add_neg]
  exact congrArg _ BitVec.ofInt_neg

theorem toBits_mul (T : IntType) (x y : Int) : T.toBits (x * y) = T.toBits x * T.toBits y :=
  BitVec.ofInt_mul x y

theorem contains_zero (T : IntType) : T.contains 0 := by
  cases T <;> decide

theorem toBits_eq_zero (hy : T.contains y) : T.toBits y = 0 ↔ y = 0 :=
  toBits_inj hy T.contains_zero

end IntType

/-- The operation of the machine that an operator becomes. -/
def BinaryOp.intOp (signed : Bool) : BinaryOp → IntOp
  | .sub => .sub
  | .mul => .mul
  | .div => if signed then .divS else .divU
  | .rem => if signed then .remS else .remU
  | .bitAnd => .and
  | .bitOr => .or
  | .bitXor => .xor
  | .shl => .shl
  | .shr => if signed then .shrS else .shrU
  | .eq => .eq
  | .ne => .ne
  | .lt => if signed then .ltS else .ltU
  | .le => if signed then .leS else .leU
  | .gt => if signed then .gtS else .gtU
  | .ge => if signed then .geS else .geU
  | _ => .add

namespace IntType

variable {T : IntType} {x y v : Int}

theorem onBits_div (hx : T.contains x) (hy : T.contains y) :
    (BinaryOp.div.intOp T.signed).onBits (T.toBits x) (T.toBits y) =
      (T.quotient x y).map (.inl ∘ T.toBits) := by
  have hzero := toBits_eq_zero hy
  cases hs : T.signed with
  | false =>
    have hxr := (contains_iff_nonneg hs).mp hx
    have hyr := (contains_iff_nonneg hs).mp hy
    have hq : T.contains (x.tdiv y) := by
      rw [contains_iff_nonneg hs, Int.tdiv_eq_ediv_of_nonneg hxr.1]
      exact ⟨Int.ediv_nonneg hxr.1 hyr.1, Int.lt_of_le_of_lt (Int.ediv_le_self _ hxr.1) hxr.2⟩
    simp only [BinaryOp.intOp, Bool.false_eq_true, if_false, IntOp.onBits, hzero, quotient]
    by_cases h0 : y = 0
    · simp [h0, Except.map]
    · rw [if_neg h0, if_neg h0, if_pos hq]
      exact congrArg _ (congrArg _ (ofInt_udiv hxr.1 hxr.2 hyr.1 hyr.2))
  | true =>
    have hxr := (contains_iff_fitsSigned hs).mp hx
    have hyr := (contains_iff_fitsSigned hs).mp hy
    have hleast : T.toBits x = BitVec.intMin T.width ↔ x = -2 ^ (T.width - 1) := by
      rw [BitVec.intMin_eq_neg_two_pow]
      refine toBits_inj hx ?_
      rw [contains_iff_fitsSigned hs]
      have hpos : (0 : Int) < 2 ^ (T.width - 1) := Int.pow_pos (by decide)
      exact ⟨T.width_pos, Int.le_refl _, by omega⟩
    have hone : T.toBits y = -1 ↔ y = -1 := by
      rw [← toBits_neg_one]
      refine toBits_inj hy ?_
      rw [contains_iff_fitsSigned hs]
      have hpos : (0 : Int) < 2 ^ (T.width - 1) := Int.pow_pos (by decide)
      exact ⟨T.width_pos, by omega, by omega⟩
    simp only [BinaryOp.intOp, if_true, IntOp.onBits, hzero, hleast, hone, quotient]
    by_cases h0 : y = 0
    · simp [h0, Except.map]
    · have hq := fitsSigned_tdiv hxr h0
      rw [← contains_iff_fitsSigned hs] at hq
      rw [if_neg h0, if_neg h0]
      by_cases hover : x = -2 ^ (T.width - 1) ∧ y = -1
      · rw [if_pos hover, if_neg (by rw [hq]; exact not_not_intro hover)]
        rfl
      · rw [if_neg hover, if_pos (hq.mpr hover)]
        exact congrArg _ (congrArg _ (ofInt_sdiv hxr hyr))

theorem onBits_rem (hx : T.contains x) (hy : T.contains y) :
    (BinaryOp.rem.intOp T.signed).onBits (T.toBits x) (T.toBits y) =
      (remainder x y).map (.inl ∘ T.toBits) := by
  have hzero := toBits_eq_zero hy
  unfold remainder
  cases hs : T.signed with
  | false =>
    have hxr := (contains_iff_nonneg hs).mp hx
    have hyr := (contains_iff_nonneg hs).mp hy
    simp only [BinaryOp.intOp, Bool.false_eq_true, if_false, IntOp.onBits, hzero]
    by_cases h0 : y = 0
    · simp [h0, Except.map]
    · rw [if_neg h0, if_neg h0]
      exact congrArg _ (congrArg _ (ofInt_umod hxr.1 hxr.2 hyr.1 hyr.2))
  | true =>
    have hxr := (contains_iff_fitsSigned hs).mp hx
    have hyr := (contains_iff_fitsSigned hs).mp hy
    simp only [BinaryOp.intOp, if_true, IntOp.onBits, hzero]
    by_cases h0 : y = 0
    · simp [h0, Except.map]
    · rw [if_neg h0, if_neg h0]
      exact congrArg _ (congrArg _ (ofInt_srem hxr hyr))

/-- Arithmetic on the bits of values is arithmetic on the values. -/
theorem onBits_arithmetic {op : BinaryOp} (hop : op.isArithmetic) (hx : T.contains x)
    (hy : T.contains y) :
    (op.intOp T.signed).onBits (T.toBits x) (T.toBits y) =
      (T.binary op x y).map (.inl ∘ T.toBits) := by
  have hwrap : ∀ v, (Except.ok (T.wrap v) : Except TrapCode Int).map (.inl ∘ T.toBits) =
      (.ok (.inl (T.toBits v)) : Except TrapCode (BitVec T.width ⊕ Bool)) := by
    intro v
    simp [Except.map, toBits_wrap]
  have hbits : ∀ b, (Except.ok (T.ofBits b) : Except TrapCode Int).map (.inl ∘ T.toBits) =
      (.ok (.inl b) : Except TrapCode (BitVec T.width ⊕ Bool)) := by
    intro b
    simp [Except.map, toBits_ofBits]
  cases op with
  | add =>
    rw [binary, hwrap, toBits_add]
    rfl
  | sub =>
    rw [binary, hwrap, toBits_sub]
    rfl
  | mul =>
    rw [binary, hwrap, toBits_mul]
    rfl
  | div => exact onBits_div hx hy
  | rem => exact onBits_rem hx hy
  | bitAnd => rw [binary, hbits]; rfl
  | bitOr => rw [binary, hbits]; rfl
  | bitXor => rw [binary, hbits]; rfl
  | _ => simp [BinaryOp.isArithmetic] at hop

/-- A shift of the bits of a value, by a count of which only the low bits matter. -/
theorem onBits_shift {op : BinaryOp} (hop : op.isShift) (hx : T.contains x) {c : BitVec T.width}
    (hc : c.toNat % T.width = T.shiftCount y) :
    (op.intOp T.signed).onBits (T.toBits x) c = (T.binary op x y).map (.inl ∘ T.toBits) := by
  cases op with
  | shl =>
    simp only [BinaryOp.intOp, IntOp.onBits, hc, binary, Except.map, Function.comp, toBits_wrap]
    exact congrArg _ (congrArg _ (ofInt_shiftLeft x _))
  | shr =>
    cases hs : T.signed with
    | false =>
      have hxr := (contains_iff_nonneg hs).mp hx
      simp only [BinaryOp.intOp, Bool.false_eq_true, if_false, IntOp.onBits, hc, binary, Except.map,
        Function.comp]
      exact congrArg _ (congrArg _ (ofInt_ushiftRight hxr.1 hxr.2 _))
    | true =>
      have hxr := (contains_iff_fitsSigned hs).mp hx
      simp only [BinaryOp.intOp, if_true, IntOp.onBits, hc, binary, Except.map, Function.comp]
      exact congrArg _ (congrArg _ (ofInt_sshiftRight hxr _))
  | _ => simp [BinaryOp.isShift] at hop

/-- The bits of values are ordered as the values are, in the order that the sign chooses. -/
theorem toBits_order (hx : T.contains x) (hy : T.contains y) :
    (T.toBits x == T.toBits y) = decide (x = y) ∧
      (if T.signed then (T.toBits x).slt (T.toBits y) else (T.toBits x).ult (T.toBits y)) =
        decide (x < y) ∧
      (if T.signed then (T.toBits x).sle (T.toBits y) else (T.toBits x).ule (T.toBits y)) =
        decide (x ≤ y) := by
  refine ⟨?_, ?_⟩
  · rw [Bool.eq_iff_iff, beq_iff_eq, decide_eq_true_iff, toBits_inj hx hy]
  · cases hs : T.signed with
    | false =>
      have hxr := (contains_iff_nonneg hs).mp hx
      have hyr := (contains_iff_nonneg hs).mp hy
      have hxn : ((T.toBits x).toNat : Int) = x := toNat_ofInt_of_nonneg hxr.1 hxr.2
      have hyn : ((T.toBits y).toNat : Int) = y := toNat_ofInt_of_nonneg hyr.1 hyr.2
      simp only [Bool.false_eq_true, if_false, BitVec.ult_eq_decide, BitVec.ule_eq_decide,
        decide_eq_decide]
      omega
    | true =>
      have hxi : (T.toBits x).toInt = x := ((contains_iff_fitsSigned hs).mp hx).toInt_ofInt
      have hyi : (T.toBits y).toInt = y := ((contains_iff_fitsSigned hs).mp hy).toInt_ofInt
      simp only [if_true, BitVec.slt_eq_decide, BitVec.sle_eq_decide, hxi, hyi, and_self]

/-- A comparison of the bits of values compares the values. -/
theorem onBits_comparison {op : BinaryOp} (hop : op.isComparison) (hx : T.contains x)
    (hy : T.contains y) :
    ∃ b, (op.intOp T.signed).onBits (T.toBits x) (T.toBits y) = .ok (.inr b) ∧
      T.binary op x y = .ok (truth b) := by
  obtain ⟨heq, hlt, hle⟩ := toBits_order hx hy
  obtain ⟨-, hgt, hge⟩ := toBits_order hy hx
  cases op with
  | eq =>
    refine ⟨decide (x = y), ?_, rfl⟩
    simp only [BinaryOp.intOp, IntOp.onBits, heq]
  | ne =>
    refine ⟨decide (x ≠ y), ?_, rfl⟩
    simp only [BinaryOp.intOp, IntOp.onBits, bne, heq, decide_not]
  | lt =>
    refine ⟨_, ?_, rfl⟩
    rw [← hlt]
    cases T.signed <;> rfl
  | le =>
    refine ⟨_, ?_, rfl⟩
    rw [← hle]
    cases T.signed <;> rfl
  | gt =>
    refine ⟨_, ?_, rfl⟩
    rw [← hgt]
    cases T.signed <;> rfl
  | ge =>
    refine ⟨_, ?_, rfl⟩
    rw [← hge]
    cases T.signed <;> rfl
  | _ => simp [BinaryOp.isComparison] at hop

/-- What lies between zero and a value is a value. -/
theorem contains_of_between (hx : T.contains x) (hpos : 0 ≤ x → 0 ≤ v ∧ v ≤ x)
    (hneg : x ≤ 0 → x ≤ v ∧ v ≤ 0) : T.contains v := by
  obtain ⟨hlo, hhi⟩ := hx
  obtain ⟨hlo', hhi'⟩ := T.contains_zero
  refine ⟨?_, ?_⟩ <;> omega

theorem contains_tmod (hx : T.contains x) : T.contains (x.tmod y) := by
  have habs : (x.tmod y).natAbs ≤ x.natAbs := by
    rw [Int.natAbs_tmod]
    exact Nat.mod_le _ _
  refine contains_of_between hx ?_ ?_
  · intro hpos
    have hsign := Int.tmod_nonneg y hpos
    omega
  · intro hneg
    have hsign := Int.tmod_nonneg y (Int.neg_nonneg_of_nonpos hneg)
    rw [Int.neg_tmod] at hsign
    omega

theorem contains_div_two_pow (hx : T.contains x) (k : Nat) : T.contains (x / 2 ^ k) := by
  have hk : (1 : Int) ≤ 2 ^ k := Int.pow_pos (by decide)
  refine contains_of_between hx ?_ ?_
  · intro hpos
    exact ⟨Int.ediv_nonneg hpos (by omega), Int.ediv_le_self _ hpos⟩
  · intro hneg
    have hlo : x ≤ x / 2 ^ k := by
      rw [Int.le_ediv_iff_mul_le (by omega)]
      have h := Int.mul_le_mul_of_nonpos_left hneg hk
      omega
    have hhi : x / 2 ^ k < 1 := Int.ediv_lt_of_lt_mul (by omega) (by omega)
    omega

/-- The result of an operator is a value of the type. -/
theorem contains_of_binary {op : BinaryOp} (hop : op.isArithmetic ∨ op.isShift)
    (hx : T.contains x) (hv : T.binary op x y = .ok v) : T.contains v := by
  cases op with
  | add | sub | mul | shl =>
    simp only [binary, Except.ok.injEq] at hv
    rw [← hv]
    exact contains_wrap T _
  | bitAnd | bitOr | bitXor =>
    simp only [binary, Except.ok.injEq] at hv
    rw [← hv]
    exact contains_ofBits T _
  | div =>
    simp only [binary, quotient] at hv
    split at hv
    · simp at hv
    · split at hv
      · rename_i hq
        obtain rfl : x.tdiv y = v := by simpa using hv
        exact hq
      · simp at hv
  | rem =>
    simp only [binary, remainder] at hv
    split at hv
    · simp at hv
    · obtain rfl : x.tmod y = v := by simpa using hv
      exact contains_tmod hx
  | shr =>
    simp only [binary, Except.ok.injEq] at hv
    rw [← hv]
    exact contains_div_two_pow hx _
  | _ => simp [BinaryOp.isArithmetic, BinaryOp.isShift] at hop

end IntType

end WastForge
