import WastForge.Machine.Operation
import WastForge.Proofs.Integer.Arithmetic
import WastForge.Proofs.Text.Decimal

/-!
# Values held by the machine

How the values of integer types are held in 32 or 64 bits, and what constants, operations and
conversions of the machine do to values that are held.
-/

namespace WastForge

theorem Value.word_i32 (n : UInt32) : (Value.i32 n).word = n := by
  simp [Value.word, Value.i32]

namespace IntType

variable {S T : IntType} {x y v : Int}

theorem value_of_i32 (h : T.keyword = .i32) (v : Int) : T.value v = .i32 (UInt32.ofInt v) := by
  rw [value, h]

theorem value_of_i64 (h : T.keyword = .i64) (v : Int) : T.value v = .i64 (UInt64.ofInt v) := by
  rw [value, h]

theorem keyword_eq (T : IntType) : T.keyword = .i32 ∨ T.keyword = .i64 := by
  cases T <;> simp [keyword]

theorem value_eq_of_keyword (h : S.keyword = T.keyword) (v : Int) : S.value v = T.value v := by
  rw [value, value, h]

theorem not_isVoid_value (T : IntType) (v : Int) : (T.value v).isVoid = false := by
  rcases T.keyword_eq with h | h
  · rw [value_of_i32 h]
    rfl
  · rw [value_of_i64 h]
    rfl

/-- The values that are held in 32 bits fit there, with or without a sign. -/
theorem bounds_of_i32 (h : T.keyword = .i32) (hv : T.contains v) :
    -2 ^ 31 ≤ v ∧ v < 2 ^ 32 := by
  obtain ⟨hlo, hhi⟩ := hv
  have hleast : -2 ^ 31 ≤ T.least := by
    cases T <;> first | decide | exact absurd h (by decide)
  have hbound : T.bound ≤ 2 ^ 32 := by
    cases T <;> first | decide | exact absurd h (by decide)
  exact ⟨Int.le_trans hleast hlo, Int.lt_of_lt_of_le hhi hbound⟩

theorem bounds_of_i64 (h : T.keyword = .i64) (hv : T.contains v) :
    -2 ^ 63 ≤ v ∧ v < 2 ^ 64 := by
  obtain ⟨hlo, hhi⟩ := hv
  have hleast : -2 ^ 63 ≤ T.least := by
    cases T <;> decide
  have hbound : T.bound ≤ 2 ^ 64 := by
    cases T <;> decide
  exact ⟨Int.le_trans hleast hlo, Int.lt_of_lt_of_le hhi hbound⟩

theorem uint32_ofInt_eq_zero (hlo : -2 ^ 31 ≤ v) (hhi : v < 2 ^ 32) :
    UInt32.ofInt v = 0 ↔ v = 0 := by
  rw [← UInt32.toNat_inj, UInt32.ofInt, UInt32.toNat_ofNat']
  simp
  omega

theorem uint64_ofInt_eq_zero (hlo : -2 ^ 63 ≤ v) (hhi : v < 2 ^ 64) :
    UInt64.ofInt v = 0 ↔ v = 0 := by
  rw [← UInt64.toNat_inj, UInt64.ofInt, UInt64.toNat_ofNat']
  simp
  omega

/-- A value counts as true when it is not zero. -/
theorem isTrue_value (hv : T.contains v) : (T.value v).isTrue = !decide (v = 0) := by
  rcases T.keyword_eq with h | h
  · obtain ⟨hlo, hhi⟩ := bounds_of_i32 h hv
    have hzero := uint32_ofInt_eq_zero hlo hhi
    rw [value_of_i32 h, Value.isTrue, Value.i32, bne, Bool.not_inj_iff, Bool.eq_iff_iff]
    rw [beq_iff_eq, decide_eq_true_iff, ← hzero, ← UInt32.toUInt64_inj]
    rfl
  · obtain ⟨hlo, hhi⟩ := bounds_of_i64 h hv
    have hzero := uint64_ofInt_eq_zero hlo hhi
    rw [value_of_i64 h, Value.isTrue, Value.i64, bne, Bool.not_inj_iff, Bool.eq_iff_iff]
    rw [beq_iff_eq, decide_eq_true_iff, ← hzero]

/-- A constant is read as the value it was written for. -/
theorem ofConstant_ofInt (hv : T.contains v) (hword : v < 2 ^ 63) :
    Value.ofConstant T.keyword (Bytes.ofInt v) = .ok (T.value v) := by
  have hlow : -2 ^ 63 ≤ v := by
    rcases T.keyword_eq with h | h
    · have hlo := (bounds_of_i32 h hv).1
      omega
    · exact (bounds_of_i64 h hv).1
  have hread := Radix.int64?_ofInt hlow hword
  rcases T.keyword_eq with h | h
  · obtain ⟨hlo, hhi⟩ := bounds_of_i32 h hv
    rw [value_of_i32 h, h]
    simp only [Value.ofConstant, hread]
    rw [if_pos (by simp; omega)]
  · rw [value_of_i64 h, h]
    simp only [Value.ofConstant, hread]

end IntType

theorem IntOp.ofName?_name (op : IntOp) : IntOp.ofName? op.name = some op := by
  cases op <;> decide

namespace IntType

variable {S T : IntType} {x y v : Int}

/-- The outcome of an operation on the bits of a type as a value of the machine. -/
def outcome (T : IntType) : BitVec T.width ⊕ Bool → Value
  | .inl b => T.value (T.ofBits b)
  | .inr t => IntType.bool.value (truth t)

theorem ofBool_eq_value (b : Bool) : Value.ofBool b = IntType.bool.value (truth b) := by
  cases b <;> decide

/-- A type as wide as its machine type loses nothing. -/
theorem value_wrap (hT : T.isWide) (v : Int) : T.value (T.wrap v) = T.value v := by
  have h32 : ∀ n k, BitVec.ofInt 32 n = BitVec.ofInt 32 k → UInt32.ofInt n = UInt32.ofInt k := by
    intro n k h
    rwa [← UInt32.toBitVec_inj, toBitVec_uint32_ofInt, toBitVec_uint32_ofInt]
  have h64 : ∀ n k, BitVec.ofInt 64 n = BitVec.ofInt 64 k → UInt64.ofInt n = UInt64.ofInt k := by
    intro n k h
    rwa [← UInt64.toBitVec_inj, toBitVec_uint64_ofInt, toBitVec_uint64_ofInt]
  have hbits := T.toBits_wrap v
  cases T with
  | i32 | u32 => exact congrArg Value.i32 (h32 _ _ hbits)
  | i64 | u64 => exact congrArg Value.i64 (h64 _ _ hbits)
  | _ => exact absurd hT Bool.false_ne_true

theorem outcome_toBits (T : IntType) (hv : T.contains v) :
    T.outcome (.inl (T.toBits v)) = T.value v := by
  rw [outcome, ofBits_toBits, wrap_of_contains hv]

/-- On values that are held, an operation is the operation on their bits. -/
theorem binary?_value (hT : T.isWide) (op : IntOp) (x y : Int) :
    ∃ e, binary? T.keyword op.name (T.value x) (T.value y) = some e ∧
      e.mapError Trap.code = (op.onBits (T.toBits x) (T.toBits y)).map T.outcome := by
  have h32 : ∀ b : BitVec 32, UInt32.ofBitVec b = UInt32.ofInt b.toInt ∧
      UInt32.ofBitVec b = UInt32.ofInt b.toNat := by
    intro b
    rw [← UInt32.toBitVec_inj, ← UInt32.toBitVec_inj, toBitVec_uint32_ofInt, toBitVec_uint32_ofInt]
    simp
  have h64 : ∀ b : BitVec 64, UInt64.ofBitVec b = UInt64.ofInt b.toInt ∧
      UInt64.ofBitVec b = UInt64.ofInt b.toNat := by
    intro b
    rw [← UInt64.toBitVec_inj, ← UInt64.toBitVec_inj, toBitVec_uint64_ofInt, toBitVec_uint64_ofInt]
    simp
  cases T with
  | i32 =>
    refine ⟨op.on32 (UInt32.ofInt x) (UInt32.ofInt y), ?_, ?_⟩
    · simp only [binary?, keyword, IntOp.ofName?_name, value, Option.map_some, Value.word_i32]
    · rw [IntOp.on32_eq, toBitVec_uint32_ofInt, toBitVec_uint32_ofInt]
      refine congrArg (fun f => Except.map f _) (funext fun r => ?_)
      cases r with
      | inl b => exact congrArg Value.i32 (h32 b).1
      | inr t => exact ofBool_eq_value t
  | u32 =>
    refine ⟨op.on32 (UInt32.ofInt x) (UInt32.ofInt y), ?_, ?_⟩
    · simp only [binary?, keyword, IntOp.ofName?_name, value, Option.map_some, Value.word_i32]
    · rw [IntOp.on32_eq, toBitVec_uint32_ofInt, toBitVec_uint32_ofInt]
      refine congrArg (fun f => Except.map f _) (funext fun r => ?_)
      cases r with
      | inl b => exact congrArg Value.i32 (h32 b).2
      | inr t => exact ofBool_eq_value t
  | i64 =>
    refine ⟨op.on64 (UInt64.ofInt x) (UInt64.ofInt y), ?_, ?_⟩
    · simp only [binary?, keyword, IntOp.ofName?_name, value, Option.map_some, Value.i64]
    · rw [IntOp.on64_eq, toBitVec_uint64_ofInt, toBitVec_uint64_ofInt]
      refine congrArg (fun f => Except.map f _) (funext fun r => ?_)
      cases r with
      | inl b => exact congrArg Value.i64 (h64 b).1
      | inr t => exact ofBool_eq_value t
  | u64 =>
    refine ⟨op.on64 (UInt64.ofInt x) (UInt64.ofInt y), ?_, ?_⟩
    · simp only [binary?, keyword, IntOp.ofName?_name, value, Option.map_some, Value.i64]
    · rw [IntOp.on64_eq, toBitVec_uint64_ofInt, toBitVec_uint64_ofInt]
      refine congrArg (fun f => Except.map f _) (funext fun r => ?_)
      cases r with
      | inl b => exact congrArg Value.i64 (h64 b).2
      | inr t => exact ofBool_eq_value t
  | _ => simp [isWide] at hT

/-- Comparing with zero. -/
theorem eqz_value (hv : T.contains v) :
    unary? T.keyword "eqz" (T.value v) = some (.ok (IntType.bool.value (truth (v = 0)))) := by
  have htruth : ∀ b : Bool, Value.i32 (UInt32.ofNat (if b then 1 else 0)) =
      IntType.bool.value (truth b) := by
    decide
  rcases T.keyword_eq with h | h
  · obtain ⟨hlo, hhi⟩ := bounds_of_i32 h hv
    have hzero : (UInt32.ofInt v).toNat = 0 ↔ decide (v = 0) = true := by
      rw [decide_eq_true_iff, ← uint32_ofInt_eq_zero hlo hhi, ← UInt32.toNat_inj]
      rfl
    rw [h, value_of_i32 h, ← htruth]
    show some (Except.ok (Value.i32 (UInt32.ofNat
      (if (Value.i32 (UInt32.ofInt v)).word.toNat = 0 then 1 else 0)))) = _
    simp only [Value.word_i32, hzero]
  · obtain ⟨hlo, hhi⟩ := bounds_of_i64 h hv
    have hzero : (UInt64.ofInt v).toNat = 0 ↔ decide (v = 0) = true := by
      rw [decide_eq_true_iff, ← uint64_ofInt_eq_zero hlo hhi, ← UInt64.toNat_inj]
      rfl
    rw [h, value_of_i64 h, ← htruth]
    show some (Except.ok (Value.i32 (UInt32.ofNat
      (if (UInt64.ofInt v).toNat = 0 then 1 else 0)))) = _
    simp only [hzero]

theorem uint32_toUInt64_ofInt (hlo : 0 ≤ v) (hhi : v < 2 ^ 32) :
    (UInt32.ofInt v).toUInt64 = UInt64.ofInt v := by
  apply UInt64.toNat_inj.1
  rw [UInt32.toNat_toUInt64, UInt32.ofInt, UInt64.ofInt, UInt32.toNat_ofNat', UInt64.toNat_ofNat']
  omega

theorem uint32_signExtend_ofInt (h : FitsSigned 32 v) :
    (UInt32.ofInt v).toInt32.toInt64.toUInt64 = UInt64.ofInt v := by
  apply UInt64.toBitVec_inj.1
  rw [Int64.toBitVec_toUInt64, Int32.toBitVec_toInt64, UInt32.toBitVec_toInt32,
    toBitVec_uint32_ofInt, toBitVec_uint64_ofInt]
  rw [BitVec.signExtend, h.toInt_ofInt]

theorem uint64_toUInt32_ofInt (v : Int) : (UInt64.ofInt v).toUInt32 = UInt32.ofInt v := by
  apply UInt32.toNat_inj.1
  rw [UInt64.toNat_toUInt32, UInt32.ofInt, UInt64.ofInt, UInt32.toNat_ofNat', UInt64.toNat_ofNat']
  omega

/-- Widening repeats the sign of a signed type. -/
theorem extend_value (h : S.keyword = .i32) (hv : S.contains v) :
    unary? .i64 ("extend_" ++ (if S.signed then "s" else "u" : Bytes) ++ "/i32") (S.value v) =
      some (.ok (.i64 (UInt64.ofInt v))) := by
  rw [value_of_i32 h]
  cases hs : S.signed with
  | true =>
    have hfits : FitsSigned 32 v := by
      obtain ⟨hlo, hhi⟩ := hv
      refine ⟨by decide, ?_, ?_⟩
      · refine Int.le_trans ?_ hlo
        cases S <;> first | decide | exact absurd h (by decide)
      · refine Int.lt_of_lt_of_le hhi ?_
        cases S <;> first | decide | exact absurd hs (by decide) | exact absurd h (by decide)
    show some (Except.ok (Value.i64 (Value.i32 (UInt32.ofInt v)).signedWord.toInt64.toUInt64)) = _
    rw [Value.signedWord, Value.word_i32, uint32_signExtend_ofInt hfits]
  | false =>
    have hlo := ((contains_iff_nonneg hs).mp hv).1
    have hhi := (bounds_of_i32 h hv).2
    show some (Except.ok (Value.i64 (Value.i32 (UInt32.ofInt v)).word.toUInt64)) = _
    rw [Value.word_i32, uint32_toUInt64_ofInt hlo hhi]

/-- Cutting 64 bits down to 32. -/
theorem wrap_value (h : S.keyword = .i64) (v : Int) :
    unary? .i32 "wrap/i64" (S.value v) = some (.ok (.i32 (UInt32.ofInt v))) := by
  rw [value_of_i64 h]
  show some (Except.ok (Value.i32 (UInt64.ofInt v).toUInt32)) = _
  rw [uint64_toUInt32_ofInt]

/-- A mask keeps the low bits. -/
theorem and_mask (v : Int) {k : Nat} (hk : k = 8 ∨ k = 16) :
    UInt32.ofInt v &&& UInt32.ofInt (2 ^ k - 1 : Nat) = UInt32.ofInt (v % 2 ^ k) := by
  have hmask : (UInt32.ofInt (2 ^ k - 1 : Nat)).toNat = 2 ^ k - 1 := by
    rcases hk with rfl | rfl <;> rfl
  apply UInt32.toNat_inj.1
  rw [UInt32.toNat_and, hmask, Nat.and_two_pow_sub_one_eq_mod, UInt32.ofInt, UInt32.ofInt,
    UInt32.toNat_ofNat', UInt32.toNat_ofNat']
  rcases hk with rfl | rfl <;> omega

/-- Two shifts keep the low bits and repeat their sign. -/
theorem shr_shl (v : Int) {k c : Nat} (hk : k = 8 ∧ c = 24 ∨ k = 16 ∧ c = 16) :
    ((UInt32.ofInt v <<< (UInt32.ofInt c &&& 31)).toInt32 >>>
      (UInt32.ofInt c &&& 31).toInt32).toUInt32 = UInt32.ofInt (v.bmod (2 ^ k)) := by
  have hcount : (UInt32.ofInt c).toBitVec.toNat % 32 = c := by
    rcases hk with ⟨rfl, rfl⟩ | ⟨rfl, rfl⟩ <;> rfl
  have hbits : (v * 2 ^ c).bmod (2 ^ 32) / 2 ^ c = v.bmod (2 ^ k) := by
    rcases hk with ⟨rfl, rfl⟩ | ⟨rfl, rfl⟩ <;> simp only [Int.bmod] <;> omega
  rw [IntOp.shrS_uint32, IntOp.shl_uint32, hcount]
  apply UInt32.toBitVec_inj.1
  rw [toBitVec_uint32_ofInt, toBitVec_uint32_ofInt, ofInt_shiftLeft]
  show (BitVec.ofInt 32 (v * 2 ^ c)).sshiftRight c = _
  rw [← BitVec.ofInt_toInt (x := BitVec.sshiftRight _ _), BitVec.toInt_sshiftRight,
    BitVec.toInt_ofInt, Int.shiftRight_eq_div_pow, ← hbits]
  rfl

/-- The sum of values that are held, which may have left their type. -/
theorem binary?_add (T : IntType) (x y : Int) :
    binary? T.keyword IntOp.add.name (T.value x) (T.value y) = some (.ok (T.value (x + y))) := by
  rcases T.keyword_eq with h | h
  · simp only [h, binary?, IntOp.ofName?_name, Option.map_some, value_of_i32 h, Value.word_i32,
      IntOp.on32, UInt32.ofInt_add]
  · simp only [h, binary?, IntOp.ofName?_name, Option.map_some, value_of_i64 h, IntOp.on64,
      UInt64.ofInt_add, Value.i64]

theorem binary?_sub (T : IntType) (x y : Int) :
    binary? T.keyword IntOp.sub.name (T.value x) (T.value y) = some (.ok (T.value (x - y))) := by
  have h32 : UInt32.ofInt (x - y) = UInt32.ofInt x - UInt32.ofInt y := by
    rw [Int.sub_eq_add_neg, UInt32.ofInt_add, UInt32.ofInt_neg, UInt32.sub_eq_add_neg]
  have h64 : UInt64.ofInt (x - y) = UInt64.ofInt x - UInt64.ofInt y := by
    rw [Int.sub_eq_add_neg, UInt64.ofInt_add, UInt64.ofInt_neg, UInt64.sub_eq_add_neg]
  rcases T.keyword_eq with h | h
  · simp only [h, binary?, IntOp.ofName?_name, Option.map_some, value_of_i32 h, Value.word_i32,
      IntOp.on32, h32]
  · simp only [h, binary?, IntOp.ofName?_name, Option.map_some, value_of_i64 h, IntOp.on64, h64,
      Value.i64]

theorem binary?_xor_neg_one (T : IntType) (x : Int) :
    binary? T.keyword IntOp.xor.name (T.value x) (T.value (-1))
      = some (.ok (T.value (-x - 1))) := by
  have hbits : ∀ w, BitVec.ofInt w (-x - 1) = BitVec.ofInt w x ^^^ BitVec.ofInt w (-1) := by
    intro w
    have hones : BitVec.ofInt w (-1) = BitVec.allOnes w := by
      rw [BitVec.ofInt_neg]
      exact BitVec.neg_one_eq_allOnes
    rw [hones, BitVec.xor_allOnes, Int.sub_eq_add_neg, BitVec.ofInt_add, BitVec.ofInt_neg,
      BitVec.neg_eq_not_add, BitVec.ofInt_neg, ← BitVec.sub_eq_add_neg]
    exact BitVec.add_sub_cancel _ _
  have h32 : UInt32.ofInt (-x - 1) = UInt32.ofInt x ^^^ UInt32.ofInt (-1) := by
    apply UInt32.toBitVec_inj.1
    rw [UInt32.toBitVec_xor, toBitVec_uint32_ofInt, toBitVec_uint32_ofInt, toBitVec_uint32_ofInt,
      hbits]
  have h64 : UInt64.ofInt (-x - 1) = UInt64.ofInt x ^^^ UInt64.ofInt (-1) := by
    apply UInt64.toBitVec_inj.1
    rw [UInt64.toBitVec_xor, toBitVec_uint64_ofInt, toBitVec_uint64_ofInt, toBitVec_uint64_ofInt,
      hbits]
  rcases T.keyword_eq with h | h
  · simp only [h, binary?, IntOp.ofName?_name, Option.map_some, value_of_i32 h, Value.word_i32,
      IntOp.on32, h32]
  · simp only [h, binary?, IntOp.ofName?_name, Option.map_some, value_of_i64 h, IntOp.on64, h64,
      Value.i64]

/-- Numbers are held alike in 32 bits just when their low bits are the same. -/
theorem value_eq_iff (h : T.keyword = .i32) {x y : Int} :
    T.value x = T.value y ↔ x % 2 ^ 32 = y % 2 ^ 32 := by
  rw [value_of_i32 h, value_of_i32 h]
  constructor
  · intro hxy
    have hword := congrArg UInt32.toNat (congrArg Value.word hxy)
    rw [Value.word_i32, Value.word_i32, UInt32.ofInt, UInt32.ofInt, UInt32.toNat_ofNat',
      UInt32.toNat_ofNat'] at hword
    omega
  · intro hxy
    rw [UInt32.ofInt, UInt32.ofInt, hxy]

theorem wrap_eq_self_iff (T : IntType) (v : Int) : T.wrap v = v ↔ T.contains v :=
  ⟨fun h => h ▸ T.contains_wrap v, wrap_of_contains⟩

/-- A sign or complement of a value is held with the bits of the value that it means just when it
does not leave a narrow type. -/
theorem value_number_eq_iff {op : UnaryOp} (hop : op = .neg ∨ op = .bitNot) (hv : T.contains v) :
    T.value (op.number v) = T.value (T.unary op v) ↔ T.isWide ∨ T.contains (op.number v) := by
  have hunary : T.unary op v = T.wrap (op.number v) := by
    rcases hop with rfl | rfl <;> rfl
  rw [hunary]
  cases hwide : T.isWide with
  | true => exact iff_of_true (value_wrap hwide _).symm (.inl rfl)
  | false =>
    have hkeyword : T.keyword = .i32 := by
      cases T <;> first | rfl | exact absurd hwide (by decide)
    have hbounds : -2 ^ 15 ≤ T.least ∧ T.bound ≤ 2 ^ 16 := by
      cases T <;> first | decide | exact absurd hwide (by decide)
    obtain ⟨hlo, hhi⟩ := T.contains_wrap (op.number v)
    obtain ⟨hvlo, hvhi⟩ := hv
    have hnumber : op.number v = -v ∨ op.number v = -v - 1 := by
      rcases hop with rfl | rfl
      · exact .inl rfl
      · exact .inr rfl
    rw [value_eq_iff hkeyword, ← T.wrap_eq_self_iff]
    simp only [Bool.false_eq_true, false_or]
    omega

end IntType

end WastForge
