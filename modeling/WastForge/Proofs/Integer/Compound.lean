import WastForge.Proofs.Integer.Increment

/-!
# Compound assignments

What `x op= e` leaves in a local, next to what `x = (T)(x op e)` leaves there. The machine computes
with the values of a narrow type in 32 bits. A cast cuts the result down to the type, and so does an
increment; a compound assignment stores it as it is.
-/

namespace WastForge

open Emit

/-! ## Computing with narrow values -/

namespace IntType

variable {T : IntType} {x y v w : Int}

/-- The type of 32 or 64 bits in which the machine computes with the values of a type. -/
def computed (T : IntType) : IntType := if T.isWide then T else if T.signed then .i32 else .u32

theorem isWide_computed (T : IntType) : T.computed.isWide := by
  cases T <;> rfl

@[simp] theorem keyword_computed (T : IntType) : T.computed.keyword = T.keyword := by
  cases T <;> rfl

@[simp] theorem signed_computed (T : IntType) : T.computed.signed = T.signed := by
  cases T <;> rfl

theorem value_computed (T : IntType) (v : Int) : T.computed.value v = T.value v :=
  value_eq_of_keyword T.keyword_computed v

theorem contains_computed (hv : T.contains v) : T.computed.contains v := by
  have hbounds : T.computed.least ≤ T.least ∧ T.bound ≤ T.computed.bound := by
    cases T <;> decide
  exact ⟨Int.le_trans hbounds.1 hv.1, Int.lt_of_lt_of_le hv.2 hbounds.2⟩

/-- A result of 32 bits is held as its own cut just when it is a value of the narrow type. -/
theorem value_wrap_eq_iff (hv : T.computed.contains v) :
    T.value v = T.value (T.wrap v) ↔ T.isWide ∨ T.contains v := by
  cases hwide : T.isWide with
  | true => exact iff_of_true (value_wrap hwide v).symm (.inl rfl)
  | false =>
    have hkeyword : T.keyword = .i32 := by
      cases T <;> first | rfl | exact absurd hwide (by decide)
    have hspan : T.computed.bound - T.computed.least = 2 ^ 32 := by
      cases T <;> first | rfl | exact absurd hwide (by decide)
    obtain ⟨hlo, hhi⟩ := contains_computed (T.contains_wrap v)
    obtain ⟨hvlo, hvhi⟩ := hv
    rw [value_eq_iff hkeyword, ← T.wrap_eq_self_iff]
    simp only [Bool.false_eq_true, false_or]
    omega

theorem value_wrap_succ_eq_iff (hv : T.contains v) :
    T.value (v + 1) = T.value (T.wrap (v + 1)) ↔ T.isWide ∨ T.contains (v + 1) := by
  cases hwide : T.isWide with
  | true => exact iff_of_true (value_wrap hwide _).symm (.inl rfl)
  | false =>
    rw [← hwide]
    refine value_wrap_eq_iff ?_
    have hroom : T.computed.least ≤ T.least ∧ T.bound < T.computed.bound := by
      cases T <;> first | decide | exact absurd hwide (by decide)
    obtain ⟨hlo, hhi⟩ := hv
    exact ⟨by omega, by omega⟩

/-- The machine's operation on values that are held computes the operator in 32 or 64 bits. Of the
count of a shift it uses the low bits. -/
theorem binary?_computed {op : BinaryOp} {c : Int} (hx : T.contains x)
    (hop : op.isArithmetic ∧ T.contains y ∧ c = y
      ∨ op.isShift ∧ (T.computed.toBits c).toNat % T.computed.width = T.computed.shiftCount y) :
    ∃ done, binary? T.keyword (op.intOp T.signed).name (T.value x) (T.value c) = some done
      ∧ done.mapError Trap.code = (T.computed.binary op x y).map T.value := by
  obtain ⟨done, hdone, hcode⟩ :=
    T.computed.binary?_value T.isWide_computed (op.intOp T.signed) x c
  rw [keyword_computed, value_computed, value_computed] at hdone
  have hx' := contains_computed hx
  have hbits : (op.intOp T.computed.signed).onBits (T.computed.toBits x) (T.computed.toBits c)
      = (T.computed.binary op x y).map (.inl ∘ T.computed.toBits) := by
    rcases hop with ⟨harith, hy, rfl⟩ | ⟨hshift, hc⟩
    · exact onBits_arithmetic harith hx' (contains_computed hy)
    · exact onBits_shift hshift hx' hc
  rw [signed_computed] at hbits
  refine ⟨done, hdone, ?_⟩
  rw [hcode, hbits]
  cases hresult : T.computed.binary op x y with
  | error c => rfl
  | ok n =>
    have hn : T.computed.contains n := contains_of_binary (hop.imp (·.1) (·.1)) hx' hresult
    exact congrArg Except.ok ((T.computed.outcome_toBits hn).trans (T.value_computed n))

end IntType

theorem BinaryOp.isArithmetic_or_isShift {cop op : BinaryOp} (h : cop.compoundBase? = some op) :
    op.isArithmetic ∨ op.isShift := by
  cases cop <;> cases h <;> first | exact .inl rfl | exact .inr rfl

/-! ## The code -/

section code

variable {env : Env} {T R : IntType} {x e : Expr} {f g : Form} {j j' : Journal}
  {read : Form} {write : Form → Form} {op cop : BinaryOp}

/-- The code of a compound assignment stores what its operator makes of the target. -/
theorem run_expr_compound (h : env.Serves T x read write)
    (hx : env.types.intType? x.type = some T) (hop : cop.compoundBase? = some op)
    (hg : (expr env true e).run j = (.ok (some g), j')) (a : Annot) (want : Bool) :
    (expr env want (.binary a cop x e)).run j
      = (.ok (some (write (.app (T.keyword.text ++ "." ++ (op.intOp T.signed).name)
          [some read, rightOperand env op T.keyword e.type (some g)]))), j') := by
  have hassign : cop ≠ .assign := by
    rintro rfl
    cases hop
  have hcompound : cop.isAssignment = true := by
    cases cop <;> first | rfl | cases hop
  have hoperation : op.isOperation := by
    rcases BinaryOp.isArithmetic_or_isShift hop with h | h <;> simp [BinaryOp.isOperation, h]
  rw [expr, if_neg hassign, hcompound, if_pos rfl, hop, Option.getD_some,
    lookAt_of_not_missing (not_missing_of_run (h.expr true j))]
  simp only [pure_bind]
  rw [Work.run_bind (run_operation hoperation hx j)]
  simp only
  rw [Work.run_bind (h.expr true j), Work.run_bind hg,
    lookAtIf_of_not_missing (not_missing_of_run hg), pure_bind, Work.run_bind (h.store _ j')]
  rfl

theorem run_expr_assign (h : ∀ j, (store env x (some g)).run j = (.ok f, j))
    (hg : (expr env true e).run j = (.ok (some g), j')) (a : Annot) (want : Bool) :
    (expr env want (.binary a .assign x e)).run j = (.ok (some f), j') := by
  rw [expr, if_pos rfl, Work.run_bind hg, Work.run_bind (h j')]
  rfl

/-- A cast to the type of the operands of an operator cuts its result down. -/
theorem run_expr_cast (hbool : T ≠ .bool) {a : Annot} (ha : env.types.intType? a.type = some T)
    (he : env.types.intType? e.type = some T.promoted)
    (hg : (expr env true e).run j = (.ok (some g), j')) (want : Bool) :
    (expr env want (.cast a e)).run j = (.ok (some (T.cut g)), j') := by
  rw [expr, lookAt_of_not_missing (not_missing_of_run hg), pure_bind, Work.run_bind hg]
  cases hwide : T.isWide with
  | true =>
    have hkeyword : T.promoted = T := if_pos hwide
    rw [hkeyword] at he
    have hcut : T.cut g = g := if_pos hwide
    have hcast :
        Instruction.cast env.types (some g) e.type a.type T.keyword T.keyword = some g := by
      simp only [Instruction.cast, Instruction.convert, if_true, narrow_eq_self ha hwide, ite_self]
    split
    · rw [hcut]
      rfl
    · rw [TypeTable.valueKeyword?_of_intType? he, TypeTable.valueKeyword?_of_intType? ha, hcut]
      simp only [hcast]
      rfl
  | false =>
    have hpromoted : T.promoted = .i32 := if_neg (by rw [hwide]; exact Bool.false_ne_true)
    rw [hpromoted] at he
    have hne : e.type ≠ a.type := by
      intro heq
      rw [heq, ha] at he
      cases he
      cases hwide
    have hkeyword : T.keyword = .i32 := by
      cases T <;> first | rfl | exact absurd hwide (by decide)
    have hcast : Instruction.cast env.types (some g) e.type a.type .i32 .i32 = some (T.cut g) := by
      have hnarrow := narrow_eq he ha hwide (some g)
      simp only [Instruction.cast, Instruction.convert, if_true, hnarrow]
      cases T <;> first | rfl | exact absurd rfl hbool | exact absurd hwide (by decide)
    rw [if_neg hne, TypeTable.valueKeyword?_of_intType? he, TypeTable.valueKeyword?_of_intType? ha,
      hkeyword]
    simp only [show IntType.keyword .i32 = Keyword.i32 from rfl, hcast]
    rfl

end code

namespace Eval

variable {menv : MachineEnv} {frame : Frame} {m m₁ : Machine} {g : Form} {T R : IntType} {w : Int}

/-- What is cut down is left early where it is. -/
theorem formEnds_cut_stop {s : Stop} (T : IntType) (hg : FormEnds menv frame g m (.error s) m₁) :
    FormEnds menv frame (T.cut g) m (.error s) m₁ := by
  have hshl : Opcode.ofName "i32.shl" = .operation .i32 "shl" := by decide
  have hshr : Opcode.ofName "i32.shr_s" = .operation .i32 "shr_s" := by decide
  have hand : Opcode.ofName "i32.and" = .operation .i32 "and" := by decide
  unfold IntType.cut
  split
  · exact hg
  · split
    · exact formEnds_operation_stop hshr (formEnds_operation_stop hshl hg)
    · exact formEnds_operation_stop hand hg

/-- The right operand of an operator ends in its value, or in a count with the same low bits. -/
theorem formEnds_rightOperand {env : Env} {op : BinaryOp} {e : Expr}
    (hop : op.isArithmetic ∨ op.isShift) (he : env.types.intType? e.type = some R)
    (hR : R = T ∨ op.isShift ∧ R = .i32) (g : Form) :
    ∃ g', rightOperand env op T.keyword e.type (some g) = some g'
      ∧ ∀ {menv : MachineEnv} {frame : Frame} {m m₁ : Machine} {w : Int}, R.contains w →
        FormEnds menv frame g m (.ok (R.value w)) m₁ →
          ∃ c, FormEnds menv frame g' m (.ok (T.value c)) m₁
            ∧ (op.isArithmetic ∧ T.contains w ∧ c = w
              ∨ op.isShift
                ∧ (T.computed.toBits c).toNat % T.computed.width = T.computed.shiftCount w) := by
  have hlow : ∀ c w : Int, c % T.computed.width = w % T.computed.width →
      (T.computed.toBits c).toNat % T.computed.width = T.computed.shiftCount w := by
    intro c w hcw
    have hwidth : T.computed.width = 32 ∨ T.computed.width = 64 := by
      cases T <;> first | exact .inl rfl | exact .inr rfl
    rw [IntType.toBits, BitVec.toNat_ofInt, IntType.shiftCount, ← hcw]
    rcases hwidth with h | h <;> rw [h] <;> omega
  have hkeyword : env.types.valueKeyword? e.type = some R.keyword :=
    TypeTable.valueKeyword?_of_intType? he
  by_cases hextend : op.isShift ∧ T.keyword = .i64 ∧ R.keyword = .i32
  · obtain ⟨hshift, hT, hRkw⟩ := hextend
    refine ⟨.list [.atom "i64.extend_u/i32", g], ?_, ?_⟩
    · simp only [rightOperand, hkeyword, hshift, hT, hRkw, decide_true, Bool.and_self, if_true]
      rfl
    · intro menv frame m m₁ w _ hg
      rw [IntType.value_of_i32 hRkw] at hg
      have hname : Opcode.ofName "i64.extend_u/i32" = .operation .i64 "extend_u/i32" := by decide
      have hend := formEnds_unary hname hg (show unary? .i64 "extend_u/i32" _ = some (.ok
        (.i64 (Value.i32 (UInt32.ofInt w)).word.toUInt64)) from rfl)
      have hword : UInt32.ofInt w = UInt32.ofInt (w % 2 ^ 32) := by
        apply UInt32.toBitVec_inj.1
        rw [toBitVec_uint32_ofInt, toBitVec_uint32_ofInt, ofInt_emod_two_pow]
      rw [Value.word_i32, hword, IntType.uint32_toUInt64_ofInt (Int.emod_nonneg _ (by decide))
        (Int.emod_lt_of_pos _ (by decide)), ← IntType.value_of_i64 hT] at hend
      refine ⟨w % 2 ^ 32, hend, .inr ⟨hshift, hlow _ _ ?_⟩⟩
      have hwidth : T.computed.width = 64 := by
        cases T <;> first | rfl | exact absurd hT (by decide)
      rw [hwidth]
      omega
  · have hright : rightOperand env op T.keyword e.type (some g) = some g := by
      unfold rightOperand
      rw [hkeyword]
      refine if_neg fun h => hextend ?_
      simp only [Bool.and_eq_true, decide_eq_true_eq, Option.some.injEq] at h
      exact ⟨h.1.1, h.1.2, h.2⟩
    have hsame : R.keyword = T.keyword := by
      rcases hR with rfl | ⟨hshift, rfl⟩
      · rfl
      · rcases T.keyword_eq with h | h
        · exact h.symm
        · exact absurd ⟨hshift, h, rfl⟩ hextend
    refine ⟨g, hright, fun {menv frame m m₁ w} hw hg => ⟨w, ?_, ?_⟩⟩
    · rwa [IntType.value_eq_of_keyword hsame] at hg
    · cases hshift : op.isShift with
      | true => exact .inr ⟨rfl, hlow _ _ rfl⟩
      | false =>
        rw [hshift] at hop hR
        obtain rfl : R = T := hR.resolve_right fun h => Bool.false_ne_true h.1
        exact .inl ⟨hop.resolve_right Bool.false_ne_true, hw, rfl⟩

end Eval

/-! ## What is left in the local -/

section correct

variable {env : Env} {T R : IntType} {x e : Expr} {g : Form} {op : BinaryOp}

/-- The code of an operator on a local of a type: it ends in the result of 32 or 64 bits, or in the
trap of a division. -/
theorem formEnds_operator {read g' : Form} {menv : MachineEnv} {frame : Frame} {m m₁ : Machine}
    {u : Value} {v w c : Int} (hv : T.contains v)
    (hread : Eval.FormEnds menv frame read m (.ok u) m) (hu : u.bits = (T.value v).bits)
    (hg : Eval.FormEnds menv frame g' m (.ok (T.value c)) m₁)
    (hop : op.isArithmetic ∧ T.contains w ∧ c = w
      ∨ op.isShift ∧ (T.computed.toBits c).toNat % T.computed.width = T.computed.shiftCount w) :
    match T.computed.binary op v w with
    | .ok n => Eval.FormEnds menv frame (.list [.atom (T.keyword.text ++ "."
        ++ (op.intOp T.signed).name), read, g']) m (.ok (T.value n)) m₁
    | .error code => ∃ t : Trap, t.code = code ∧ Eval.FormEnds menv frame
        (.list [.atom (T.keyword.text ++ "." ++ (op.intOp T.signed).name), read, g']) m
        (.error (.trap t)) m₁ := by
  obtain ⟨done, hdone, hcode⟩ := IntType.binary?_computed hv hop
  rw [← T.binary?_congr hu] at hdone
  have hends := Eval.formEnds_binary (ofName_operation T (op.intOp T.signed)) hread hg hdone
  cases hresult : T.computed.binary op v w with
  | ok n =>
    rw [hresult] at hcode
    cases done with
    | ok r =>
      obtain rfl : r = T.value n := Except.ok.inj hcode
      exact hends
    | error t => cases hcode
  | error code =>
    rw [hresult] at hcode
    cases done with
    | ok r => cases hcode
    | error t => exact ⟨t.plain, Except.error.inj hcode, hends⟩

/-- A compound assignment to a local of an integer type leaves there what its operator computes in
32 or 64 bits, where the assignment of the cast result leaves that number cut down to the type. So
they leave the same value just when the type is not narrow or the number is a value of it. A
division that has no result makes both end in the same trap. -/
theorem compound_assignment_correct {ax : Annot} {name : Bytes} {isParam : Bool} {cop : BinaryOp}
    (hplace : IsPlace env T (.variable ax name isParam)) (hbool : T ≠ .bool)
    (hop : cop.compoundBase? = some op) (he : env.types.intType? e.type = some R)
    (hR : R = T ∨ op.isShift ∧ R = .i32) {j j' : Journal}
    (hg : (expr env true e).run j = (.ok (some g), j')) {a b c d : Annot}
    (hb : env.types.intType? b.type = some T.promoted)
    (hc : env.types.intType? c.type = some T) (want : Bool) :
    ∃ g₁ g₂,
      (expr env want (.binary a cop (.variable ax name isParam) e)).run j = (.ok (some g₁), j')
      ∧ (expr env want (.binary d .assign (.variable ax name isParam)
          (.cast c (.binary b op (.variable ax name isParam) e)))).run j = (.ok (some g₂), j')
      ∧ ∀ (menv : MachineEnv) (frame : Frame) (m m₁ : Machine) (v w : Int), T.contains v →
        R.contains w → env.Holds frame T m v (.variable ax name isParam) →
          Eval.FormEnds menv frame g m (.ok (R.value w)) m₁ →
            match T.computed.binary op v w with
            | .ok n =>
              Eval.FormEnds menv frame g₁ m (.ok (T.value n))
                  (m₁.set (Name.local_ name) (T.value n))
                ∧ Eval.FormEnds menv frame g₂ m (.ok (T.value (T.wrap n)))
                  (m₁.set (Name.local_ name) (T.value (T.wrap n)))
                ∧ (T.value n = T.value (T.wrap n) ↔ T.isWide ∨ T.contains n)
            | .error code => ∃ t : Trap, t.code = code
                ∧ Eval.FormEnds menv frame g₁ m (.error (.trap t)) m₁
                ∧ Eval.FormEnds menv frame g₂ m (.error (.trap t)) m₁ := by
  obtain ⟨hx, hdecl⟩ := hplace
  have hserves : env.Serves T (.variable ax name isParam) _ _ := serves_local hx hdecl
  have hbase := BinaryOp.isArithmetic_or_isShift hop
  have hoperation : op.isOperation := by
    rcases hbase with h | h <;> simp [BinaryOp.isOperation, h]
  obtain ⟨g', hright, hends⟩ := Eval.formEnds_rightOperand (T := T) hbase he hR g
  have hcompound := run_expr_compound hserves hx hop hg a want
  have hbinary : (expr env true (.binary b op (.variable ax name isParam) e)).run j
      = (.ok (some (.app (T.keyword.text ++ "." ++ (op.intOp T.signed).name)
          [some (.words ["get_local", Name.local_ name]), some g'])), j') := by
    rw [← hright]
    exact run_expr_binary_at hoperation hx (hserves.expr true j) hg true
  have hcast := run_expr_cast (e := .binary b op (.variable ax name isParam) e) hbool hc hb
    hbinary true
  rw [hright] at hcompound
  refine ⟨_, _, hcompound, run_expr_assign (hserves.store _) hcast d want, ?_⟩
  intro menv frame m m₁ v w hv hw hholds hw'
  obtain ⟨count, hcount, hlow⟩ := hends hw hw'
  obtain ⟨u, hread, hu⟩ := hserves.read hw'.plain.1 hholds
  have hthere := hholds.writable
  have hresult := formEnds_operator hv hread hu hcount hlow
  cases hvalue : T.computed.binary op v w with
  | ok n =>
    rw [hvalue] at hresult
    have hn : T.computed.contains n :=
      IntType.contains_of_binary hbase (IntType.contains_computed hv) hvalue
    exact ⟨Eval.formEnds_setLocal_ok hresult hthere,
      Eval.formEnds_setLocal_ok (Eval.formEnds_cut hbool hresult) hthere,
      IntType.value_wrap_eq_iff hn⟩
  | error code =>
    rw [hvalue] at hresult
    obtain ⟨t, ht, hstop⟩ := hresult
    exact ⟨t, ht, Eval.formEnds_setLocal_stop hstop hthere,
      Eval.formEnds_setLocal_stop (Eval.formEnds_cut_stop T hstop) hthere⟩

/-- An increment has the code of the assignment of the cast sum, and `x += 1` leaves the same value
just when the type is not narrow or the sum is a value of it. -/
theorem add_one_eq_increment_iff {ax : Annot} {name : Bytes} {isParam : Bool} {l : Literal}
    (hplace : IsPlace env T (.variable ax name isParam)) (hbool : T ≠ .bool) (hl : l.kind = .int)
    (hone : l.int.toInt = 1) {a b c d al : Annot}
    (hal : env.types.intType? al.type = some T) (hb : env.types.intType? b.type = some T.promoted)
    (hc : env.types.intType? c.type = some T) (want : Bool) :
    ∃ g₁ g₂, ∀ j,
      (expr env want (.binary a .addAssign (.variable ax name isParam) (.literal al l))).run j
        = (.ok (some g₁), j)
      ∧ (expr env want (.binary d .assign (.variable ax name isParam)
          (.cast c (.binary b .add (.variable ax name isParam) (.literal al l))))).run j
        = (.ok (some g₂), j)
      ∧ (expr env want (.unary a .preInc (.variable ax name isParam))).run j = (.ok (some g₂), j)
      ∧ ∀ (menv : MachineEnv) (frame : Frame) (m : Machine) (v : Int), m.plain = m →
        T.contains v → env.Holds frame T m v (.variable ax name isParam) →
          Eval.FormEnds menv frame g₁ m (.ok (T.value (v + 1)))
              (m.set (Name.local_ name) (T.value (v + 1)))
            ∧ Eval.FormEnds menv frame g₂ m (.ok (T.value (T.wrap (v + 1))))
              (m.set (Name.local_ name) (T.value (T.wrap (v + 1))))
            ∧ (T.value (v + 1) = T.value (T.wrap (v + 1)) ↔ T.isWide ∨ T.contains (v + 1)) := by
  obtain ⟨hx, hdecl⟩ := hplace
  have hserves : env.Serves T (.variable ax name isParam) _ _ := serves_local hx hdecl
  have hcontains : T.contains 1 := by
    cases T <;> decide
  have hlit := (implements_int hal hl (by rw [hone]; exact hcontains)).code
  rw [hone] at hlit
  have hbase : BinaryOp.addAssign.compoundBase? = some .add := rfl
  have hoperation : BinaryOp.add.isOperation := rfl
  have hcompound := fun j => run_expr_compound hserves hx hbase (hlit true j) a want
  have hadd := fun j => run_expr_binary_at (a := b) hoperation hx (hserves.expr true j)
    (hlit true j) true
  have hassign := fun j => run_expr_assign (hserves.store _)
    (run_expr_cast (e := .binary b .add _ _) hbool hc hb (hadd j) true) d want
  have hincrements : UnaryOp.preInc.isIncrement := rfl
  have hincrement := run_expr_increment hserves hx hbool hincrements a want
  have hprefix : (want && UnaryOp.preInc.isPostfix) = false := Bool.and_false want
  rw [incrementForm, hprefix] at hincrement
  refine ⟨_, _, fun j => ⟨hcompound j, hassign j, hincrement j, ?_⟩⟩
  intro menv frame m v hm hv hholds
  obtain ⟨u, hread, hu⟩ : ∃ u, Eval.FormEnds menv frame _ m (.ok u) m
    ∧ u.bits = (T.value v).bits := hserves.read hm hholds
  have hthere := hholds.writable
  have hsum : binary? T.keyword IntOp.add.name u (T.value 1) = some (.ok (T.value (v + 1))) := by
    rw [T.binary?_congr hu]
    exact T.binary?_add v 1
  have hend := Eval.formEnds_operation (ofName_operation T .add) hread
    (Eval.formEnds_intConst hm hcontains (by decide)) hsum
  exact ⟨Eval.formEnds_setLocal_ok hend hthere,
    Eval.formEnds_setLocal_ok (Eval.formEnds_cut hbool hend) hthere,
    IntType.value_wrap_succ_eq_iff hv⟩

end correct

/-- The number one as a byte. -/
def byteOne : Expr := .literal { type := 4 } { kind := .int, int := 1 }

/-- From 126, `x += 1` and `x = (int8)(x + 1)` leave 127 in the variable. -/
theorem compound_assignment_correct_byte :
    ∃ g₁ g₂,
      (expr byteEnv true (.binary { type := 4 } .addAssign byteVariable byteOne)).run []
        = (.ok (some g₁), [])
      ∧ (expr byteEnv true (.binary { type := 4 } .assign byteVariable
          (.cast { type := 4 } (.binary { type := TypeTable.int32 } .add byteVariable
            byteOne)))).run [] = (.ok (some g₂), [])
      ∧ Eval.FormEnds ⟨{}, 0, fun _ => .error []⟩ ⟨some "$f", 1⟩ g₁ (byteMachine 126)
        (.ok (IntType.i8.value 127)) ((byteMachine 126).set "$x" (IntType.i8.value 127))
      ∧ Eval.FormEnds ⟨{}, 0, fun _ => .error []⟩ ⟨some "$f", 1⟩ g₂ (byteMachine 126)
        (.ok (IntType.i8.value 127)) ((byteMachine 126).set "$x" (IntType.i8.value 127)) := by
  have hone : byteEnv.types.intType? byteOne.type = some .i8 := by decide
  have hop : BinaryOp.addAssign.compoundBase? = some .add := rfl
  obtain ⟨g₁, g₂, hcode₁, hcode₂, hruns⟩ := compound_assignment_correct isPlace_byteVariable
    (by decide) hop hone (.inl rfl) ((implements_int hone rfl (by decide)).code true [])
    (a := { type := 4 }) (b := { type := TypeTable.int32 }) (c := { type := 4 })
    (d := { type := 4 }) (by decide) (by decide) true
  obtain ⟨hends₁, hends₂, -⟩ := hruns ⟨{}, 0, fun _ => .error []⟩ ⟨some "$f", 1⟩ (byteMachine 126)
    (byteMachine 126) 126 1 (by decide) (by decide) (holds_byteMachine 126)
    (Eval.formEnds_intConst (T := .i8) rfl (by decide) (by decide))
  exact ⟨g₁, g₂, hcode₁, hcode₂, hends₁, hends₂⟩

/-- From 127, `x = (int8)(x + 1)` and `++x` leave -128 in the variable, and `x += 1` leaves 128,
which is no byte. -/
theorem compound_assignment_overflows_byte :
    ∃ g₁ g₂,
      (expr byteEnv true (.binary { type := 4 } .addAssign byteVariable byteOne)).run []
        = (.ok (some g₁), [])
      ∧ (expr byteEnv true (.binary { type := 4 } .assign byteVariable
          (.cast { type := 4 } (.binary { type := TypeTable.int32 } .add byteVariable
            byteOne)))).run [] = (.ok (some g₂), [])
      ∧ (expr byteEnv true (.unary { type := 4 } .preInc byteVariable)).run [] = (.ok (some g₂), [])
      ∧ Eval.FormEnds ⟨{}, 0, fun _ => .error []⟩ ⟨some "$f", 1⟩ g₁ (byteMachine 127)
        (.ok (IntType.i8.value 128)) ((byteMachine 127).set "$x" (IntType.i8.value 128))
      ∧ Eval.FormEnds ⟨{}, 0, fun _ => .error []⟩ ⟨some "$f", 1⟩ g₂ (byteMachine 127)
        (.ok (IntType.i8.value (-128))) ((byteMachine 127).set "$x" (IntType.i8.value (-128)))
      ∧ IntType.i8.value 128 ≠ IntType.i8.value (-128) := by
  have hone : byteEnv.types.intType? byteOne.type = some .i8 := by decide
  obtain ⟨g₁, g₂, h⟩ := add_one_eq_increment_iff isPlace_byteVariable (by decide)
    (l := { kind := .int, int := 1 }) rfl (by decide) (a := { type := 4 })
    (b := { type := TypeTable.int32 }) (c := { type := 4 }) (d := { type := 4 }) hone (by decide)
    (by decide) true
  obtain ⟨hcode₁, hcode₂, hcode₃, hruns⟩ := h []
  obtain ⟨hends₁, hends₂, -⟩ := hruns ⟨{}, 0, fun _ => .error []⟩ ⟨some "$f", 1⟩ (byteMachine 127)
    127 rfl (by decide) (holds_byteMachine 127)
  exact ⟨g₁, g₂, hcode₁, hcode₂, hcode₃, hends₁, hends₂, by decide⟩

end WastForge
