import WastForge.Proofs.Integer.Compile

/-!
# Integer expressions compute what they mean

A cast keeps the low bits of a value and repeats the sign of the target type above them. Where the
value of the source type cannot leave the target type, nothing is done.

So every integer expression of a function has code; the code is read back as it was written, and
when it runs in a function whose locals hold the values of its variables, it ends in the value that
the expression means, or in a trap where the expression has no value.
-/

namespace WastForge

/-! ## The code of casts -/

open Emit

variable {env : Env} {S T : IntType}

/-- Whether all values of one type are values of another, as far as widths and signs tell. -/
def IntType.keeps (S T : IntType) : Bool :=
  (S.tableWidth < T.tableWidth && (!S.signed || T.signed)) ||
    (S.tableWidth = T.tableWidth && S.signed = T.signed)

theorem IntType.contains_of_keeps {v : Int} (hT : T ≠ .bool) (h : S.keeps T) (hv : S.contains v) :
    T.contains v := by
  have hbounds : T.least ≤ S.least ∧ S.bound ≤ T.bound := by
    cases S <;> cases T <;> first | decide | exact absurd h (by decide) | exact absurd rfl hT
  exact ⟨Int.le_trans hbounds.1 hv.1, Int.lt_of_lt_of_le hv.2 hbounds.2⟩

/-- What cutting a value down becomes for a narrow type. -/
theorem narrow_eq {tt : TypeTable} {source target : TypeId} (hS : tt.intType? source = some S)
    (hT : tt.intType? target = some T) (hwide : T.isWide = false) (x : Option Form) :
    Instruction.narrow tt x source target false =
      if S.keeps T then x
      else if T.signed then
        some (.app "i32.shr_s" [some (.app "i32.shl" [x,
          some (Instruction.intConst .i32 (32 - (T.tableWidth.toNat : Int)))]),
          some (Instruction.intConst .i32 (32 - (T.tableWidth.toNat : Int)))])
      else some (.app "i32.and" [x,
        some (Instruction.intConst .i32 (2 ^ T.tableWidth.toNat - 1 : Nat))]) := by
  have hsmall : (decide (T.tableWidth = 0) || decide (32 ≤ T.tableWidth)) = false := by
    cases T <;> first | rfl | exact absurd hwide (by decide)
  simp only [Instruction.narrow, TypeTable.widthOf_of_intType? hS, TypeTable.widthOf_of_intType? hT,
    TypeTable.isSigned_of_intType? hS, TypeTable.isSigned_of_intType? hT,
    TypeTable.isFloat_of_intType? hT, TypeTable.isIntegral_of_intType? hS, hsmall, IntType.keeps]
  rfl

theorem narrow_eq_self {tt : TypeTable} {source target : TypeId}
    (hT : tt.intType? target = some T) (hwide : T.isWide) (x : Option Form) :
    Instruction.narrow tt x source target false = x := by
  have hbig : (decide (T.tableWidth = 0) || decide (32 ≤ T.tableWidth)) = true := by
    cases T <;> first | rfl | exact absurd hwide (by decide)
  simp [Instruction.narrow, TypeTable.widthOf_of_intType? hT, hbig]

/-- A number as the machine holds it in 32 bits, whatever type it has. -/
def held32 (n : Int) : Value := .i32 (UInt32.ofInt n)

theorem word_held32 (n : Int) : (held32 n).word = UInt32.ofInt n := Value.word_i32 _

theorem isReadable_const32 (n : Int) : (Instruction.intConst .i32 n).isReadable :=
  isReadable_intConst .i32 n

section Answers

variable {menv : MachineEnv} {frame : Frame} {locals : Locals} {g : Form}
  {mx : Except TrapCode Int}

theorem answers_const32 {n : Int} (hn : IntType.i32.contains n) :
    Eval.Answers menv frame locals (Instruction.intConst .i32 n) (.ok (held32 n)) :=
  answers_intConst menv frame locals hn (by have h : n < 2 ^ 31 := hn.2; omega)

theorem answers_mask {k : Nat} (hk : k = 8 ∨ k = 16)
    (hg : Eval.Answers menv frame locals g (mx.map held32)) :
    Eval.Answers menv frame locals
      (.list [.atom "i32.and", g, Instruction.intConst .i32 (2 ^ k - 1 : Nat)])
      (mx.map fun n => held32 (n % 2 ^ k)) := by
  have hhead : Opcode.ofName "i32.and" = .operation .i32 "and" := by decide
  have hfit : IntType.i32.contains (2 ^ k - 1 : Nat) := by
    rcases hk with rfl | rfl <;> decide
  have h := Eval.answers_binary (fun v w => IntOp.and.on32 v.word w.word) hhead hg
    (fun _ _ => answers_const32 hfit) fun _ _ _ _ => rfl
  cases mx with
  | error c => exact h
  | ok n =>
    refine cast (congrArg _ (congrArg Except.ok ?_)) h
    show Value.i32 ((held32 n).word &&& (held32 _).word) = held32 (n % 2 ^ k)
    rw [word_held32, word_held32, IntType.and_mask n hk, held32]

theorem answers_signExtend {k c : Nat} (hk : k = 8 ∧ c = 24 ∨ k = 16 ∧ c = 16)
    (hg : Eval.Answers menv frame locals g (mx.map held32)) :
    Eval.Answers menv frame locals
      (.list [.atom "i32.shr_s", .list [.atom "i32.shl", g, Instruction.intConst .i32 c],
        Instruction.intConst .i32 c])
      (mx.map fun n => held32 (n.bmod (2 ^ k))) := by
  have hshl : Opcode.ofName "i32.shl" = .operation .i32 "shl" := by decide
  have hshr : Opcode.ofName "i32.shr_s" = .operation .i32 "shr_s" := by decide
  have hfit : IntType.i32.contains c := by
    rcases hk with ⟨-, rfl⟩ | ⟨-, rfl⟩ <;> decide
  have hinner := Eval.answers_binary (fun v w => IntOp.shl.on32 v.word w.word) hshl hg
    (fun _ _ => answers_const32 hfit) fun _ _ _ _ => rfl
  have houter := Eval.answers_binary (fun v w => IntOp.shrS.on32 v.word w.word) hshr hinner
    (fun _ _ => answers_const32 hfit) fun _ _ _ _ => rfl
  cases mx with
  | error t => exact houter
  | ok n =>
    refine cast (congrArg _ (congrArg Except.ok ?_)) houter
    show Value.i32 (((Value.i32 ((held32 n).word <<< ((held32 c).word &&& 31))).word.toInt32 >>>
      ((held32 c).word &&& 31).toInt32).toUInt32) = held32 (n.bmod (2 ^ k))
    rw [Value.word_i32, word_held32, word_held32, IntType.shr_shl n hk, held32]

end Answers

/-- Cutting a value down to a type held in 32 bits. -/
theorem answers_narrow {tt : TypeTable} {source target : TypeId} {g : Form}
    (hS : tt.intType? source = some S) (hT : tt.intType? target = some T)
    (hkw : T.keyword = .i32) (hbool : T ≠ .bool) (hg : g.isReadable) :
    ∃ g', Instruction.narrow tt (some g) source target false = some g' ∧ g'.isReadable ∧
      ∀ (menv : MachineEnv) (frame : Frame) (locals : Locals) (mx : Except TrapCode Int),
        (∀ n, mx = .ok n → S.contains n) →
          Eval.Answers menv frame locals g (mx.map held32) →
            Eval.Answers menv frame locals g' (mx.map fun n => T.value (T.wrap n)) := by
  cases hwide : T.isWide with
  | true =>
    refine ⟨g, narrow_eq_self hT hwide _, hg, ?_⟩
    intro menv frame locals mx _ hans
    have hval : (fun n => T.value (T.wrap n)) = held32 := by
      funext n
      rw [IntType.value_wrap hwide, IntType.value_of_i32 hkw, held32]
    rwa [hval]
  | false =>
    rw [narrow_eq hS hT hwide]
    cases hkeeps : S.keeps T with
    | true =>
      refine ⟨g, by simp, hg, ?_⟩
      intro menv frame locals mx hcontains hans
      cases mx with
      | error c => exact hans
      | ok n =>
        have hn := IntType.contains_of_keeps hbool hkeeps (hcontains n rfl)
        refine cast (congrArg _ (congrArg Except.ok ?_)) hans
        show held32 n = T.value (T.wrap n)
        rw [IntType.wrap_of_contains hn, IntType.value_of_i32 hkw, held32]
    | false =>
      have hval : ∀ n, T.value (T.wrap n) = held32 (T.wrap n) :=
        fun n => IntType.value_of_i32 hkw (T.wrap n)
      simp only [hval, Bool.false_eq_true, if_false]
      cases hs : T.signed with
      | true =>
        obtain ⟨c, hc, hk⟩ : ∃ c : Nat, 32 - (T.tableWidth.toNat : Int) = c ∧
            (T.width = 8 ∧ c = 24 ∨ T.width = 16 ∧ c = 16) := by
          cases T with
          | i8 => exact ⟨24, rfl, .inl ⟨rfl, rfl⟩⟩
          | i16 => exact ⟨16, rfl, .inr ⟨rfl, rfl⟩⟩
          | _ => first | exact absurd hs Bool.false_ne_true | exact absurd hwide (by decide)
        refine ⟨_, if_pos rfl, ?_, ?_⟩
        · refine isReadable_app (by decide) ?_
          simp only [List.filterMap, id, List.mem_cons, List.not_mem_nil, or_false]
          rintro f (rfl | rfl)
          · exact isReadable_app (by decide) (by simp [hg, isReadable_const32])
          · exact isReadable_const32 _
        · intro menv frame locals mx _ hans
          rw [hc]
          have h := answers_signExtend hk hans
          simp only [IntType.wrap, hs, if_true]
          exact h
      | false =>
        have hk : T.tableWidth.toNat = T.width ∧ (T.width = 8 ∨ T.width = 16) := by
          cases T with
          | u8 => exact ⟨rfl, .inl rfl⟩
          | u16 | char => exact ⟨rfl, .inr rfl⟩
          | bool => exact absurd rfl hbool
          | _ => first | exact absurd hs (by decide) | exact absurd hwide (by decide)
        refine ⟨_, if_neg (by decide), ?_, ?_⟩
        · exact isReadable_app (by decide) (by simp [hg, isReadable_const32])
        · intro menv frame locals mx _ hans
          rw [hk.1]
          have h := answers_mask hk.2 hans
          simp only [IntType.wrap, hs, Bool.false_eq_true, if_false]
          exact h

/-- Widening a value to 64 bits. -/
theorem answers_extend {tt : TypeTable} {source : TypeId} {g : Form}
    (hS : tt.intType? source = some S) (hkS : S.keyword = .i32) (hkT : T.keyword = .i64)
    (hwide : T.isWide) (hg : g.isReadable) :
    (Form.app ("i64.extend_" ++ Instruction.signLetter tt source ++ "/i32") [some g]).isReadable ∧
      ∀ (menv : MachineEnv) (frame : Frame) (locals : Locals) (mx : Except TrapCode Int),
        (∀ n, mx = .ok n → S.contains n) →
          Eval.Answers menv frame locals g (mx.map S.value) →
            Eval.Answers menv frame locals
              (.app ("i64.extend_" ++ Instruction.signLetter tt source ++ "/i32") [some g])
              (mx.map fun n => T.value (T.wrap n)) := by
  have hletter : Instruction.signLetter tt source = (if S.signed then "s" else "u" : Bytes) := by
    rw [Instruction.signLetter, TypeTable.isSigned_of_intType? hS]
  rw [hletter]
  refine ⟨isReadable_app (by cases S.signed <;> decide) (by simp [hg]), ?_⟩
  intro menv frame locals mx hcontains hans
  have hhead : Opcode.ofName ("i64.extend_" ++ (if S.signed then "s" else "u" : Bytes) ++ "/i32") =
      .operation .i64 ("extend_" ++ (if S.signed then "s" else "u" : Bytes) ++ "/i32") := by
    cases S.signed <;> decide
  have hop : ∀ n, mx = .ok n →
      unary? .i64 ("extend_" ++ (if S.signed then "s" else "u" : Bytes) ++ "/i32") (S.value n) =
        some (.ok (T.value (T.wrap n))) := by
    intro n hn
    rw [IntType.extend_value hkS (hcontains n hn), IntType.value_wrap hwide,
      IntType.value_of_i64 hkT]
  cases mx with
  | error c =>
    refine Eval.answers_unary (fun _ => .error default) hhead hans ?_
    intro v hv
    simp [Except.map] at hv
  | ok n =>
    refine Eval.answers_unary (fun _ => .ok (T.value (T.wrap n))) hhead hans ?_
    intro v hv
    obtain rfl : S.value n = v := by simpa [Except.map] using hv
    exact hop n rfl

/-- Cutting a value of 64 bits down to 32. -/
theorem answers_wrap {menv : MachineEnv} {frame : Frame} {locals : Locals} {g : Form}
    {mx : Except TrapCode Int} (hkS : S.keyword = .i64)
    (hans : Eval.Answers menv frame locals g (mx.map S.value)) :
    Eval.Answers menv frame locals (.app "i32.wrap/i64" [some g]) (mx.map held32) := by
  have hhead : Opcode.ofName "i32.wrap/i64" = .operation .i32 "wrap/i64" := by decide
  have h := Eval.answers_unary (fun v => .ok (.i32 v.word)) hhead hans fun _ _ => rfl
  cases mx with
  | error c => exact h
  | ok n =>
    have hval := IntType.wrap_value hkS n
    refine cast (congrArg _ (congrArg Except.ok ?_)) h
    have hword : some (Except.ok (.i32 (S.value n).word) : Except Trap Value) =
        some (.ok (.i32 (UInt32.ofInt n))) := hval
    simpa [held32] using hword

theorem implements_cast {a : Annot} {x : Expr} {f : Form}
    (ha : env.types.intType? a.type = some T) (hbool : T ≠ .bool)
    (htype : env.types.intType? x.type = some S) (hx : Implements env x S f) :
    ∃ f', Implements env (.cast a x) T f' := by
  have hmeaning : ∀ vars, (Expr.cast a x).meaning env.types vars =
      (x.meaning env.types vars).map T.wrap := by
    intro vars
    have hT : (Expr.cast a x).intType env.types = T := by
      rw [Expr.intType, Expr.type, Expr.annot, ha, Option.getD_some]
    rw [Expr.meaning, hT]
    cases x.meaning env.types vars <;> rfl
  have hcontains : ∀ {vars : Bytes → Int} {locals : Locals} {v : Int}, HoldVars env vars locals →
      (Expr.cast a x).meaning env.types vars = .ok v → T.contains v := by
    intro vars locals v _ hv
    rw [hmeaning] at hv
    cases hn : x.meaning env.types vars with
    | error c => simp [hn, Except.map] at hv
    | ok n =>
      obtain rfl : T.wrap n = v := by simpa [hn, Except.map] using hv
      exact T.contains_wrap n
  have hmap : ∀ mx : Except TrapCode Int, (mx.map T.wrap).map T.value =
      mx.map fun n => T.value (T.wrap n) := by
    intro mx
    cases mx <;> rfl
  -- It is enough to find the form that the conversion makes of the operand.
  have hform : ∀ f', (x.type = a.type ∧ f' = f ∨ x.type ≠ a.type ∧
        Instruction.cast env.types (some f) x.type a.type S.keyword T.keyword = some f') →
      f'.isReadable →
      (∀ (menv : MachineEnv) (frame : Frame) (locals : Locals) (mx : Except TrapCode Int),
        (∀ n, mx = .ok n → S.contains n) → Eval.Answers menv frame locals f (mx.map S.value) →
          Eval.Answers menv frame locals f' (mx.map fun n => T.value (T.wrap n))) →
      Implements env (.cast a x) T f' := by
    intro f' hcast hread hans
    refine ⟨hread, ?_, hcontains, ?_⟩
    · intro want j
      rw [expr, lookAt_of_not_missing (not_missing_of_run (hx.code true j)), pure_bind,
        Work.run_bind (hx.code true j)]
      rcases hcast with ⟨heq, rfl⟩ | ⟨hne, hcast⟩
      · rw [if_pos heq]
        rfl
      · rw [if_neg hne, TypeTable.valueKeyword?_of_intType? htype,
          TypeTable.valueKeyword?_of_intType? ha]
        show (pure (Instruction.cast env.types (some f) x.type a.type S.keyword T.keyword) :
          Work (Option Form)).run j = _
        rw [hcast]
        rfl
    · intro menv frame vars locals hvars hstay
      rw [hmeaning, hmap]
      exact hans menv frame locals _ (fun n hn => hx.contains hvars hn)
        (hx.answers menv frame hvars hstay)
  by_cases heq : x.type = a.type
  · refine ⟨f, hform f (.inl ⟨heq, rfl⟩) hx.readable ?_⟩
    obtain rfl : S = T := by
      rw [heq, ha] at htype
      simpa using htype.symm
    intro menv frame locals mx hmx hans
    cases mx with
    | error c => exact hans
    | ok n =>
      refine cast (congrArg _ (congrArg Except.ok ?_)) hans
      show S.value n = S.value (S.wrap n)
      rw [IntType.wrap_of_contains (hmx n rfl)]
  · have hwideT : T.keyword = .i64 → T.isWide := by
      intro h
      cases T <;> first | rfl | exact absurd h (by decide)
    rcases S.keyword_eq with hkS | hkS <;> rcases T.keyword_eq with hkT | hkT
    · obtain ⟨f', hnarrow, hread, hans⟩ := answers_narrow htype ha hkT hbool hx.readable
      refine ⟨f', hform f' (.inr ⟨heq, ?_⟩) hread ?_⟩
      · simpa [Instruction.cast, Instruction.convert, hkS, hkT] using hnarrow
      · intro menv frame locals mx hmx hf
        refine hans menv frame locals mx hmx ?_
        rwa [show S.value = held32 from funext (IntType.value_of_i32 hkS)] at hf
    · obtain ⟨hread, hans⟩ := answers_extend (T := T) htype hkS hkT (hwideT hkT) hx.readable
      refine ⟨_, hform _ (.inr ⟨heq, ?_⟩) hread hans⟩
      simp [Instruction.cast, Instruction.convert, hkS, hkT]
    · have hread : (Form.app "i32.wrap/i64" [some f]).isReadable :=
        isReadable_app (by decide) (by simp [hx.readable])
      obtain ⟨f', hnarrow, hread', hans⟩ := answers_narrow htype ha hkT hbool hread
      refine ⟨f', hform f' (.inr ⟨heq, ?_⟩) hread' ?_⟩
      · simpa [Instruction.cast, Instruction.convert, hkS, hkT] using hnarrow
      · intro menv frame locals mx hmx hf
        exact hans menv frame locals mx hmx (answers_wrap hkS hf)
    · refine ⟨f, hform f (.inr ⟨heq, ?_⟩) hx.readable ?_⟩
      · simp [Instruction.cast, Instruction.convert, hkS, hkT]
      · intro menv frame locals mx _ hf
        have hval : S.value = fun n => T.value (T.wrap n) := by
          funext n
          rw [IntType.value_wrap (hwideT hkT), IntType.value_of_i64 hkS, IntType.value_of_i64 hkT]
        rwa [hval] at hf

end WastForge

namespace WastForge

/-! ## The code of integer expressions -/

open Emit

variable {env : Env}

/-- Every integer expression is implemented by its code. -/
theorem exists_implements {e : Expr} {T : IntType} (h : IsInteger env e T) :
    ∃ f, Implements env e T f := by
  induction h with
  | int ha hl hfit => exact ⟨_, implements_int ha hl hfit⟩
  | bool ha hl => exact ⟨_, implements_bool hl⟩
  | char ha hl hfit => exact ⟨_, implements_char hl hfit⟩
  | var ha hdecl => exact ⟨_, implements_variable ha hdecl⟩
  | arithmetic ha hop hT hx hy ihx ihy =>
    obtain ⟨f, hf⟩ := ihx
    obtain ⟨g, hg⟩ := ihy
    exact ⟨_, implements_arithmetic hop hT hx.intType?_type hf hg⟩
  | comparison ha hop hT hx hy ihx ihy =>
    obtain ⟨f, hf⟩ := ihx
    obtain ⟨g, hg⟩ := ihy
    exact ⟨_, implements_comparison hop hT hx.intType?_type hf hg⟩
  | shift ha hop hT hx hy ihx ihy =>
    obtain ⟨f, hf⟩ := ihx
    obtain ⟨g, hg⟩ := ihy
    exact implements_shift hop hT hx.intType?_type hy.intType?_type hf hg
  | logical ha hop hx hy ihx ihy =>
    obtain ⟨f, hf⟩ := ihx
    obtain ⟨g, hg⟩ := ihy
    rcases hop with rfl | rfl
    · exact ⟨_, implements_and hf hg⟩
    · exact ⟨_, implements_or hf hg⟩
  | sign ha hop hST hx ihx =>
    obtain ⟨f, hf⟩ := ihx
    exact ⟨_, implements_sign ha hop hST hx.intType?_type hf⟩
  | plus ha hST hx ihx =>
    obtain ⟨f, hf⟩ := ihx
    exact ⟨f, implements_plus ha hST hx.intType?_type hf⟩
  | not ha hx ihx =>
    obtain ⟨f, hf⟩ := ihx
    exact ⟨_, implements_not ha hx.intType?_type hf⟩
  | conditional ha hc hx hy ihc ihx ihy =>
    obtain ⟨c, hc⟩ := ihc
    obtain ⟨f, hf⟩ := ihx
    obtain ⟨g, hg⟩ := ihy
    exact ⟨_, implements_conditional hc hf hg⟩
  | cast ha hbool hx ihx =>
    obtain ⟨f, hf⟩ := ihx
    exact implements_cast ha hbool hx.intType?_type hf

namespace IntType

theorem binary_eq_error {T : IntType} {op : BinaryOp} {x y : Int} {c : TrapCode}
    (h : T.binary op x y = .error c) : c = .divideByZero ∨ c = .overflow := by
  cases op with
  | div =>
    simp only [binary, quotient] at h
    split at h
    · simp_all
    · split at h
      · simp at h
      · simp_all
  | rem =>
    simp only [binary, remainder] at h
    split at h
    · simp_all
    · simp at h
  | _ => simp [binary] at h

end IntType

theorem bind_eq_error {α β : Type} {x : Except TrapCode α} {k : α → Except TrapCode β}
    {c : TrapCode} (h : (x >>= k) = .error c) :
    x = .error c ∨ ∃ a, x = .ok a ∧ k a = .error c := by
  cases x with
  | error t =>
    obtain rfl : t = c := by simpa [bind, Except.bind] using h
    exact .inl rfl
  | ok a => exact .inr ⟨a, rfl, h⟩

/-- Only divisions leave an expression without a value. -/
theorem Expr.meaning_eq_error {tt : TypeTable} {vars : Bytes → Int} {e : Expr} {c : TrapCode}
    (h : e.meaning tt vars = .error c) : c = .divideByZero ∨ c = .overflow := by
  fun_induction Expr.meaning tt vars e with
  | case1 | case2 | case9 => simp at h
  | case3 a x y ihx ihy =>
    obtain h | ⟨n, -, h⟩ := bind_eq_error h
    · exact ihx h
    · split at h
      · simp at h
      · exact ihy h
  | case4 a x y ihx ihy =>
    obtain h | ⟨n, -, h⟩ := bind_eq_error h
    · exact ihx h
    · split at h
      · exact ihy h
      · simp at h
  | case5 a op x y hand hor ihx ihy =>
    obtain h | ⟨n, -, h⟩ := bind_eq_error h
    · exact ihx h
    · obtain h | ⟨k, -, h⟩ := bind_eq_error h
      · exact ihy h
      · exact IntType.binary_eq_error h
  | case6 a op x ih | case7 a x ih =>
    obtain h | ⟨n, -, h⟩ := bind_eq_error h
    · exact ih h
    · simp [pure, Except.pure] at h
  | case8 a c x y ihc ihy ihx =>
    obtain h | ⟨n, -, h⟩ := bind_eq_error h
    · exact ihc h
    · split at h
      · exact ihy h
      · exact ihx h

/-- The code of a sign or complement whose operand has a value and leaves no type ends in the number
that the operator makes of it. -/
theorem Implements.ends_number {S T : IntType} {op : UnaryOp} {x : Expr} {g : Form}
    (hg : Implements env x S g) (hop : op = .neg ∨ op = .bitNot)
    (hST : S = T ∨ S.isWide = false ∧ T = .i32)
    {vars : Bytes → Int} {v : Int} (menv : MachineEnv) (frame : Frame) {locals : Locals}
    (hvars : HoldVars env vars locals) (hstay : x.SignsStay env.types vars)
    (hv : x.meaning env.types vars = .ok v) :
    Eval.Answers menv frame locals (signForm S.keyword op g) (.ok (T.value (op.number v)))
      ∧ (T.value (op.number v) = T.value (T.unary op v) ↔ T.isWide ∨ T.contains (op.number v)) := by
  obtain ⟨hkw, hcontains⟩ := contains_of_promoted hST (hg.contains hvars hv)
  have h := answers_sign hop (hg.answers menv frame hvars hstay)
  rw [hv] at h
  refine ⟨?_, IntType.value_number_eq_iff hop hcontains⟩
  rw [← IntType.value_eq_of_keyword hkw]
  exact h

/-- An operator with one operand ends in the value that it means just if the number that it makes
of its operand is held exactly. -/
theorem exists_answers_unary {T : IntType} {a : Annot} {op : UnaryOp} {x : Expr} {f : Form}
    (h : IsInteger env (.unary a op x) T)
    (hcode : ∀ want j, (expr env want (.unary a op x)).run j = (.ok (some f), j))
    {vars : Bytes → Int} {v : Int} (menv : MachineEnv) (frame : Frame) {locals : Locals}
    (hvars : HoldVars env vars locals) (hstay : x.SignsStay env.types vars)
    (hv : x.meaning env.types vars = .ok v) :
    ∃ r, Eval.Answers menv frame locals f (.ok r)
      ∧ (r = T.value (T.unary op v) ↔ T.isWide ∨ T.contains (op.number v)) := by
  have htype : env.types.intType? a.type = some T := h.intType?_type
  have hsame : ∀ {g}, Implements env (.unary a op x) T g → g = f := by
    intro g hg
    exact Option.some.inj (Except.ok.inj (Prod.ext_iff.mp ((hg.code true []).symm.trans
      (hcode true []))).1)
  have hends : ∀ {g}, Implements env (.unary a op x) T g → T.contains (op.number v) →
      ∃ r, Eval.Answers menv frame locals f (.ok r)
        ∧ (r = T.value (T.unary op v) ↔ T.isWide ∨ T.contains (op.number v)) := by
    intro g hg hcontains
    obtain rfl := hsame hg
    have hstays : (Expr.unary a op x).SignsStay env.types vars := by
      refine ⟨hstay, fun n hn => ?_⟩
      obtain rfl : v = n := by simpa [hv] using hn
      rw [intType_eq htype]
      exact .inr hcontains
    have hans := hg.answers menv frame hvars hstays
    rw [meaning_unary htype, hv] at hans
    exact ⟨_, hans, iff_of_true rfl (.inr hcontains)⟩
  cases h with
  | sign ha hop hST hx =>
    obtain ⟨g, hg⟩ := exists_implements hx
    obtain rfl := hsame (implements_sign ha hop hST hx.intType?_type hg)
    exact ⟨_, hg.ends_number hop hST menv frame hvars hstay hv⟩
  | plus ha hST hx =>
    obtain ⟨g, hg⟩ := exists_implements hx
    exact hends (implements_plus ha hST hx.intType?_type hg)
      (contains_of_promoted hST (hg.contains hvars hv)).2
  | not ha hx =>
    obtain ⟨g, hg⟩ := exists_implements hx
    exact hends (implements_not ha hx.intType?_type hg) (contains_truth _)

/-- An integer expression computes what it means as long as no sign or complement in it leaves a
type of less than 32 bits. It has code without a warning; the code is read back as it was written;
and in every frame whose locals hold the values of the variables, its evaluation changes nothing but
the count of steps, takes no more steps than the code has lists, and ends in the bits of the value
that the expression means, or in a trap exactly where a division has no value. A first operator that
leaves its type does not have these bits: it ends in a number that nothing has cut down. -/
theorem integer_expression_correct {e : Expr} {T : IntType} (h : IsInteger env e T) :
    ∃ f : Form,
      (∀ want j, (expr env want e).run j = (.ok (some f), j)) ∧
      (∃ n, Script.read f.render = .ok [n] ∧ n.form = f) ∧
      ∀ (menv : MachineEnv) (frame : Frame) (vars : Bytes → Int) (fuel : Nat) (n : SourceForm)
        (m : Machine), n.form = f → HoldVars env vars m.locals →
          m.steps + f.size ≤ menv.maxSteps → f.size ≤ fuel →
            (e.SignsStay env.types vars →
              ∃ s, m.steps ≤ s ∧ s ≤ m.steps + f.size ∧
                match e.meaning env.types vars with
                | .ok v => T.contains v ∧
                    Eval.run menv fuel frame n m = .ok (T.value v) { m with steps := s }
                | .error c => (c = .divideByZero ∨ c = .overflow) ∧ ∃ t : Trap, t.code = c ∧
                    Eval.run menv fuel frame n m = .error (.trap t) { m with steps := s })
            ∧ ∀ (a : Annot) (op : UnaryOp) (x : Expr) (v : Int), e = .unary a op x →
              x.SignsStay env.types vars → x.meaning env.types vars = .ok v →
                ∃ s r, m.steps ≤ s ∧ s ≤ m.steps + f.size
                  ∧ Eval.run menv fuel frame n m = .ok r { m with steps := s }
                  ∧ (r = T.value (T.unary op v) ↔ T.isWide ∨ T.contains (op.number v)) := by
  obtain ⟨f, hf⟩ := exists_implements h
  refine ⟨f, hf.code, Script.read_render f hf.readable, ?_⟩
  intro menv frame vars fuel n m hn hvars hsteps hfuel
  refine ⟨fun hstay => ?_, ?_⟩
  · obtain ⟨s, hlo, hhi, hrun⟩ :=
      hf.answers menv frame hvars hstay fuel n hn hfuel m rfl hsteps
    refine ⟨s, hlo, hhi, ?_⟩
    cases hmeaning : e.meaning env.types vars with
    | ok v =>
      rw [hmeaning] at hrun
      exact ⟨hf.contains hvars hmeaning, hrun⟩
    | error c =>
      rw [hmeaning] at hrun
      exact ⟨Expr.meaning_eq_error hmeaning, hrun⟩
  · rintro a op x v rfl hstay hv
    obtain ⟨r, hans, hr⟩ := exists_answers_unary h hf.code menv frame hvars hstay hv
    obtain ⟨s, hlo, hhi, hrun⟩ := hans fuel n hn hfuel m rfl hsteps
    exact ⟨s, r, hlo, hhi, hrun, hr⟩

/-- A function with a variable `x` of 64 bits and a variable `n` of 32 bits. -/
def shiftEnv : Env :=
  { program := {}, arena := default,
    locals := some [("x", TypeTable.int64), ("n", TypeTable.int32)] }

/-- The cast `(int8) (x >> n)`. -/
def shiftExpr : Expr :=
  .cast { type := 4 } (.binary { type := TypeTable.int64 } .shr
    (.variable { type := TypeTable.int64 } "x" true)
    (.variable { type := TypeTable.int32 } "n" true))

/-- The locals with `x = -2 ^ 40 - 1` and `n = 97`. -/
def shiftLocals : Locals := [("$x", .i64 (UInt64.ofInt (-2 ^ 40 - 1))), ("$n", .i32 97)]

/-- The code of `(int8) (x >> n)` runs for `x = -2 ^ 40 - 1` and a count beyond the width; the
shifted number leaves the byte and comes back with another sign. -/
theorem integer_expression_correct_shift :
    ∃ (f : Form) (n : SourceForm) (s : Nat),
      (expr shiftEnv true shiftExpr).run [] = (.ok (some f), []) ∧
      Script.read f.render = .ok [n] ∧
      Eval.run ⟨{}, f.size, fun _ => .error []⟩ f.size ⟨some "$f", 1⟩ n { locals := shiftLocals } =
        .ok (.i32 127) { locals := shiftLocals, steps := s } := by
  have htyped : IsInteger shiftEnv shiftExpr .i8 :=
    .cast (by decide) (by decide) (.shift (T := .i64) (by decide) rfl rfl
      (.var (by decide) (by decide)) (.var (by decide) (by decide)))
  have hvars : HoldVars shiftEnv (fun name => if name = "x" then -2 ^ 40 - 1 else 97)
      shiftLocals := by
    intro name t T hdecl hT
    have hname : name = "x" ∧ t = TypeTable.int64 ∨ name = "n" ∧ t = TypeTable.int32 := by
      by_cases hx : name = "x"
      · subst hx
        exact .inl ⟨rfl, Option.some.inj (hdecl.symm.trans (by decide))⟩
      · by_cases hn : name = "n"
        · subst hn
          exact .inr ⟨rfl, Option.some.inj (hdecl.symm.trans (by decide))⟩
        · simp [Env.local?, shiftEnv, List.lookup, beq_eq_false_iff_ne.mpr hx,
            beq_eq_false_iff_ne.mpr hn] at hdecl
    rcases hname with ⟨rfl, rfl⟩ | ⟨rfl, rfl⟩
    · obtain rfl : T = .i64 := Option.some.inj (hT.symm.trans (by decide))
      decide
    · obtain rfl : T = .i32 := Option.some.inj (hT.symm.trans (by decide))
      decide
  obtain ⟨f, hcode, ⟨n, hread, hn⟩, hrun⟩ := integer_expression_correct htyped
  obtain ⟨s, -, -, hend⟩ := (hrun ⟨{}, f.size, fun _ => .error []⟩ ⟨some "$f", 1⟩ _ f.size n
    { locals := shiftLocals } hn hvars (by simp) (Nat.le_refl _)).1 ⟨trivial, fun _ _ => trivial⟩
  exact ⟨f, n, s, hcode true [], hread, hend.2⟩

/-- A function without variables. -/
def bareEnv : Env := { program := {}, arena := default, locals := some [] }

/-- The least byte. -/
def leastByte : Expr := .literal { type := 4 } { kind := .int, int := -128 }

theorem isInteger_leastByte : IsInteger bareEnv leastByte .i8 :=
  .int (by decide) rfl (by decide)

/-- The negation of the least byte is the least byte, and the code of the negation ends in 128,
which is no byte. -/
theorem negation_leaves_byte :
    IsInteger bareEnv (.unary { type := 4 } .neg leastByte) .i8
      ∧ (Expr.unary { type := 4 } .neg leastByte).meaning bareEnv.types (fun _ => 0) = .ok (-128)
      ∧ ∃ (f : Form) (n : SourceForm) (s : Nat),
        (expr bareEnv true (.unary { type := 4 } .neg leastByte)).run [] = (.ok (some f), [])
        ∧ Script.read f.render = .ok [n]
        ∧ Eval.run ⟨{}, 3, fun _ => .error []⟩ 3 ⟨some "$f", 1⟩ n {} =
          .ok (.i32 128) { steps := s }
        ∧ Value.i32 128 ≠ IntType.i8.value (-128) := by
  have hleast : Implements bareEnv leastByte .i8
      (Instruction.intConst IntType.i8.keyword (-128)) :=
    implements_int (by decide) rfl (by decide)
  have hsign : Implements bareEnv (.unary { type := 4 } .neg leastByte) .i8 _ :=
    implements_sign (by decide) (.inl rfl) (.inl rfl) (by decide) hleast
  have hvars : HoldVars bareEnv (fun _ => 0) [] := by
    intro name t T hdecl
    simp [Env.local?, bareEnv] at hdecl
  obtain ⟨n, hread, hn⟩ := Script.read_render _ hsign.readable
  have hv : leastByte.meaning bareEnv.types (fun _ => 0) = .ok (-128) := by decide
  obtain ⟨hends, -⟩ := hleast.ends_number (.inl rfl) (.inl rfl) ⟨{}, 3, fun _ => .error []⟩
    ⟨some "$f", 1⟩ hvars trivial hv
  obtain ⟨s, -, -, hrun⟩ := hends 3 n hn (by decide) {} rfl (by decide)
  exact ⟨.sign (by decide) (.inl rfl) (.inl rfl) isInteger_leastByte, by decide, _, n, s,
    hsign.code true [], hread, hrun, by decide⟩

end WastForge
