import WastForge.Emit.Expr
import WastForge.Proofs.Integer.Held
import WastForge.Proofs.Machine.Yield
import WastForge.Proofs.Text.Word

/-!
# The code of integer expressions

The form of an integer expression ends in the value that the expression means, or traps for the
reason that the expression has no value.
-/

namespace WastForge

theorem Work.run_bind {α β : Type} {x : Work α} {k : α → Work β} {j j' : Journal} {a : α}
    (h : x.run j = (.ok a, j')) : (x >>= k).run j = (k a).run j' := by
  show ExceptT.bind x k j = _
  unfold ExceptT.bind ExceptT.mk
  show (x.run >>= ExceptT.bindCont k) j = _
  show (let p := x.run j; ExceptT.bindCont k p.1 p.2) = _
  rw [h]
  rfl

open Emit

/-- The locals hold what the variables stand for: every declared variable of an integer type has a
value of its type, and its local holds that value. -/
def HoldVars (env : Env) (vars : Bytes → Int) (locals : Locals) : Prop :=
  ∀ name t T, env.local? name = some t → env.types.intType? t = some T →
    T.contains (vars name) ∧ locals.lookup (Name.local_ name) = some (T.value (vars name))

/-- The form `f` is the code of `e` and ends in the value that `e` means, if no sign leaves its
type. -/
structure Implements (env : Env) (e : Expr) (T : IntType) (f : Form) : Prop where
  readable : f.isReadable
  code : ∀ want j, (expr env want e).run j = (.ok (some f), j)
  contains : ∀ {vars : Bytes → Int} {locals : Locals} {v : Int}, HoldVars env vars locals →
    e.meaning env.types vars = .ok v → T.contains v
  answers : ∀ (menv : MachineEnv) (frame : Frame) {vars : Bytes → Int} {locals : Locals},
    HoldVars env vars locals → e.SignsStay env.types vars →
      Eval.Answers menv frame locals f ((e.meaning env.types vars).map T.value)

variable {env : Env} {T : IntType}

theorem ofName_const (T : IntType) :
    Opcode.ofName (T.keyword.text ++ ".const") = .const T.keyword := by
  cases T <;> decide

theorem isReadable_intConst (T : IntType) (n : Int) :
    (Instruction.intConst T.keyword n).isReadable := by
  have hhead : Token.isWord (T.keyword.text ++ ".const") := by
    cases T <;> decide
  simp [Instruction.intConst, Instruction.const, Form.words, Form.isReadable, Form.areReadable,
    hhead, Token.isWord_ofInt]

/-- A constant ends in its value. -/
theorem answers_intConst (menv : MachineEnv) (frame : Frame) (locals : Locals) {n : Int}
    (hn : T.contains n) (hword : n < 2 ^ 63) :
    Eval.Answers menv frame locals (Instruction.intConst T.keyword n) (.ok (T.value n)) :=
  Eval.answers_const (ofName_const T) (IntType.ofConstant_ofInt hn hword)

theorem not_isFloat_keyword (T : IntType) : T.keyword.isFloat = false := by
  cases T <;> rfl

theorem keywordOr_of_intType? {t : TypeId} (h : env.types.intType? t = some T) :
    keywordOr env t = T.keyword := by
  rw [keywordOr, TypeTable.valueKeyword?_of_intType? h, Option.getD_some]

/-- An expression whose code is a constant. -/
theorem implements_const {e : Expr} {n : Int}
    (hcode : ∀ want j, (expr env want e).run j =
      (.ok (some (Instruction.intConst T.keyword n)), j))
    (hmeaning : ∀ vars, e.meaning env.types vars = .ok n) (hfit : T.contains n)
    (hword : n < 2 ^ 63) : Implements env e T (Instruction.intConst T.keyword n) where
  readable := isReadable_intConst T n
  code := hcode
  contains := by
    intro vars locals v _ hv
    obtain rfl : n = v := by simpa [hmeaning] using hv
    exact hfit
  answers := by
    intro menv frame vars locals _ _
    rw [hmeaning]
    exact answers_intConst menv frame locals hfit hword

theorem implements_int {a : Annot} {l : Literal} (ha : env.types.intType? a.type = some T)
    (hl : l.kind = .int) (hfit : T.contains l.int.toInt) :
    Implements env (.literal a l) T (Instruction.intConst T.keyword l.int.toInt) := by
  refine implements_const ?_ ?_ hfit l.int.toInt_lt
  · intro want j
    have hkw : keywordOr env (Expr.literal a l).type = T.keyword := keywordOr_of_intType? ha
    rw [expr]
    simp only [literal, hl, hkw, not_isFloat_keyword]
    rfl
  · intro vars
    simp [Expr.meaning, hl]

theorem implements_char {a : Annot} {l : Literal} (hl : l.kind = .char)
    (hfit : IntType.char.contains l.int.toInt) :
    Implements env (.literal a l) .char
      (Instruction.intConst IntType.char.keyword l.int.toInt) := by
  refine implements_const ?_ ?_ hfit l.int.toInt_lt
  · intro want j
    rw [expr]
    simp only [literal, hl]
    rfl
  · intro vars
    simp [Expr.meaning, hl]

theorem contains_truth (b : Bool) : IntType.bool.contains (IntType.truth b) := by
  cases b <;> decide

theorem implements_bool {a : Annot} {l : Literal} (hl : l.kind = .bool) :
    Implements env (.literal a l) .bool
      (Instruction.intConst IntType.bool.keyword (IntType.truth l.bool)) := by
  refine implements_const ?_ ?_ (contains_truth l.bool) (by cases l.bool <;> decide)
  · intro want j
    rw [expr]
    simp only [literal, hl]
    rfl
  · intro vars
    simp [Expr.meaning, hl]

theorem implements_variable {a : Annot} {name : Bytes} {isParam : Bool}
    (ha : env.types.intType? a.type = some T) (hdecl : env.local? name = some a.type) :
    Implements env (.variable a name isParam) T (.words ["get_local", Name.local_ name]) where
  readable := by
    have hhead : Token.isWord "get_local" := by decide
    simp [Form.words, Form.isReadable, Form.areReadable, hhead, Name.isWord_local]
  code := by
    intro want j
    have htop : env.isTopLevel = false := by
      unfold Env.local? at hdecl
      unfold Env.isTopLevel
      cases hlocals : env.locals with
      | none => simp [hlocals] at hdecl
      | some l => rfl
    rw [expr]
    simp only [variable_, htop, hdecl, TypeTable.valueKeyword?_of_intType? ha, Option.isSome_some,
      if_true]
    rfl
  contains := by
    intro vars locals v hvars hv
    simp only [Expr.meaning, Except.ok.injEq] at hv
    rw [← hv]
    exact (hvars name a.type T hdecl ha).1
  answers := by
    intro menv frame vars locals hvars _
    exact Eval.answers_getLocal (hvars name a.type T hdecl ha).2 (T.not_isVoid_value _)

/-- Operators that become an operation of the machine. -/
def BinaryOp.isOperation (op : BinaryOp) : Bool := op.isArithmetic || op.isComparison || op.isShift

theorem ofBinary?_of_isOperation {op : BinaryOp} (hop : op.isOperation) (tt : TypeTable)
    (T : IntType) (t : TypeId) (ht : tt.isSigned t = T.signed) :
    Instruction.ofBinary? tt op T.keyword t =
      some (T.keyword.text ++ "." ++ (op.intOp T.signed).name) := by
  unfold Instruction.ofBinary? Instruction.signLetter
  rw [ht, not_isFloat_keyword]
  generalize T.signed = signed
  cases op <;> first | exact absurd hop Bool.false_ne_true | cases signed <;> (cases T <;> rfl)

/-- The instruction of an operator on an integer type. -/
theorem run_operation {e : Expr} {op : BinaryOp} {t : TypeId} (hop : op.isOperation)
    (ht : env.types.intType? t = some T) (j : Journal) :
    (operation env e op t).run j =
      (.ok (.ok (T.keyword.text ++ "." ++ (op.intOp T.signed).name, T.keyword)), j) := by
  have hstring : env.types.isString t = false := TypeTable.isString_of_intType? ht
  have htype : operandType env op e.type t = t := by simp [operandType, hstring]
  have hname := ofBinary?_of_isOperation hop env.types T t (TypeTable.isSigned_of_intType? ht)
  simp only [operation, htype, TypeTable.valueKeyword?_of_intType? ht, hstring, hname]
  rfl

/-- What has code is there. -/
theorem not_missing_of_run {want : Bool} {x : Expr} {f : Form} {j j' : Journal}
    (h : (expr env want x).run j = (.ok (some f), j')) : x.isMissing = false := by
  cases x with
  | missing =>
    rw [expr] at h
    cases h
  | _ => rfl

/-- The code of an operator is that of its operands under its instruction. -/
theorem run_expr_binary_at {a : Annot} {op : BinaryOp} {x y : Expr} {f g : Form}
    {j j' j'' : Journal} (hop : op.isOperation) (hx : env.types.intType? x.type = some T)
    (hf : (expr env true x).run j = (.ok (some f), j'))
    (hg : (expr env true y).run j' = (.ok (some g), j'')) (want : Bool) :
    (expr env want (.binary a op x y)).run j =
      (.ok (some (.app (T.keyword.text ++ "." ++ (op.intOp T.signed).name)
        [some f, rightOperand env op T.keyword y.type (some g)])), j'') := by
  have hplain : op ≠ .assign ∧ op.isAssignment = false ∧ op ≠ .logicalAnd ∧ op ≠ .logicalOr := by
    cases op <;> first | exact absurd hop Bool.false_ne_true | decide
  obtain ⟨hassign, hcompound, hand, hor⟩ := hplain
  rw [expr, if_neg hassign, hcompound, if_neg Bool.false_ne_true, if_neg hand, if_neg hor,
    lookAt_of_not_missing (not_missing_of_run hf), pure_bind,
      Work.run_bind (run_operation hop hx j)]
  simp only
  rw [Work.run_bind hf, Work.run_bind hg, lookAtIf_of_not_missing (not_missing_of_run hg)]
  rfl

/-- The code of an operator whose operands have code without a warning. -/
theorem run_expr_binary {a : Annot} {op : BinaryOp} {x y : Expr} {f g : Form}
    (hop : op.isOperation) (hx : env.types.intType? x.type = some T)
    (hf : ∀ want j, (expr env want x).run j = (.ok (some f), j))
    (hg : ∀ want j, (expr env want y).run j = (.ok (some g), j)) (want : Bool) (j : Journal) :
    (expr env want (.binary a op x y)).run j =
      (.ok (some (.app (T.keyword.text ++ "." ++ (op.intOp T.signed).name)
        [some f, rightOperand env op T.keyword y.type (some g)])), j) :=
  run_expr_binary_at hop hx (hf true j) (hg true j) want

theorem ofName_operation (T : IntType) (op : IntOp) :
    Opcode.ofName (T.keyword.text ++ "." ++ op.name) = .operation T.keyword op.name := by
  rcases T.keyword_eq with h | h <;> rw [h] <;> cases op <;> decide

theorem isWord_operation (T : IntType) (op : IntOp) :
    Token.isWord (T.keyword.text ++ "." ++ op.name) := by
  rcases T.keyword_eq with h | h <;> rw [h] <;> cases op <;> decide

theorem isReadable_app {head : Bytes} {fs : List Form} (hhead : Token.isWord head)
    (hfs : ∀ f ∈ fs, f.isReadable) : (Form.list (.atom head :: fs)).isReadable := by
  simp only [Form.isReadable, Form.areReadable, hhead, Bool.true_and]
  exact (Form.areReadable_iff fs).mpr hfs

/-- An operation on two forms that end in values of one type. The second one counts if the first one
has a value. -/
theorem answers_operation {menv : MachineEnv} {frame : Frame} {locals : Locals} {R : IntType}
    {f g : Form} {p q : Except TrapCode Int} (op : IntOp) (ref : Int → Int → Except TrapCode Int)
    (hT : T.isWide) (hf : Eval.Answers menv frame locals f (p.map T.value))
    (hg : ∀ x, p = .ok x → Eval.Answers menv frame locals g (q.map T.value))
    (href : ∀ x y, p = .ok x → q = .ok y →
      (op.onBits (T.toBits x) (T.toBits y)).map T.outcome = (ref x y).map R.value) :
    Eval.Answers menv frame locals (.list [.atom (T.keyword.text ++ "." ++ op.name), f, g])
      ((do
        let x ← p
        let y ← q
        ref x y).map R.value) := by
  have hg' : ∀ v, p.map T.value = .ok v →
      Eval.Answers menv frame locals g (q.map T.value) := by
    intro v hv
    cases p with
    | error c => simp [Except.map] at hv
    | ok x => exact hg x rfl
  have h := Eval.answers_binary
    (fun v w => (binary? T.keyword op.name v w).getD (.error default)) (ofName_operation T op)
    hf hg' ?_
  · cases p with
    | error c => exact h
    | ok x =>
      cases q with
      | error c => exact h
      | ok y =>
        obtain ⟨e, he, hcode⟩ := IntType.binary?_value hT op x y
        refine cast (congrArg _ ?_) h
        show ((binary? T.keyword op.name (T.value x) (T.value y)).getD (.error default)).mapError
          Trap.code = (ref x y).map R.value
        rw [he, Option.getD_some, hcode, href x y rfl rfl]
  · intro v w hv hw
    cases p with
    | error c => simp [Except.map] at hv
    | ok x =>
      cases q with
      | error c => simp [Except.map] at hw
      | ok y =>
        obtain ⟨e, he, -⟩ := IntType.binary?_value hT op x y
        simp only [Except.map, Except.ok.injEq] at hv hw
        rw [← hv, ← hw, he]
        rfl

theorem meaning_binary {op : BinaryOp} (hop : op.isOperation) (tt : TypeTable)
    (vars : Bytes → Int) (a : Annot) (x y : Expr) :
    (Expr.binary a op x y).meaning tt vars = (do
      let v ← x.meaning tt vars
      let w ← y.meaning tt vars
      (x.intType tt).binary op v w) := by
  cases op <;> first | exact absurd hop Bool.false_ne_true | rfl

theorem signsStay_binary {op : BinaryOp} (hop : op.isOperation) (tt : TypeTable)
    (vars : Bytes → Int) (a : Annot) (x y : Expr) :
    (Expr.binary a op x y).SignsStay tt vars ↔
      x.SignsStay tt vars ∧ ∀ v, x.meaning tt vars = .ok v → y.SignsStay tt vars := by
  cases op <;> first | exact absurd hop Bool.false_ne_true | exact Iff.rfl

theorem intType_eq {e : Expr} (h : env.types.intType? e.type = some T) :
    e.intType env.types = T := by
  rw [Expr.intType, h, Option.getD_some]

/-- Where the parts of a meaning have a value, so has the whole. -/
theorem bind_bind_eq_ok {mx my : Except TrapCode Int} {ref : Int → Int → Except TrapCode Int}
    {v : Int} (h : (do
      let x ← mx
      let y ← my
      ref x y) = .ok v) : ∃ x y, mx = .ok x ∧ my = .ok y ∧ ref x y = .ok v := by
  cases mx with
  | error c => simp [bind, Except.bind] at h
  | ok x =>
    cases my with
    | error c => simp [bind, Except.bind] at h
    | ok y => exact ⟨x, y, rfl, rfl, h⟩

theorem implements_arithmetic {a : Annot} {op : BinaryOp} {x y : Expr} {f g : Form}
    (hop : op.isArithmetic) (hT : T.isWide) (htype : env.types.intType? x.type = some T)
    (hx : Implements env x T f) (hy : Implements env y T g) :
    Implements env (.binary a op x y) T
      (.list [.atom (T.keyword.text ++ "." ++ (op.intOp T.signed).name), f, g]) := by
  have hop' : op.isOperation := by simp [BinaryOp.isOperation, hop]
  have hright : rightOperand env op T.keyword y.type (some g) = some g := by
    cases op <;> first | exact absurd hop Bool.false_ne_true | rfl
  refine ⟨?_, ?_, ?_, ?_⟩
  · exact isReadable_app (isWord_operation T _) (by simp [hx.readable, hy.readable])
  · intro want j
    rw [run_expr_binary hop' htype hx.code hy.code, hright]
    rfl
  · intro vars locals v hvars hv
    rw [meaning_binary hop', intType_eq htype] at hv
    obtain ⟨n, k, hn, hk, hv⟩ := bind_bind_eq_ok hv
    exact IntType.contains_of_binary (.inl hop) (hx.contains hvars hn) hv
  · intro menv frame vars locals hvars hstay
    rw [signsStay_binary hop'] at hstay
    rw [meaning_binary hop', intType_eq htype]
    refine answers_operation _ _ hT (hx.answers menv frame hvars hstay.1)
      (fun n hn => hy.answers menv frame hvars (hstay.2 n hn)) ?_
    intro n k hn hk
    have hcn := hx.contains hvars hn
    rw [IntType.onBits_arithmetic hop hcn (hy.contains hvars hk)]
    cases hv : T.binary op n k with
    | error c => rfl
    | ok v =>
      exact congrArg Except.ok
        (IntType.outcome_toBits T (IntType.contains_of_binary (.inl hop) hcn hv))

theorem implements_comparison {a : Annot} {op : BinaryOp} {x y : Expr} {f g : Form}
    (hop : op.isComparison) (hT : T.isWide) (htype : env.types.intType? x.type = some T)
    (hx : Implements env x T f) (hy : Implements env y T g) :
    Implements env (.binary a op x y) .bool
      (.list [.atom (T.keyword.text ++ "." ++ (op.intOp T.signed).name), f, g]) := by
  have hop' : op.isOperation := by simp [BinaryOp.isOperation, hop]
  have hright : rightOperand env op T.keyword y.type (some g) = some g := by
    cases op <;> first | exact absurd hop Bool.false_ne_true | rfl
  refine ⟨?_, ?_, ?_, ?_⟩
  · exact isReadable_app (isWord_operation T _) (by simp [hx.readable, hy.readable])
  · intro want j
    rw [run_expr_binary hop' htype hx.code hy.code, hright]
    rfl
  · intro vars locals v hvars hv
    rw [meaning_binary hop', intType_eq htype] at hv
    obtain ⟨n, k, hn, hk, hv⟩ := bind_bind_eq_ok hv
    obtain ⟨b, -, hb⟩ :=
      IntType.onBits_comparison hop (hx.contains hvars hn) (hy.contains hvars hk)
    obtain rfl : IntType.truth b = v := by simpa [hb] using hv
    exact contains_truth b
  · intro menv frame vars locals hvars hstay
    rw [signsStay_binary hop'] at hstay
    rw [meaning_binary hop', intType_eq htype]
    refine answers_operation _ _ hT (hx.answers menv frame hvars hstay.1)
      (fun n hn => hy.answers menv frame hvars (hstay.2 n hn)) ?_
    intro n k hn hk
    obtain ⟨b, hbits, hb⟩ :=
      IntType.onBits_comparison hop (hx.contains hvars hn) (hy.contains hvars hk)
    rw [hbits, hb]
    rfl

theorem map_map_value {S : IntType} (h : S.keyword = T.keyword) (mx : Except TrapCode Int) :
    mx.map S.value = mx.map T.value := by
  cases mx with
  | error c => rfl
  | ok x => exact congrArg Except.ok (IntType.value_eq_of_keyword h x)

/-- The right operand of a shift ends in a count with the same low bits. -/
theorem answers_rightOperand {op : BinaryOp} {y : Expr} {g : Form} (hop : op.isShift)
    (hT : T.isWide) (htype : env.types.intType? y.type = some .i32) (hg : g.isReadable) :
    ∃ g', rightOperand env op T.keyword y.type (some g) = some g' ∧ g'.isReadable ∧
      ∃ count : Int → Int,
        (∀ n, (T.toBits (count n)).toNat % T.width = T.shiftCount n) ∧
        ∀ (menv : MachineEnv) (frame : Frame) (locals : Locals) (my : Except TrapCode Int),
          Eval.Answers menv frame locals g (my.map IntType.i32.value) →
            Eval.Answers menv frame locals g' ((my.map count).map T.value) := by
  rcases T.keyword_eq with h | h
  · refine ⟨g, by simp [rightOperand, h], hg, id, ?_, ?_⟩
    · intro n
      cases T with
      | i32 | u32 =>
        rw [IntType.toBits, BitVec.toNat_ofInt, IntType.shiftCount]
        simp only [IntType.width, id]
        omega
      | _ => first | exact absurd hT Bool.false_ne_true | exact absurd h (by decide)
    · intro menv frame locals my hy
      rw [map_map_value (T := T) (by rw [h]; rfl)] at hy
      cases my <;> exact hy
  · have hright : rightOperand env op T.keyword y.type (some g) =
        some (.app "i64.extend_u/i32" [some g]) := by
      have hkw : env.types.valueKeyword? y.type = some .i32 :=
        TypeTable.valueKeyword?_of_intType? htype
      simp [rightOperand, hop, h, hkw]
    refine ⟨_, hright, ?_, fun n => n % 2 ^ 32, ?_, ?_⟩
    · exact isReadable_app (by decide) (by simp [hg])
    · intro n
      cases T with
      | i64 | u64 =>
        rw [IntType.toBits, BitVec.toNat_ofInt, IntType.shiftCount]
        simp only [IntType.width]
        omega
      | _ => first | exact absurd hT Bool.false_ne_true | exact absurd h (by decide)
    · intro menv frame locals my hy
      have hname : Opcode.ofName "i64.extend_u/i32" = .operation .i64 "extend_u/i32" := by decide
      have hext : ∀ v : Value,
          unary? .i64 "extend_u/i32" v = some (.ok (.i64 v.word.toUInt64)) := fun _ => rfl
      have hans := Eval.answers_unary (fun v => .ok (.i64 v.word.toUInt64)) hname hy
        fun v _ => hext v
      cases my with
      | error c => exact hans
      | ok n =>
        have hlo : 0 ≤ n % 2 ^ 32 := Int.emod_nonneg _ (by decide)
        have hhi : n % 2 ^ 32 < 2 ^ 32 := Int.emod_lt_of_pos _ (by decide)
        have hword : UInt32.ofInt n = UInt32.ofInt (n % 2 ^ 32) := by
          apply UInt32.toBitVec_inj.1
          rw [toBitVec_uint32_ofInt, toBitVec_uint32_ofInt, ofInt_emod_two_pow]
        refine cast (congrArg _ (congrArg Except.ok ?_)) hans
        rw [IntType.value_of_i64 h, IntType.value_of_i32 rfl, Value.word_i32, hword,
          IntType.uint32_toUInt64_ofInt hlo hhi]

theorem implements_shift {a : Annot} {op : BinaryOp} {x y : Expr} {f g : Form}
    (hop : op.isShift) (hT : T.isWide) (htype : env.types.intType? x.type = some T)
    (hcount : env.types.intType? y.type = some .i32)
    (hx : Implements env x T f) (hy : Implements env y .i32 g) :
    ∃ f', Implements env (.binary a op x y) T f' := by
  have hop' : op.isOperation := by simp [BinaryOp.isOperation, hop]
  obtain ⟨g', hright, hread, count, hlow, hans⟩ :=
    answers_rightOperand hop hT hcount hy.readable
  refine ⟨.list [.atom (T.keyword.text ++ "." ++ (op.intOp T.signed).name), f, g'], ?_, ?_, ?_, ?_⟩
  · exact isReadable_app (isWord_operation T _) (by simp [hx.readable, hread])
  · intro want j
    rw [run_expr_binary hop' htype hx.code hy.code, hright]
    rfl
  · intro vars locals v hvars hv
    rw [meaning_binary hop', intType_eq htype] at hv
    obtain ⟨n, k, hn, hk, hv⟩ := bind_bind_eq_ok hv
    exact IntType.contains_of_binary (.inr hop) (hx.contains hvars hn) hv
  · intro menv frame vars locals hvars hstay
    rw [signsStay_binary hop'] at hstay
    rw [meaning_binary hop', intType_eq htype]
    have hf := hx.answers menv frame hvars hstay.1
    have hg : ∀ n, x.meaning env.types vars = .ok n → _ := fun n hn =>
      hans menv frame locals _ (hy.answers menv frame hvars (hstay.2 n hn))
    have hbits : ∀ n k, x.meaning env.types vars = .ok n →
        ((op.intOp T.signed).onBits (T.toBits n) (T.toBits (count k))).map T.outcome =
          (T.binary op n k).map T.value := by
      intro n k hn
      have hcn := hx.contains hvars hn
      rw [IntType.onBits_shift hop hcn (hlow k)]
      cases hv : T.binary op n k with
      | error c => rfl
      | ok v =>
        exact congrArg Except.ok
          (IntType.outcome_toBits T (IntType.contains_of_binary (.inr hop) hcn hv))
    cases hk : y.meaning env.types vars with
    | error c =>
      rw [hk] at hg
      refine answers_operation _ _ hT hf hg ?_
      intro n k _ hk'
      simp at hk'
    | ok k =>
      rw [hk] at hg
      refine cast (congrArg _ ?_) (answers_operation (R := T) (op.intOp T.signed)
        (fun n _ => T.binary op n k) hT hf hg ?_)
      · cases x.meaning env.types vars <;> rfl
      · intro n k' hn hk'
        obtain rfl : count k = k' := by simpa [Except.map] using hk'
        exact hbits n k hn

/-- The code of an operator with one operand that changes nothing. -/
theorem run_expr_unary {S : IntType} {a : Annot} {op : UnaryOp} {x : Expr} {f : Form}
    (hop : op.isIncrement = false) (hx : env.types.intType? x.type = some S)
    (hf : ∀ want j, (expr env want x).run j = (.ok (some f), j)) (want : Bool) (j : Journal) :
    (expr env want (.unary a op x)).run j =
      (unaryOn env (.unary a op x) op S.keyword (some f)).run j := by
  rw [expr]
  simp only [TypeTable.valueKeyword?_of_intType? hx, hop,
    lookAt_of_not_missing (not_missing_of_run (hf true j)), pure_bind]
  rw [Work.run_bind (hf true j)]
  rfl

theorem meaning_unary {tt : TypeTable} {vars : Bytes → Int} {a : Annot} {op : UnaryOp} {x : Expr}
    (h : tt.intType? a.type = some T) :
    (Expr.unary a op x).meaning tt vars = (x.meaning tt vars).map (T.unary op) := by
  have htype : (Expr.unary a op x).intType tt = T := by
    rw [Expr.intType, Expr.type, Expr.annot, h, Option.getD_some]
  rw [Expr.meaning, htype]
  cases x.meaning tt vars <;> rfl

/-- The operand of a sign or complement is held as a value of the result. -/
theorem contains_of_promoted {S : IntType} {v : Int}
    (hST : S = T ∨ S.isWide = false ∧ T = .i32) (hv : S.contains v) :
    S.keyword = T.keyword ∧ T.contains v := by
  rcases hST with rfl | ⟨hS, rfl⟩
  · exact ⟨rfl, hv⟩
  · obtain ⟨hlo, hhi⟩ := hv
    have hbounds : IntType.i32.least ≤ S.least ∧ S.bound ≤ IntType.i32.bound := by
      cases S <;> first | decide | exact absurd hS (by decide)
    refine ⟨?_, Int.le_trans hbounds.1 hlo, Int.lt_of_lt_of_le hhi hbounds.2⟩
    cases S <;> first | rfl | exact absurd hS (by decide)

theorem answers_minusOne (menv : MachineEnv) (frame : Frame) (locals : Locals) (T : IntType) :
    Eval.Answers menv frame locals (Instruction.intConst T.keyword (-1)) (.ok (T.value (-1))) := by
  rcases T.keyword_eq with h | h
  · have hval : T.value (-1) = IntType.i32.value (-1) := IntType.value_eq_of_keyword h (-1)
    rw [hval, h]
    exact answers_intConst menv frame locals (T := .i32) (by decide) (by decide)
  · have hval : T.value (-1) = IntType.i64.value (-1) := IntType.value_eq_of_keyword h (-1)
    rw [hval, h]
    exact answers_intConst menv frame locals (T := .i64) (by decide) (by decide)

/-- The code of a sign or complement of the code of its operand. -/
def signForm (kw : Keyword) (op : UnaryOp) (f : Form) : Form :=
  if op = .neg then
    .list [.atom (kw.text ++ "." ++ IntOp.sub.name), Instruction.intConst kw 0, f]
  else .list [.atom (kw.text ++ "." ++ IntOp.xor.name), f, Instruction.intConst kw (-1)]

theorem isReadable_signForm (op : UnaryOp) {f : Form} (hf : f.isReadable) :
    (signForm T.keyword op f).isReadable := by
  unfold signForm
  split <;> exact isReadable_app (isWord_operation T _) (by simp [hf, isReadable_intConst])

theorem run_expr_sign {a : Annot} {op : UnaryOp} {x : Expr} {f : Form}
    (hop : op = .neg ∨ op = .bitNot) (htype : env.types.intType? x.type = some T)
    (hf : ∀ want j, (expr env want x).run j = (.ok (some f), j)) (want : Bool) (j : Journal) :
    (expr env want (.unary a op x)).run j = (.ok (some (signForm T.keyword op f)), j) := by
  have hincrement : op.isIncrement = false := by
    rcases hop with rfl | rfl <;> rfl
  rw [run_expr_unary hincrement htype hf]
  rcases hop with rfl | rfl <;> simp only [unaryOn, not_isFloat_keyword] <;>
    rcases T.keyword_eq with h | h <;> rw [h] <;> rfl

/-- The code of a sign or complement ends in the number that the operator makes of the operand,
which may be no value of the type. -/
theorem answers_sign {menv : MachineEnv} {frame : Frame} {locals : Locals} {op : UnaryOp}
    {f : Form} {mx : Except TrapCode Int} (hop : op = .neg ∨ op = .bitNot)
    (hf : Eval.Answers menv frame locals f (mx.map T.value)) :
    Eval.Answers menv frame locals (signForm T.keyword op f)
      (mx.map fun n => T.value (op.number n)) := by
  have hvalue : ∀ {v}, mx.map T.value = .ok v → ∃ n, mx = .ok n ∧ T.value n = v := by
    intro v hv
    cases mx with
    | error c => simp [Except.map] at hv
    | ok n => exact ⟨n, rfl, by simpa [Except.map] using hv⟩
  rcases hop with rfl | rfl
  · have hzero := answers_intConst (T := T) menv frame locals T.contains_zero (by decide)
    have h := Eval.answers_binary
      (fun v w => (binary? T.keyword IntOp.sub.name v w).getD (.error default))
      (ofName_operation T .sub) hzero (fun _ _ => hf) ?_
    · refine cast (congrArg _ ?_) h
      cases mx with
      | error c => rfl
      | ok n =>
        show ((binary? T.keyword IntOp.sub.name (T.value 0) (T.value n)).getD _).mapError _ = _
        rw [T.binary?_sub, Int.zero_sub]
        rfl
    · intro v w hv hw
      obtain ⟨n, -, rfl⟩ := hvalue hw
      obtain rfl : T.value 0 = v := by simpa using hv
      rw [T.binary?_sub]
      rfl
  · have h := Eval.answers_binary
      (fun v w => (binary? T.keyword IntOp.xor.name v w).getD (.error default))
      (ofName_operation T .xor) hf (fun _ _ => answers_minusOne menv frame locals T) ?_
    · refine cast (congrArg _ ?_) h
      cases mx with
      | error c => rfl
      | ok n =>
        show ((binary? T.keyword IntOp.xor.name (T.value n) (T.value (-1))).getD _).mapError _ = _
        rw [T.binary?_xor_neg_one]
        rfl
    · intro v w hv hw
      obtain ⟨n, -, rfl⟩ := hvalue hv
      obtain rfl : T.value (-1) = w := by simpa using hw
      rw [T.binary?_xor_neg_one]
      rfl

theorem implements_sign {S : IntType} {a : Annot} {op : UnaryOp} {x : Expr} {f : Form}
    (ha : env.types.intType? a.type = some T) (hop : op = .neg ∨ op = .bitNot)
    (hST : S = T ∨ S.isWide = false ∧ T = .i32)
    (htype : env.types.intType? x.type = some S) (hx : Implements env x S f) :
    Implements env (.unary a op x) T (signForm S.keyword op f) where
  readable := isReadable_signForm op hx.readable
  code := run_expr_sign hop htype hx.code
  contains := by
    intro vars locals v _ hv
    rw [meaning_unary ha] at hv
    cases hn : x.meaning env.types vars with
    | error c => simp [hn, Except.map] at hv
    | ok n =>
      obtain rfl : T.unary op n = v := by simpa [hn, Except.map] using hv
      rcases hop with rfl | rfl <;> exact T.contains_wrap _
  answers := by
    intro menv frame vars locals hvars hstay
    rw [meaning_unary ha]
    have htypeOf : (Expr.unary a op x).intType env.types = T := intType_eq ha
    rw [Expr.SignsStay, htypeOf] at hstay
    have h := answers_sign hop (hx.answers menv frame hvars hstay.1)
    cases hn : x.meaning env.types vars with
    | error c =>
      rw [hn] at h
      exact h
    | ok n =>
      obtain ⟨hkw, hcontains⟩ := contains_of_promoted hST (hx.contains hvars hn)
      rw [hn] at h
      refine cast (congrArg _ (congrArg Except.ok ?_)) h
      exact (IntType.value_eq_of_keyword hkw _).trans
        ((IntType.value_number_eq_iff hop hcontains).mpr (hstay.2 n hn))

theorem implements_plus {S : IntType} {a : Annot} {x : Expr} {f : Form}
    (ha : env.types.intType? a.type = some T) (hST : S = T ∨ S.isWide = false ∧ T = .i32)
    (htype : env.types.intType? x.type = some S) (hx : Implements env x S f) :
    Implements env (.unary a .plus x) T f where
  readable := hx.readable
  code := by
    intro want j
    rw [run_expr_unary rfl htype hx.code]
    rfl
  contains := by
    intro vars locals v hvars hv
    rw [meaning_unary ha] at hv
    cases hn : x.meaning env.types vars with
    | error c => simp [hn, Except.map] at hv
    | ok n =>
      obtain rfl : n = v := by simpa [hn, Except.map, IntType.unary] using hv
      exact (contains_of_promoted hST (hx.contains hvars hn)).2
  answers := by
    intro menv frame vars locals hvars hstay
    rw [meaning_unary ha]
    have h := hx.answers menv frame hvars hstay.1
    rw [map_map_value (contains_of_promoted hST S.contains_zero).1] at h
    cases hn : x.meaning env.types vars <;> rw [hn] at h <;> exact h

theorem implements_not {S : IntType} {a : Annot} {x : Expr} {f : Form}
    (ha : env.types.intType? a.type = some .bool)
    (htype : env.types.intType? x.type = some S) (hx : Implements env x S f) :
    Implements env (.unary a .not x) .bool (.list [.atom (S.keyword.text ++ ".eqz"), f]) where
  readable := by
    refine isReadable_app ?_ (by simp [hx.readable])
    rcases S.keyword_eq with h | h <;> rw [h] <;> decide
  code := by
    intro want j
    rw [run_expr_unary rfl htype hx.code]
    simp only [unaryOn, not_isFloat_keyword]
    rfl
  contains := by
    intro vars locals v _ hv
    rw [meaning_unary ha] at hv
    cases hn : x.meaning env.types vars with
    | error c => simp [hn, Except.map] at hv
    | ok n =>
      obtain rfl : IntType.truth (n = 0) = v := by
        simpa [hn, Except.map, IntType.unary] using hv
      exact contains_truth _
  answers := by
    intro menv frame vars locals hvars hstay
    have hname : Opcode.ofName (S.keyword.text ++ ".eqz") = .operation S.keyword "eqz" := by
      rcases S.keyword_eq with h | h <;> rw [h] <;> decide
    have h := Eval.answers_unary (fun v => (unary? S.keyword "eqz" v).getD (.error default))
      hname (hx.answers menv frame hvars hstay.1) ?_
    · rw [meaning_unary ha]
      cases hn : x.meaning env.types vars with
      | error c =>
        rw [hn] at h
        exact h
      | ok n =>
        rw [hn] at h
        refine cast (congrArg _ ?_) h
        show ((unary? S.keyword "eqz" (S.value n)).getD (.error default)).mapError Trap.code = _
        rw [IntType.eqz_value (hx.contains hvars hn)]
        rfl
    · intro v hv
      cases hn : x.meaning env.types vars with
      | error c => simp [hn, Except.map] at hv
      | ok n =>
        obtain rfl : S.value n = v := by simpa [hn, Except.map] using hv
        rw [IntType.eqz_value (hx.contains hvars hn)]
        rfl

/-- The outcome of a condition on a value. One of the two sides counts. -/
theorem answers_choice {menv : MachineEnv} {frame : Frame} {locals : Locals} {S : IntType}
    {c f g : Form} {b p q : Except TrapCode Int}
    (hc : Eval.Answers menv frame locals c (b.map S.value))
    (hcontains : ∀ n, b = .ok n → S.contains n)
    (hf : ∀ n, b = .ok n → n ≠ 0 → Eval.Answers menv frame locals f (p.map T.value))
    (hg : ∀ n, b = .ok n → n = 0 → Eval.Answers menv frame locals g (q.map T.value)) :
    Eval.Answers menv frame locals (.list [.atom "if", c, f, g])
      ((do if (← b) = 0 then q else p).map T.value) := by
  have htruth : ∀ {v}, b.map S.value = .ok v → ∃ n, b = .ok n ∧ v.isTrue = !decide (n = 0) := by
    intro v hv
    cases b with
    | error t => simp [Except.map] at hv
    | ok n =>
      obtain rfl : S.value n = v := by simpa [Except.map] using hv
      exact ⟨n, rfl, IntType.isTrue_value (hcontains n rfl)⟩
  have hf' : ∀ v, b.map S.value = .ok v → v.isTrue = true →
      Eval.Answers menv frame locals f (p.map T.value) := by
    intro v hv htrue
    obtain ⟨n, hn, hvalue⟩ := htruth hv
    exact hf n hn (by simpa [hvalue] using htrue)
  have hg' : ∀ v, b.map S.value = .ok v → v.isTrue = false →
      Eval.Answers menv frame locals g (q.map T.value) := by
    intro v hv hfalse
    obtain ⟨n, hn, hvalue⟩ := htruth hv
    exact hg n hn (by simpa [hvalue] using hfalse)
  have h := Eval.answers_ite hc hf' hg'
  cases b with
  | error t => exact h
  | ok n =>
    refine cast (congrArg _ ?_) h
    show (if (S.value n).isTrue then p.map T.value else q.map T.value) =
      (if n = 0 then q else p).map T.value
    rw [IntType.isTrue_value (hcontains n rfl)]
    by_cases h0 : n = 0 <;> simp [h0]

/-- Where a choice has a value, one of its sides has it. -/
theorem choice_eq_ok {b p q : Except TrapCode Int} {v : Int}
    (h : (do if (← b) = 0 then q else p) = .ok v) : q = .ok v ∨ p = .ok v := by
  cases b with
  | error t => simp [bind, Except.bind] at h
  | ok n =>
    simp only [bind, Except.bind] at h
    split at h
    · exact .inl h
    · exact .inr h

theorem implements_conditional {a : Annot} {c x y : Expr} {fc f g : Form}
    (hc : Implements env c .bool fc) (hx : Implements env x T f) (hy : Implements env y T g) :
    Implements env (.conditional a c x y) T (.list [.atom "if", fc, f, g]) where
  readable := isReadable_app (by decide) (by simp [hc.readable, hx.readable, hy.readable])
  code := by
    intro want j
    rw [expr, Work.run_bind (hc.code true j), Work.run_bind (hx.code true j),
      Work.run_bind (hy.code true j)]
    rfl
  contains := by
    intro vars locals v hvars hv
    rw [Expr.meaning] at hv
    rcases choice_eq_ok hv with hv | hv
    · exact hy.contains hvars hv
    · exact hx.contains hvars hv
  answers := by
    intro menv frame vars locals hvars hstay
    exact answers_choice (hc.answers menv frame hvars hstay.1)
      (fun n hn => hc.contains hvars hn)
      (fun n hn h0 => hx.answers menv frame hvars ((hstay.2 n hn).1 h0))
      (fun n hn h0 => hy.answers menv frame hvars ((hstay.2 n hn).2 h0))

theorem implements_and {a : Annot} {x y : Expr} {f g : Form} (hx : Implements env x .bool f)
    (hy : Implements env y .bool g) :
    Implements env (.binary a .logicalAnd x y) .bool
      (.list [.atom "if", f, g, Instruction.intConst IntType.bool.keyword 0]) where
  readable := isReadable_app (by decide)
    (by simp [hx.readable, hy.readable, isReadable_intConst])
  code := by
    intro want j
    have hcode : expr env want (.binary a .logicalAnd x y) = (do
        let l ← expr env true x
        let r ← expr env true y
        return some (.app "if" [l, r, some (Instruction.intConst .i32 0)])) := by
      rw [expr]
      rfl
    rw [hcode, Work.run_bind (hx.code true j), Work.run_bind (hy.code true j)]
    rfl
  contains := by
    intro vars locals v hvars hv
    rcases choice_eq_ok (q := .ok 0) hv with hv | hv
    · obtain rfl : 0 = v := by simpa using hv
      decide
    · exact hy.contains hvars hv
  answers := by
    intro menv frame vars locals hvars hstay
    exact answers_choice (q := .ok 0) (hx.answers menv frame hvars hstay.1)
      (fun n hn => hx.contains hvars hn)
      (fun n hn h0 => hy.answers menv frame hvars (hstay.2 n hn h0))
      (fun _ _ _ => answers_intConst menv frame locals (by decide) (by decide))

theorem implements_or {a : Annot} {x y : Expr} {f g : Form} (hx : Implements env x .bool f)
    (hy : Implements env y .bool g) :
    Implements env (.binary a .logicalOr x y) .bool
      (.list [.atom "if", f, Instruction.intConst IntType.bool.keyword 1, g]) where
  readable := isReadable_app (by decide)
    (by simp [hx.readable, hy.readable, isReadable_intConst])
  code := by
    intro want j
    have hcode : expr env want (.binary a .logicalOr x y) = (do
        let l ← expr env true x
        let r ← expr env true y
        return some (.app "if" [l, some (Instruction.intConst .i32 1), r])) := by
      rw [expr]
      rfl
    rw [hcode, Work.run_bind (hx.code true j), Work.run_bind (hy.code true j)]
    rfl
  contains := by
    intro vars locals v hvars hv
    rcases choice_eq_ok (p := .ok 1) hv with hv | hv
    · exact hy.contains hvars hv
    · obtain rfl : 1 = v := by simpa using hv
      decide
  answers := by
    intro menv frame vars locals hvars hstay
    exact answers_choice (p := .ok 1) (hx.answers menv frame hvars hstay.1)
      (fun n hn => hx.contains hvars hn)
      (fun _ _ _ => answers_intConst menv frame locals (by decide) (by decide))
      (fun n hn h0 => hy.answers menv frame hvars (hstay.2 n hn h0))

end WastForge
