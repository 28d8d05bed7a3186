import WastForge.Proofs.Integer.Correct
import WastForge.Proofs.Machine.Access
import WastForge.Proofs.Machine.Cell

/-!
# Increments

What an increment or decrement of a local or a static field leaves behind, and what its value is. A
postfix operator does not keep the old value: it takes the step back from the one that was stored.
That one was cut down to its type, so where the step leaves a narrow type the value is another.
-/

namespace WastForge

open Emit

/-! ## The step of an operator -/

namespace UnaryOp

/-- Whether an increment makes its operand smaller. -/
def falls (op : UnaryOp) : Bool := op = .preDec || op = .postDec

/-- Whether the value of an increment is that from before. -/
def isPostfix (op : UnaryOp) : Bool := op = .postInc || op = .postDec

/-- By how much an increment changes its operand. -/
def step (op : UnaryOp) : Int := if op.falls then -1 else 1

/-- The operation that makes the step. -/
def stepOp (op : UnaryOp) : IntOp := if op.falls then .sub else .add

/-- The operation that takes the step back. -/
def undoOp (op : UnaryOp) : IntOp := if op.falls then .add else .sub

end UnaryOp

namespace IntType

variable {T : IntType} {v : Int}

/-- What an increment makes of a value. -/
def next (T : IntType) (op : UnaryOp) (v : Int) : Int := T.wrap (v + op.step)

theorem binary?_stepOp (T : IntType) (op : UnaryOp) (x : Int) :
    binary? T.keyword op.stepOp.name (T.value x) (T.value 1)
      = some (.ok (T.value (x + op.step))) := by
  unfold UnaryOp.stepOp UnaryOp.step
  cases op.falls with
  | true => exact T.binary?_sub x 1
  | false => exact T.binary?_add x 1

theorem binary?_undoOp (T : IntType) (op : UnaryOp) (x : Int) :
    binary? T.keyword op.undoOp.name (T.value x) (T.value 1)
      = some (.ok (T.value (x - op.step))) := by
  unfold UnaryOp.undoOp UnaryOp.step
  cases op.falls with
  | true =>
    rw [if_pos rfl, if_pos rfl, Int.sub_neg]
    exact T.binary?_add x 1
  | false => exact T.binary?_sub x 1

/-- Of its left operand an operation sees the bits. -/
theorem binary?_congr (T : IntType) {u u' : Value} (h : u.bits = u'.bits) (name : Bytes)
    (w : Value) : binary? T.keyword name u w = binary? T.keyword name u' w := by
  have hword : u.word = u'.word := congrArg UInt64.toUInt32 h
  rcases T.keyword_eq with hkw | hkw
  · simp only [hkw, binary?, hword]
  · simp only [hkw, binary?, h]

/-- The step taken back from the stored value gives the value from before just when the type is not
narrow or the step stays in it. -/
theorem value_undo_eq_iff (hv : T.contains v) (op : UnaryOp) :
    T.value (T.next op v - op.step) = T.value v ↔ T.isWide ∨ T.contains (v + op.step) := by
  cases hwide : T.isWide with
  | true =>
    refine iff_of_true ?_ (.inl rfl)
    have hundo := T.binary?_sub (T.next op v) op.step
    rw [next, value_wrap hwide, T.binary?_sub, Int.add_sub_cancel] at hundo
    exact (Except.ok.inj (Option.some.inj hundo)).symm
  | false =>
    have hstep : op.step = -1 ∨ op.step = 1 := by
      unfold UnaryOp.step
      split
      · exact .inl rfl
      · exact .inr rfl
    have hkeyword : T.keyword = .i32 := by
      cases T <;> first | rfl | exact absurd hwide (by decide)
    have hbounds : -2 ^ 15 ≤ T.least ∧ T.bound ≤ 2 ^ 16 := by
      cases T <;> first | decide | exact absurd hwide (by decide)
    obtain ⟨hlo, hhi⟩ := T.contains_wrap (v + op.step)
    obtain ⟨hvlo, hvhi⟩ := hv
    rw [value_eq_iff hkeyword, ← T.wrap_eq_self_iff]
    have hback : (T.next op v - op.step) % 2 ^ 32 = v % 2 ^ 32
        ↔ T.wrap (v + op.step) = v + op.step := by
      unfold next
      omega
    rw [hback]
    exact (or_iff_right Bool.false_ne_true).symm

end IntType

namespace Eval

variable {env : MachineEnv} {f : Frame} {m : Machine}

/-- A constant ends in its value. -/
theorem formEnds_intConst {T : IntType} {n : Int} (hm : m.plain = m) (hn : T.contains n)
    (hword : n < 2 ^ 63) :
    FormEnds env f (Instruction.intConst T.keyword n) m (.ok (T.value n)) m :=
  (formEnds_of_answers hm fun _ => answers_intConst _ f _ hn hword).mpr ⟨rfl, rfl⟩

end Eval

/-! ## Cutting down -/

/-- What cuts a value down that may have left its type. -/
def IntType.cut (T : IntType) (g : Form) : Form :=
  if T.isWide then g
  else if T.signed then
    .list [.atom "i32.shr_s",
      .list [.atom "i32.shl", g, Instruction.intConst .i32 (32 - T.width : Nat)],
      Instruction.intConst .i32 (32 - T.width : Nat)]
  else .list [.atom "i32.and", g, Instruction.intConst .i32 (2 ^ T.width - 1 : Nat)]

theorem narrow_wrapped {tt : TypeTable} {t : TypeId} {T : IntType} (hT : tt.intType? t = some T)
    (hbool : T ≠ .bool) (g : Form) :
    Instruction.narrow tt (some g) t t true = some (T.cut g) := by
  simp only [Instruction.narrow, TypeTable.widthOf_of_intType? hT,
    TypeTable.isSigned_of_intType? hT, TypeTable.isFloat_of_intType? hT, IntType.cut]
  cases T <;> first | rfl | exact absurd rfl hbool

namespace Eval

variable {env : MachineEnv} {f : Frame} {m m₁ : Machine} {g : Form}

/-- What is cut down is the value with the same low bits. -/
theorem formEnds_cut {T : IntType} {n : Int} (hbool : T ≠ .bool)
    (hg : FormEnds env f g m (.ok (T.value n)) m₁) :
    FormEnds env f (T.cut g) m (.ok (T.value (T.wrap n))) m₁ := by
  have hm₁ : m₁.plain = m₁ := hg.plain.2
  unfold IntType.cut
  cases hwide : T.isWide with
  | true => rwa [if_pos rfl, IntType.value_wrap hwide]
  | false =>
    have hkeyword : T.keyword = .i32 := by
      cases T <;> first | rfl | exact absurd hwide (by decide)
    have hwidth : T.width = 8 ∨ T.width = 16 := by
      cases T <;> first | exact .inl rfl | exact .inr rfl | exact absurd rfl hbool | cases hwide
    rw [IntType.value_of_i32 hkeyword] at hg ⊢
    rw [if_neg Bool.false_ne_true]
    cases hs : T.signed with
    | true =>
      obtain ⟨c, hc, hk⟩ : ∃ c : Nat, 32 - T.width = c ∧
          (T.width = 8 ∧ c = 24 ∨ T.width = 16 ∧ c = 16) := ⟨_, rfl, by omega⟩
      have hcount : FormEnds env f (Instruction.intConst .i32 c) m₁ (.ok (held32 c)) m₁ :=
        formEnds_intConst (T := .i32) hm₁ (by rcases hk with ⟨-, rfl⟩ | ⟨-, rfl⟩ <;> decide)
          (by omega)
      rw [if_pos rfl, hc, IntType.wrap, hs, if_pos rfl, ← IntType.shr_shl n hk]
      have hshl : Opcode.ofName "i32.shl" = .operation .i32 "shl" := by decide
      have hshr : Opcode.ofName "i32.shr_s" = .operation .i32 "shr_s" := by decide
      refine formEnds_operation hshr (formEnds_operation hshl hg hcount rfl) hcount ?_
      show some (Except.ok (Value.i32 _)) = _
      rw [Value.word_i32, Value.word_i32, word_held32]
    | false =>
      have hmask : FormEnds env f (Instruction.intConst .i32 (2 ^ T.width - 1 : Nat)) m₁
          (.ok (held32 (2 ^ T.width - 1 : Nat))) m₁ :=
        formEnds_intConst (T := .i32) hm₁ (by rcases hwidth with h | h <;> rw [h] <;> decide)
          (by rcases hwidth with h | h <;> rw [h] <;> decide)
      rw [if_neg Bool.false_ne_true, IntType.wrap, hs, if_neg Bool.false_ne_true,
        ← IntType.and_mask n hwidth]
      have hand : Opcode.ofName "i32.and" = .operation .i32 "and" := by decide
      refine formEnds_operation hand hg hmask ?_
      show some (Except.ok (Value.i32 _)) = _
      rw [Value.word_i32, word_held32]

end Eval

/-! ## Locals and static fields -/

/-- The locals and static fields of a type: a local that is declared with it, any local at top
level, and a field whose slot has it. -/
inductive IsPlace (env : Env) (T : IntType) : Expr → Prop
  | var {a : Annot} {name : Bytes} {isParam : Bool} (ha : env.types.intType? a.type = some T)
      (hdecl : env.isTopLevel ∨ env.local? name = some a.type) :
      IsPlace env T (.variable a name isParam)
  | field {a : Annot} {ref : MemberRef} {slot : FieldSlot}
      (ha : env.types.intType? a.type = some T) (hslot : env.arena.field? ref = some slot)
      (htype : env.types.intType? slot.type = some T) : IsPlace env T (.field a ref true .missing)

namespace Emit.Env

/-- The machine holds the value in the local or field. A local that directives have not written is
zero. -/
def Holds (env : Env) (frame : Frame) (T : IntType) (m : Machine) (v : Int) : Expr → Prop
  | .variable _ name _ =>
    m.locals.lookup (Name.local_ name) = some (T.value v)
      ∨ frame.func = none ∧ m.locals.lookup (Name.local_ name) = none ∧ v = 0
  | .field _ ref _ _ =>
    ∃ slot bits, env.arena.field? ref = some slot
      ∧ m.memory.load slot.offset (Cell.int T).access.width = .ok bits
      ∧ Eval.loaded T.keyword (Cell.int T).access bits = T.value v
  | _ => False

/-- Machines that are alike but for what is in the local or field. -/
def SameBut (env : Env) (T : IntType) (m m' : Machine) : Expr → Prop
  | .variable _ name _ =>
    m' = { m with locals := m'.locals }
      ∧ ∀ other, other ≠ Name.local_ name → m'.locals.lookup other = m.locals.lookup other
  | .field _ ref _ _ =>
    m' = { m with memory := m'.memory } ∧ m'.memory.size = m.memory.size
      ∧ ∀ slot, env.arena.field? ref = some slot → ∀ i : Nat,
        i < slot.offset.toNat ∨ slot.offset.toNat + (Cell.int T).access.width ≤ i →
          m'.memory.byte i = m.memory.byte i
  | _ => m' = m

/-- The forms `read` and `write` are the code that reads the local or field and the code that
writes it, and they do so. -/
structure Serves (env : Env) (T : IntType) (x : Expr) (read : Form) (write : Form → Form) :
    Prop where
  expr : ∀ want j, (Emit.expr env want x).run j = (.ok (some read), j)
  store : ∀ g j, (Emit.store env x (some g)).run j = (.ok (write g), j)
  read : ∀ {menv : MachineEnv} {frame : Frame} {m : Machine} {v : Int}, m.plain = m →
    env.Holds frame T m v x →
      ∃ u, Eval.FormEnds menv frame read m (.ok u) m ∧ u.bits = (T.value v).bits
  write : ∀ {menv : MachineEnv} {frame : Frame} {m : Machine} {v w : Int} {g : Form},
    env.Holds frame T m v x → T.contains w → Eval.FormEnds menv frame g m (.ok (T.value w)) m →
      ∃ m', Eval.FormEnds menv frame (write g) m (.ok (T.value w)) m'
        ∧ env.Holds frame T m' w x ∧ env.SameBut T m m' x

end Emit.Env

section places

variable {env : Env} {T : IntType} {x : Expr}

theorem IsPlace.intType?_type (h : IsPlace env T x) : env.types.intType? x.type = some T := by
  cases h <;> assumption

/-- A local that holds a value may be written. -/
theorem Emit.Env.Holds.writable {frame : Frame} {m : Machine} {v : Int} {a : Annot} {name : Bytes}
    {isParam : Bool} (h : env.Holds frame T m v (.variable a name isParam)) :
    frame.func = none ∨ (m.locals.lookup (Name.local_ name)).isSome :=
  h.symm.imp (fun h => h.1) fun h => by rw [h]; rfl

theorem serves_local {a : Annot} {name : Bytes} {isParam : Bool}
    (ha : env.types.intType? a.type = some T)
    (hdecl : env.isTopLevel ∨ env.local? name = some a.type) :
    env.Serves T (.variable a name isParam) (.words ["get_local", Name.local_ name])
      fun g => .list [.atom "set_local", .atom (Name.local_ name), g] where
  expr := by
    intro want j
    rw [Emit.expr, variable_]
    cases htop : env.isTopLevel with
    | true => rfl
    | false =>
      have hlocal := hdecl.resolve_left (by rw [htop]; exact Bool.false_ne_true)
      simp only [hlocal, TypeTable.valueKeyword?_of_intType? ha]
      rfl
  store := by
    intro g j
    have hallowed : (env.isTopLevel || (env.local? name).isSome) = true := by
      rw [Bool.or_eq_true]
      exact hdecl.imp id fun h => by rw [h]; rfl
    rw [Emit.store, if_pos hallowed]
    rfl
  read := by
    intro menv frame m v hm hv
    rcases hv with hv | ⟨hfunc, hnone, rfl⟩
    · exact ⟨_, Eval.formEnds_getLocal hm hv (T.not_isVoid_value v), rfl⟩
    · exact ⟨_, Eval.formEnds_getLocal_unset hm hfunc hnone, by cases T <;> rfl⟩
  write := by
    intro menv frame m v w g hv _ hg
    refine ⟨_, Eval.formEnds_setLocal_ok hg (Emit.Env.Holds.writable hv), .inl ?_, rfl,
      fun other hother => ?_⟩
    · exact Locals.lookup_set_self _ _ _
    · exact Locals.lookup_set_of_ne hother _ _

theorem TypeTable.cell?_of_intType? {tt : TypeTable} {t : TypeId} (h : tt.intType? t = some T) :
    tt.cell? t = some (.int T) := by
  obtain ⟨d, hd, hT⟩ := Option.bind_eq_some_iff.mp h
  obtain ⟨hkind, -⟩ := IntType.kind_of_ofDescriptor? hT
  have hcell : Cell.ofDescriptor? d = (IntType.ofDescriptor? d).map .int := by
    unfold Cell.ofDescriptor?
    rw [hkind]
    cases T <;> rfl
  rw [cell?, hd, Option.bind_some, hcell, hT]
  rfl

/-- The slot of a field of an integral type is found. -/
theorem fieldSlot_of_intType? {a : Annot} {ref : MemberRef} {slot : FieldSlot}
    (hslot : env.arena.field? ref = some slot) (htype : env.types.intType? slot.type = some T) :
    fieldSlot env (.field a ref true .missing) ref true .missing
      = pure (.ok (slot, T.keyword)) := by
  unfold fieldSlot
  rw [hslot]
  simp only [TypeTable.valueKeyword?_of_intType? htype]
  rfl

theorem serves_field {a : Annot} {ref : MemberRef} {slot : FieldSlot}
    (hslot : env.arena.field? ref = some slot) (htype : env.types.intType? slot.type = some T) :
    env.Serves T (.field a ref true .missing)
      (.list [.atom (T.keyword.text ++ ".load" ++ (Cell.int T).suffix false), addressOf slot])
      fun g => .list [.atom (T.keyword.text ++ ".store" ++ (Cell.int T).suffix true),
        addressOf slot, g] where
  expr := by
    intro want j
    rw [Emit.expr, fieldLoad, fieldSlot_of_intType? hslot htype,
      ← TypeTable.suffix_of_cell? (TypeTable.cell?_of_intType? htype)]
    rfl
  store := by
    intro g j
    rw [Emit.store, fieldStore, fieldSlot_of_intType? hslot htype,
      ← TypeTable.suffix_of_cell? (TypeTable.cell?_of_intType? htype)]
    rfl
  read := by
    rintro menv frame m v hm ⟨slot', bits, hslot', hload, hvalue⟩
    obtain rfl := Option.some.inj (hslot.symm.trans hslot')
    refine ⟨_, ?_, congrArg Value.bits hvalue⟩
    exact Eval.formEnds_load (Cell.int T).ofName_load (Cell.int T).access_load
      (Eval.formEnds_address menv frame hm slot.offset) (by rw [Value.word_i32]; exact hload)
  write := by
    rintro menv frame m v w g ⟨slot', bits, hslot', hload, -⟩ hw hg
    obtain rfl := Option.some.inj (hslot.symm.trans hslot')
    have hwidth := (Cell.int T).width_le
    have hroom : slot.offset.toNat + (Cell.int T).access.width ≤ m.memory.size.toNat := by
      by_contra hpast
      obtain ⟨t, ht⟩ : ∃ t, m.memory.load slot.offset (Cell.int T).access.width = .error t :=
        Memory.load_error (by omega) (Nat.lt_of_not_le hpast)
      cases ht.symm.trans hload
    refine ⟨_, Eval.formEnds_store (Cell.int T).ofName_store (Cell.int T).access_store
      (Eval.formEnds_address menv frame hg.plain.1 slot.offset) hg
      (by rw [Value.word_i32]; exact Memory.store_ok _ hroom), ?_, rfl, Memory.size_put _ _ _, ?_⟩
    · obtain ⟨bits', hload', hbits'⟩ := m.memory.load_store_same (T.value w).bits hwidth hroom
      exact ⟨slot, bits', hslot, hload', Cell.loaded_of_isValue (s := .int T) ⟨w, hw, rfl⟩ hbits'⟩
    · intro slot' hslot' i hi
      obtain rfl := Option.some.inj (hslot.symm.trans hslot')
      refine Memory.byte_put_outside _ ?_
      rwa [Memory.length_toLittleEndian]

theorem IsPlace.serves (h : IsPlace env T x) : ∃ read write, env.Serves T x read write := by
  cases h with
  | var ha hdecl => exact ⟨_, _, serves_local ha hdecl⟩
  | field ha hslot htype => exact ⟨_, _, serves_field hslot htype⟩

end places

/-! ## The code of an increment -/

section code

variable {env : Env} {T : IntType} {x : Expr} {op : UnaryOp} {read : Form} {write : Form → Form}

/-- The form of an increment, given the code that reads and writes its target. -/
def incrementForm (T : IntType) (op : UnaryOp) (wantValue : Bool) (read : Form)
    (write : Form → Form) : Form :=
  let one := Instruction.intConst T.keyword 1
  let stored := write (T.cut
    (.list [.atom (T.keyword.text ++ "." ++ op.stepOp.name), read, one]))
  if wantValue && op.isPostfix then
    .list [.atom (T.keyword.text ++ "." ++ op.undoOp.name), stored, one]
  else stored

theorem run_expr_increment (h : env.Serves T x read write)
    (hx : env.types.intType? x.type = some T) (hbool : T ≠ .bool) (hop : op.isIncrement)
    (a : Annot) (want : Bool) (j : Journal) :
    (expr env want (.unary a op x)).run j
      = (.ok (some (incrementForm T op want read write)), j) := by
  rw [expr, TypeTable.valueKeyword?_of_intType? hx,
    lookAt_of_not_missing (not_missing_of_run (h.expr true j)), pure_bind]
  simp only
  rw [Work.run_bind (h.expr true j), if_pos hop]
  have hstep : T.keyword.text ++ (if decide (op = .preDec) || decide (op = .postDec) then ".sub"
      else ".add" : Bytes) = T.keyword.text ++ "." ++ op.stepOp.name := by
    unfold UnaryOp.stepOp UnaryOp.falls
    rw [List.append_assoc]
    split <;> rfl
  have hundo : T.keyword.text ++ (if decide (op = .preDec) || decide (op = .postDec) then ".add"
      else ".sub" : Bytes) = T.keyword.text ++ "." ++ op.undoOp.name := by
    unfold UnaryOp.undoOp UnaryOp.falls
    rw [List.append_assoc]
    split <;> rfl
  have hnext : Instruction.narrow env.types
      (some (.app (T.keyword.text ++ "." ++ op.stepOp.name)
        [some read, some (Instruction.intConst T.keyword 1)])) x.type x.type true = _ :=
    narrow_wrapped hx hbool _
  rw [increment]
  simp only [hstep, hundo, hnext]
  simp only [bind_assoc]
  rw [Work.run_bind (h.store _ j)]
  unfold incrementForm UnaryOp.isPostfix
  split <;> rfl

/-- What an increment leaves behind, and its value. -/
theorem formEnds_incrementForm (h : env.Serves T x read write) (hbool : T ≠ .bool)
    (op : UnaryOp) (want : Bool) (menv : MachineEnv) {frame : Frame} {m : Machine} {v : Int}
    (hm : m.plain = m)
    (hv : env.Holds frame T m v x) :
    ∃ m', Eval.FormEnds menv frame (incrementForm T op want read write) m
        (.ok (T.value (if want && op.isPostfix then T.next op v - op.step else T.next op v))) m'
      ∧ env.Holds frame T m' (T.next op v) x ∧ env.SameBut T m m' x := by
  have hone : ∀ m' : Machine, m'.plain = m' → Eval.FormEnds menv frame
      (Instruction.intConst T.keyword 1) m' (.ok (T.value 1)) m' := by
    intro m' hm'
    refine Eval.formEnds_intConst hm' ?_ (by decide)
    cases T <;> decide
  obtain ⟨u, hread, hu⟩ : ∃ u, Eval.FormEnds menv frame read m (.ok u) m
    ∧ u.bits = (T.value v).bits := h.read hm hv
  have hstep : binary? T.keyword op.stepOp.name u (T.value 1)
      = some (.ok (T.value (v + op.step))) := by
    rw [T.binary?_congr hu]
    exact T.binary?_stepOp op v
  have hnext := Eval.formEnds_cut hbool
    (Eval.formEnds_operation (ofName_operation T op.stepOp) hread (hone m hm) hstep)
  obtain ⟨m', hstored, hholds, hsame⟩ := h.write hv (T.contains_wrap _) hnext
  refine ⟨m', ?_, hholds, hsame⟩
  unfold incrementForm
  cases want && op.isPostfix with
  | false => exact hstored
  | true =>
    exact Eval.formEnds_operation (ofName_operation T op.undoOp) hstored
      (hone m' hstored.plain.2) (T.binary?_undoOp op _)

/-- An increment of a local or static field of an integer type stores the next value, with the
bits and the sign that it has in the type, and changes nothing else. Its value is the one that was
stored if the operator stands in front. The value of a postfix operator is the one from before just
when the type has 32 or 64 bits or the step stays in the type. -/
theorem increment_correct (hx : IsPlace env T x) (hbool : T ≠ .bool) (hop : op.isIncrement)
    (a : Annot) (want : Bool) :
    ∃ g, (∀ j, (expr env want (.unary a op x)).run j = (.ok (some g), j)) ∧
      ∀ (menv : MachineEnv) (frame : Frame) (m : Machine) (v : Int), m.plain = m →
        T.contains v → env.Holds frame T m v x →
          ∃ r m', Eval.FormEnds menv frame g m (.ok r) m'
            ∧ env.Holds frame T m' (T.next op v) x ∧ env.SameBut T m m' x
            ∧ (op.isPostfix = false → r = T.value (T.next op v))
            ∧ (op.isPostfix → want →
              (r = T.value v ↔ T.isWide ∨ T.contains (v + op.step))) := by
  obtain ⟨read, write, hserves⟩ := hx.serves
  refine ⟨_, run_expr_increment hserves hx.intType?_type hbool hop a want, ?_⟩
  intro menv frame m v hm hv hholds
  obtain ⟨m', hends, hafter, hsame⟩ :=
    formEnds_incrementForm hserves hbool op want menv hm hholds
  refine ⟨_, m', hends, hafter, hsame, fun hfront => ?_, fun hbehind hwant => ?_⟩
  · rw [hfront, Bool.and_false]
    rfl
  · rw [hbehind, hwant]
    exact IntType.value_undo_eq_iff hv op

end code

/-- A function with a variable of 8 bits. -/
def byteEnv : Env := { program := {}, arena := default, locals := some [("x", 4)] }

/-- The variable. -/
def byteVariable : Expr := .variable { type := 4 } "x" false

theorem isPlace_byteVariable : IsPlace byteEnv .i8 byteVariable :=
  .var (by decide) (.inr (by decide))

/-- The machine with a number in the variable. -/
def byteMachine (v : Int) : Machine := { locals := [("$x", IntType.i8.value v)] }

theorem holds_byteMachine (v : Int) :
    byteEnv.Holds ⟨some "$f", 1⟩ .i8 (byteMachine v) v byteVariable := .inl rfl

/-- From 126, the variable is incremented to 127, and the value of `x++` is 126. -/
theorem increment_correct_byte :
    ∃ g m', (∀ j, (expr byteEnv true (.unary { type := 4 } .postInc byteVariable)).run j
        = (.ok (some g), j))
      ∧ Eval.FormEnds ⟨{}, 0, fun _ => .error []⟩ ⟨some "$f", 1⟩ g (byteMachine 126)
        (.ok (IntType.i8.value 126)) m'
      ∧ byteEnv.Holds ⟨some "$f", 1⟩ .i8 m' 127 byteVariable := by
  have hop : UnaryOp.postInc.isIncrement := by decide
  obtain ⟨g, hcode, hruns⟩ :=
    increment_correct isPlace_byteVariable (by decide) hop { type := 4 } true
  obtain ⟨r, m', hends, hholds, -, -, hvalue⟩ := hruns ⟨{}, 0, fun _ => .error []⟩
    ⟨some "$f", 1⟩ (byteMachine 126) 126 rfl (by decide) (holds_byteMachine 126)
  obtain rfl := (hvalue (by decide) rfl).mpr (.inr (by decide))
  exact ⟨g, m', hcode, hends, hholds⟩

/-- From 127, the value of `x++` is -129 in place of 127. -/
theorem increment_wraps_byte :
    ∃ g m', (∀ j, (expr byteEnv true (.unary { type := 4 } .postInc byteVariable)).run j
        = (.ok (some g), j))
      ∧ Eval.FormEnds ⟨{}, 0, fun _ => .error []⟩ ⟨some "$f", 1⟩ g (byteMachine 127)
        (.ok (IntType.i8.value (-129))) m'
      ∧ IntType.i8.value (-129) ≠ IntType.i8.value 127 := by
  obtain ⟨read, write, hserves⟩ := isPlace_byteVariable.serves
  obtain ⟨m', hends, -⟩ := formEnds_incrementForm hserves (by decide) .postInc true
    ⟨{}, 0, fun _ => .error []⟩ rfl (holds_byteMachine 127)
  exact ⟨_, m', run_expr_increment hserves (by decide) (by decide) (by decide) { type := 4 } true,
    hends, by decide⟩

end WastForge
