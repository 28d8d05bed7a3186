import WastForge.Proofs.Emit.Accounts
import WastForge.Proofs.Emit.Fields
import WastForge.Proofs.Integer.Compound
import WastForge.Proofs.Support.Complete

/-!
# Values of assignments

The value of an assignment, next to the one that a read of its target gives right afterwards.
Writing a local or a static field gives the value that was written. An assignment to a property is a
call of its setter, and the setter has no result: the value is lost, although the getter finds it.
-/

namespace WastForge

open Emit Control Script

/-! ## Properties -/

/-- A statement that returns a static field. -/
inductive Stmt.Gets (field : MemberRef) : Stmt → Prop
  | mk (m : Mark) (a : Annot) : Gets field (.ret m (.field a field true .missing))

/-- A statement that assigns a parameter to a static field. -/
inductive Stmt.Sets (field : MemberRef) (param : Local) : Stmt → Prop
  | mk (m : Mark) (a a' : Annot) {a'' : Annot} (isParam : Bool) (h : a''.type = param.type) :
    Sets field param (.expr m (.binary a .assign (.field a' field true .missing)
      (.variable a'' param.name isParam)))

namespace Emit.Env

variable (env : Env)

/-- The member is a function that code can call, and its body is the statement. -/
structure Calls (ref : MemberRef) (b : Body) (s : Stmt) : Prop where
  found : env.program.lookup? ref none = some b
  worked : b ∈ env.program.bodies
  supported : unsupportedSignature? env.types b.func = none
  entry : env.entry ≠ some b.id
  body : ∃ m, b.root = .block m (some [s])

/-- A static property of the usual form: the getter returns what is in a static field, and the
setter, which has no result, stores its argument there. -/
structure IsProperty (T : IntType) (getter setter : MemberRef) (f : FieldSlot) : Prop where
  hasSetter : setter.isZero = false
  slot : env.arena.field? f.field = some f
  type : env.types.intType? f.type = some T
  get : ∃ b s, env.Calls getter b s ∧ s.Gets f.field ∧ Rows.items b.func.params = []
    ∧ env.types.intType? b.func.result = some T
  set : ∃ b s param, env.Calls setter b s ∧ s.Sets f.field param
    ∧ Rows.items b.func.params = [param] ∧ Rows.items b.func.locals = []
    ∧ env.types.intType? param.type = some T ∧ env.types.valueKeyword? b.func.result = none

end Emit.Env

/-- What an assignment can have as its target: a local, a static field, or a static property of the
usual form. -/
inductive IsTarget (env : Env) (T : IntType) : Expr → Prop
  | place {x : Expr} (h : IsPlace env T x) : IsTarget env T x
  | property {a : Annot} {ref getter setter : MemberRef} {f : FieldSlot}
      (h : env.IsProperty T getter setter f) :
      IsTarget env T (.property a ref getter setter true .missing)

namespace Expr

def isProperty : Expr → Bool
  | .property .. => true
  | _ => false

/-- Where code is called, the local that is assigned is there. At top level it need not be. -/
def Writable (frame : Frame) (m : Machine) : Expr → Prop
  | .variable _ name _ => frame.func = none ∨ (m.locals.lookup (Name.local_ name)).isSome
  | _ => True

end Expr

namespace FieldSlot

/-- The code that reads the slot. -/
def readForm (f : FieldSlot) (T : IntType) : Form :=
  .list [.atom (T.keyword.text ++ ".load" ++ (Cell.int T).suffix false), addressOf f]

/-- The code that writes what `g` gives to the slot. -/
def writeForm (f : FieldSlot) (T : IntType) (g : Form) : Form :=
  .list [.atom (T.keyword.text ++ ".store" ++ (Cell.int T).suffix true), addressOf f, g]

end FieldSlot

/-! ## The code of a member -/

section code

variable {env : Env} {b : Body} {s : Stmt} {ref : MemberRef} {t : FuncText}

theorem run_callWith (h : env.Calls ref b s) (hskipped : env.skipped.contains b.id = false)
    (x : Expr) (args : List (Option Form)) (j : Journal) :
    (callWith env x ref args).run j
      = (.ok (.app "call" (some (.atom (Name.func b.func.ref)) :: args)), j) := by
  have hcallee : callee? env ref none = some b := by
    rw [callee?, h.found]
  have htarget : callTarget env x ref none = pure (.ok (Name.func b.func.ref)) := by
    rw [callTarget, hcallee]
    simp only [hskipped, h.entry, Bool.false_eq_true, if_false]
  rw [callWith, htarget]
  rfl

/-- The code of a function with one statement. -/
theorem exists_emits_of_isText (h : IsText env b t) {m : Mark}
    (hroot : b.root = .block m (some [s])) :
    ∃ labels n lines n', LabelTable.ofBody b.root = .ok labels
      ∧ Emits (stmt (env.inside b.func) labels {} .plain s) n lines n'
      ∧ t = funcText env.types b.func labels.groups (Line.formsAll lines) := by
  obtain ⟨labels, n, code, n', hlabels, hcode, ht, -⟩ := h
  have hbody : rootLines (env.inside b.func) labels b.root
      = stmts (env.inside b.func) labels {} [s] := by
    rw [hroot]
    unfold rootLines stmtRows
    rfl
  rw [hbody] at hcode
  obtain ⟨lines, n₁, more, hlines, hmore, rfl⟩ := emits_stmts hcode
  unfold stmts at hmore
  obtain ⟨rfl, rfl⟩ := emits_pure hmore
  rw [List.append_nil] at ht
  exact ⟨labels, n, lines, _, hlabels, hlines, ht⟩

variable {T : IntType} {f : FieldSlot}

/-- A getter returns what is in the slot. -/
theorem body_of_gets (h : IsText env b t) (hroot : ∃ m, b.root = .block m (some [s]))
    (hs : s.Gets f.field) (hslot : env.arena.field? f.field = some f)
    (htype : env.types.intType? f.type = some T) :
    t.body = [.list [.atom "return", f.readForm T]] := by
  obtain ⟨m, hroot⟩ := hroot
  obtain ⟨m', a⟩ := hs
  obtain ⟨labels, n, lines, n', -, hlines, rfl⟩ := exists_emits_of_isText h hroot
  have hserves : (env.inside b.func).Serves T (.field a f.field true .missing) (f.readForm T)
      (f.writeForm T) := serves_field hslot htype
  obtain ⟨-, ⟨hmissing, -⟩ | ⟨-, x, ⟨j, j', hx⟩, rfl⟩⟩ := emits_ret hlines
  · cases hmissing
  rw [hserves.expr true j] at hx
  obtain rfl := Except.ok.inj (Prod.mk.inj hx).1
  rfl

/-- A setter writes its argument to the slot. -/
theorem text_of_sets {param : Local} (h : IsText env b t)
    (hroot : ∃ m, b.root = .block m (some [s])) (hs : s.Sets f.field param)
    (hslot : env.arena.field? f.field = some f)
    (htype : env.types.intType? f.type = some T) (hparams : Rows.items b.func.params = [param])
    (hlocals : Rows.items b.func.locals = []) (hparam : env.types.intType? param.type = some T) :
    t.params.map Prod.fst = [Name.local_ param.name] ∧ t.locals = []
      ∧ t.body = [f.writeForm T (.words ["get_local", Name.local_ param.name])] := by
  obtain ⟨m, hroot⟩ := hroot
  obtain @⟨m', a, a', a'', isParam, hannot⟩ := hs
  obtain ⟨labels, n, lines, n', hlabels, hlines, rfl⟩ := exists_emits_of_isText h hroot
  have hdeclared : declared env.types b.func = [] := by
    rw [declared, hlocals]
    rfl
  have hgroups : labels.groups = 0 := by
    rw [hroot] at hlabels
    rw [← Except.ok.inj hlabels]
  have hlocal : (env.inside b.func).local? param.name = some param.type := by
    show List.lookup _ (((declared env.types b.func).map _) ++ paramTypes b.func) = _
    rw [hdeclared, paramTypes, hparams]
    simp
  have hserves : (env.inside b.func).Serves T (.field a' f.field true .missing) (f.readForm T)
      (f.writeForm T) := serves_field hslot htype
  have hvalue : (env.inside b.func).Serves T (.variable a'' param.name isParam) _ _ :=
    serves_local (hannot ▸ hparam) (.inr (hannot ▸ hlocal))
  obtain ⟨-, x, ⟨j, j', hx⟩, rfl⟩ := emits_expr hlines
  rw [run_expr_assign (hserves.store _) (hvalue.expr true j) a false] at hx
  obtain rfl := Except.ok.inj (Prod.mk.inj hx).1
  have hkeyword := TypeTable.valueKeyword?_of_intType? hparam
  refine ⟨?_, ?_, rfl⟩
  · simp [funcText, hparams, hkeyword]
  · simp [funcText, hdeclared, hgroups]

end code

/-! ## What runs -/

section run

variable {menv : MachineEnv} {frame : Frame} {s s₁ : Machine} {T : IntType} {f : FieldSlot}
variable {w : Int} {g : Form}

/-- A memory in which a value is written to a slot: the code that writes it there leaves that
memory, and the code that reads the slot gives the value. -/
theorem exists_memory (memory : Memory) (hw : T.contains w)
    (hroom : f.offset.toNat + (Cell.int T).access.width ≤ memory.size.toNat) :
    ∃ memory',
      (∀ {menv : MachineEnv} {frame : Frame} {s s₁ : Machine} {g : Form},
        Eval.FormEnds menv frame g s (.ok (T.value w)) s₁ → s₁.memory = memory →
          Eval.FormEnds menv frame (f.writeForm T g) s (.ok (T.value w))
            { s₁ with memory := memory' })
      ∧ ∀ {menv : MachineEnv} {frame : Frame} {s : Machine}, s.plain = s → s.memory = memory' →
        Eval.FormEnds menv frame (f.readForm T) s (.ok (T.value w)) s := by
  obtain ⟨bits, hload, hbits⟩ :=
    memory.load_store_same (T.value w).bits (Cell.int T).width_le hroom
  have hvalue : Eval.loaded T.keyword (Cell.int T).access bits = T.value w :=
    Cell.loaded_of_isValue (s := .int T) ⟨w, hw, rfl⟩ hbits
  refine ⟨memory.put f.offset.toNat
    (Memory.toLittleEndian (Cell.int T).access.width (T.value w).bits), ?_, ?_⟩
  · intro menv frame s s₁ g hg hmemory
    refine Eval.formEnds_store (Cell.int T).ofName_store (Cell.int T).access_store
      (Eval.formEnds_address menv frame hg.plain.1 f.offset) hg ?_
    rw [Value.word_i32, hmemory]
    exact Memory.store_ok _ hroom
  · intro menv frame s hs hmemory
    have hends := Eval.formEnds_load (Cell.int T).ofName_load (Cell.int T).access_load
      (Eval.formEnds_address menv frame hs f.offset)
      (by rw [Value.word_i32, hmemory]; exact hload)
    rwa [show Eval.loaded (Cell.int T).keyword (Cell.int T).access bits = T.value w from hvalue]
      at hends

/-- The functions of these names read and write the slot. -/
structure Script.Module.HasAccessors (m : Module) (T : IntType) (f : FieldSlot)
    (getter setter : Bytes) : Prop where
  get : ∃ fn, m.func? getter = some fn ∧ fn.params = [] ∧ fn.hasResult
    ∧ SourceForm.forms fn.body = [.list [.atom "return", f.readForm T]]
  set : ∃ fn param, m.func? setter = some fn ∧ fn.params = [param] ∧ fn.locals = []
    ∧ fn.hasResult = false
    ∧ SourceForm.forms fn.body = [f.writeForm T (.words ["get_local", param])]

/-- The call of a setter has no value, and the getter gives what was written. -/
theorem formEnds_accessors {getter setter : Bytes}
    (h : menv.module.HasAccessors T f getter setter) (hdepth : frame.depth < maxCallDepth)
    (hw : T.contains w)
    (hroom : f.offset.toNat + (Cell.int T).access.width ≤ s₁.memory.size.toNat)
    (hg : Eval.FormEnds menv frame g s (.ok (T.value w)) s₁) :
    ∃ s', Eval.FormEnds menv frame (.list [.atom "call", .atom setter, g]) s (.ok .void) s'
      ∧ Eval.FormEnds menv frame (.words ["call", getter]) s' (.ok (T.value w)) s' := by
  obtain ⟨get, hget, hgetParams, hgetResult, hgetBody⟩ := h.get
  obtain ⟨set, param, hset, hsetParams, hsetLocals, hsetResult, hsetBody⟩ := h.set
  obtain ⟨memory', hwrite, hread⟩ := exists_memory s₁.memory hw hroom
  have hplain := hg.plain.2
  have hparam : (Eval.startLocals set [T.value w]).lookup param = some (T.value w) := by
    rw [Eval.startLocals, hsetParams, hsetLocals]
    simp [Locals.set]
  have hargument : Eval.FormEnds menv ⟨some set.name, frame.depth + 1⟩
      (.words ["get_local", param])
      { s₁ with locals := Eval.startLocals set [T.value w] } (.ok (T.value w))
      { s₁ with locals := Eval.startLocals set [T.value w] } :=
    Eval.formEnds_getLocal (Eval.plain_withLocals hplain _) hparam (T.not_isVoid_value w)
  have hcall : Eval.FormEnds menv frame (.list [.atom "call", .atom setter, g]) s (.ok .void)
      { s₁ with memory := memory' } :=
    Eval.formEnds_call_void hg hset hsetParams hdepth hsetResult hsetBody (hwrite hargument rfl)
  have hafter := hcall.plain.2
  have hresult : Eval.FormEnds menv frame (.words ["call", getter]) { s₁ with memory := memory' }
      (.ok (T.value w)) { s₁ with memory := memory' } :=
    Eval.formEnds_call hafter hget hgetParams hdepth hgetResult hgetBody
      (hread (Eval.plain_withLocals hafter _) rfl)
  exact ⟨_, hcall, hresult⟩

end run

namespace Emission

variable {e : Emission} {out : ModuleOutput} {funcs directives : List Line} {member : Bytes}
  {locals : Option (List (Bytes × TypeId))} {T : IntType}

theorem not_mem_leftOut {ref : MemberRef} {b : Body} {s : Stmt}
    (h : (e.envAt member locals).Calls ref b s) : b.id ∉ e.program.leftOut := by
  have hsupported : unsupportedSignature? e.program.types b.func = none := h.supported
  rw [Program.mem_leftOut_iff (p := e.program) h.worked h.entry, hsupported]
  exact Bool.false_ne_true

/-- A function without calls to the support library is written as it stands. -/
theorem Writes.mem_written (hwrites : e.Writes out funcs directives) {ref : MemberRef} {b : Body}
    {s : Stmt} (h : (e.envAt member locals).Calls ref b s) (hsettled : s.Each Node.Settled) :
    b ∈ e.written := by
  have hroot : b.root.Each Node.Settled := by
    obtain ⟨m, hroot⟩ := h.body
    rw [hroot]
    simp [hsettled, Node.Settled]
  refine List.mem_filter.mpr ⟨Support.mem_bodies_of_settled hwrites.expanded h.worked hroot, ?_⟩
  have hkept : b.id ∉ e.program.leftOut := not_mem_leftOut h
  rw [Bool.and_eq_true, Bool.not_eq_true', List.contains_eq_mem, decide_eq_false_iff_not]
  exact ⟨decide_eq_true h.entry, hkept⟩

/-- The code that reads and writes a property calls its accessors, and the module has them. -/
theorem Writes.exists_accessors (hwrites : e.Writes out funcs directives) {m : Module}
    {texts : List FuncText} (htexts : List.Forall₂ (IsText e.env) e.written texts)
    (hhas : m.Has (e.items texts)) {getter setter : MemberRef} {f : FieldSlot}
    (h : (e.envAt member locals).IsProperty T getter setter f) :
    ∃ get set, m.HasAccessors T f get set
      ∧ (∀ x j, (callWith (e.envAt member locals) x getter []).run j
        = (.ok (.words ["call", get]), j))
      ∧ ∀ x g j, (callWith (e.envAt member locals) x setter [some g]).run j
        = (.ok (.list [.atom "call", .atom set, g]), j) := by
  obtain ⟨b, s, hget, hgets, hgetParams, hgetResult⟩ := h.get
  obtain ⟨b', s', param, hset, hsets, hsetParams, hsetLocals, hparam, hsetResult⟩ := h.set
  have hskipped : ∀ {ref b s}, (e.envAt member locals).Calls ref b s →
      (e.envAt member locals).skipped.contains b.id = false := by
    intro ref b s hcalls
    rw [List.contains_eq_mem, decide_eq_false_iff_not]
    exact not_mem_leftOut hcalls
  refine ⟨_, _, ⟨?_, ?_⟩, fun x j => run_callWith hget (hskipped hget) x [] j,
    fun x g j => run_callWith hset (hskipped hset) x [some g] j⟩
  · have hsettled : s.Each Node.Settled := by
      obtain ⟨m', a⟩ := hgets
      simp [Node.Settled]
    obtain ⟨fn, t, hfn, htext, his⟩ :=
      func?_of_written htexts hhas (hwrites.mem_written hget hsettled)
    have hbody : t.body = _ := body_of_gets htext hget.body hgets h.slot h.type
    obtain ⟨_, _, _, _, _, _, rfl, _⟩ := htext
    refine ⟨fn, hfn, ?_, ?_, his.body.trans hbody⟩
    · rw [his.params]
      simp [funcText, hgetParams]
    · rw [his.hasResult]
      exact Option.isSome_of_eq_some (TypeTable.valueKeyword?_of_intType? hgetResult)
  · have hsettled : s'.Each Node.Settled := by
      obtain ⟨m', a, a', isParam, hannot⟩ := hsets
      simp [Node.Settled]
    obtain ⟨fn, t, hfn, htext, his⟩ :=
      func?_of_written htexts hhas (hwrites.mem_written hset hsettled)
    obtain ⟨hparams, hlocals, hbody⟩ := text_of_sets htext hset.body hsets h.slot h.type hsetParams
      hsetLocals hparam
    obtain ⟨_, _, _, _, _, _, rfl, _⟩ := htext
    refine ⟨fn, _, hfn, his.params.trans hparams, ?_, ?_, his.body.trans hbody⟩
    · rw [his.locals, hlocals]
      rfl
    · rw [his.hasResult]
      exact Option.isSome_eq_false_iff.mpr (Option.isNone_iff_eq_none.mpr hsetResult)

/-- The slot of a field lies in the memory of the module. -/
theorem Writes.room (hwrites : e.Writes out funcs directives) {m : Module} {texts : List FuncText}
    (hhas : m.Has (e.items texts)) {f : FieldSlot} {ref : MemberRef}
    (hf : e.arena.field? ref = some f) (T : IntType) :
    f.offset.toNat + (Cell.int T).access.width ≤ m.memory.toNat := by
  obtain ⟨hmem, -⟩ := mem_fields_of_field? hf
  obtain ⟨hle, hstop⟩ := hwrites.sound.access_le hmem (.int T)
  rw [(hwrites.memory hhas).1, hwrites.memorySize, ← hwrites.sound.size_memory]
  exact hle.trans hstop

end Emission

/-! ## What an assignment gives -/

/-- The code `write` assigns what `g` gives, a value of the type, to the target, and gives `result`
of it; the code `read` then gives the value. -/
def Script.Module.Assigns (m : Module) (T : IntType) (x : Expr) (g write read : Form)
    (result : Value → Value) : Prop :=
  ∀ (menv : MachineEnv) (frame : Frame) (s s₁ : Machine) (w : Int), menv.module = m →
    frame.depth < maxCallDepth → x.Writable frame s → s₁.memory.size = m.memory →
    T.contains w → Eval.FormEnds menv frame g s (.ok (T.value w)) s₁ →
      ∃ s', Eval.FormEnds menv frame write s (.ok (result (T.value w))) s'
        ∧ Eval.FormEnds menv frame read s' (.ok (T.value w)) s'

namespace Emission.Writes

variable {e : Emission} {out : ModuleOutput} {funcs directives : List Line} {m : Module}
variable {texts : List FuncText} {member : Bytes} {locals : Option (List (Bytes × TypeId))}
variable {T : IntType} {x rhs : Expr} {g : Form} {j j' : Journal}

/-- Assigning to a local or a static field gives the value. -/
theorem assigns_place (hwrites : e.Writes out funcs directives) (hhas : m.Has (e.items texts))
    (hx : IsPlace (e.envAt member locals) T x)
    (hg : (expr (e.envAt member locals) true rhs).run j = (.ok (some g), j')) (a : Annot) :
    ∃ write read,
      (expr (e.envAt member locals) true (.binary a .assign x rhs)).run j = (.ok (some write), j')
      ∧ (∀ j, (expr (e.envAt member locals) true x).run j = (.ok (some read), j))
      ∧ m.Assigns T x g write read id := by
  cases hx with
  | @var _ name isParam hx hdecl =>
    have hserves : (e.envAt member locals).Serves T (.variable _ name isParam) _ _ :=
      serves_local hx hdecl
    refine ⟨_, _, run_expr_assign (hserves.store g) hg a true, hserves.expr true, ?_⟩
    intro menv frame s s₁ w _ _ hwritable _ _ hends
    have hwrite := Eval.formEnds_setLocal_ok hends hwritable
    exact ⟨_, hwrite, Eval.formEnds_getLocal hwrite.plain.2 (Locals.lookup_set_self _ _ _)
      (T.not_isVoid_value w)⟩
  | @field a' ref f hx hslot htype =>
    have hserves := serves_field (a := a') hslot htype
    refine ⟨_, _, run_expr_assign (hserves.store g) hg a true, hserves.expr true, ?_⟩
    intro menv frame s s₁ w _ _ _ hsize hw hends
    obtain ⟨memory', hwrite, hreads⟩ :=
      exists_memory s₁.memory hw (hsize ▸ hwrites.room hhas hslot T)
    have hwritten := hwrite hends rfl
    exact ⟨_, hwritten, hreads hwritten.plain.2 rfl⟩

/-- Assigning to a property gives nothing, and its getter gives the value. -/
theorem assigns_property (hwrites : e.Writes out funcs directives)
    (htexts : List.Forall₂ (IsText e.env) e.written texts) (hhas : m.Has (e.items texts))
    {getter setter : MemberRef} {f : FieldSlot}
    (h : (e.envAt member locals).IsProperty T getter setter f)
    (hg : (expr (e.envAt member locals) true rhs).run j = (.ok (some g), j')) (a a' : Annot)
    (ref : MemberRef) :
    ∃ write read,
      (expr (e.envAt member locals) true
          (.binary a .assign (.property a' ref getter setter true .missing) rhs)).run j
        = (.ok (some write), j')
      ∧ (∀ j, (expr (e.envAt member locals) true
          (.property a' ref getter setter true .missing)).run j = (.ok (some read), j))
      ∧ m.Assigns T (.property a' ref getter setter true .missing) g write read
          fun _ => .void := by
  obtain ⟨get, set, haccessors, hget, hset⟩ := hwrites.exists_accessors htexts hhas h
  have hstore : ∀ j, (store (e.envAt member locals)
      (.property a' ref getter setter true .missing) (some g)).run j
      = (.ok (.list [.atom "call", .atom set, g]), j) := by
    intro j
    rw [store, if_neg (by decide), h.hasSetter, if_neg Bool.false_ne_true]
    exact hset _ g j
  have hload : ∀ j, (expr (e.envAt member locals) true
      (.property a' ref getter setter true .missing)).run j
      = (.ok (some (.words ["call", get])), j) := by
    intro j
    rw [expr, if_neg (by decide), Work.run_bind (hget _ j)]
    rfl
  refine ⟨_, _, run_expr_assign hstore hg a true, hload, ?_⟩
  rintro menv frame s s₁ w rfl hdepth _ hsize hw hends
  exact formEnds_accessors haccessors hdepth hw (hsize ▸ hwrites.room hhas h.slot T) hends

end Emission.Writes

/-- An assignment in value position gives the value that a read of its target gives right
afterwards, which is the assigned one, just if the target is a local or a static field. An
assignment to a property has no value, whatever is assigned. -/
theorem assignment_value_iff {p : Program} {out : ModuleOutput} {ns ds : List SourceForm}
    {m : Module} {e : Emission} (hops : p.NamesOps) (hemit : Work.Comes p.emit out)
    (hread : Script.read out.text = .ok ns) (hm : instantiate ns = .ok (m, ds))
    (he : p.emission? = some e) {member : Bytes} {locals : Option (List (Bytes × TypeId))}
    {T : IntType} {x rhs : Expr} (hx : IsTarget (e.envAt member locals) T x) {g : Form}
    {j j' : Journal} (hg : (expr (e.envAt member locals) true rhs).run j = (.ok (some g), j'))
    (a : Annot) :
    ∃ write read,
      (expr (e.envAt member locals) true (.binary a .assign x rhs)).run j = (.ok (some write), j')
      ∧ (∀ j, (expr (e.envAt member locals) true x).run j = (.ok (some read), j))
      ∧ ∀ (menv : MachineEnv) (frame : Frame) (s s₁ : Machine) (w : Int), menv.module = m →
        frame.depth < maxCallDepth → x.Writable frame s → s₁.memory.size = m.memory →
        T.contains w → Eval.FormEnds menv frame g s (.ok (T.value w)) s₁ →
          ∃ r s', Eval.FormEnds menv frame write s (.ok r) s'
            ∧ Eval.FormEnds menv frame read s' (.ok (T.value w)) s'
            ∧ (r = T.value w ↔ x.isProperty = false) ∧ (x.isProperty → r = .void) := by
  obtain ⟨e', funcs, directives, rfl, hwrites⟩ := Program.writes_of_emit hemit
  obtain rfl := Option.some.inj (hwrites.emission?.symm.trans he)
  obtain ⟨texts, htexts, hhas⟩ := hwrites.has hops hread hm
  cases hx with
  | place hx =>
    have hplace : x.isProperty = false := by
      cases hx <;> rfl
    obtain ⟨write, read, hwrite, hreads, hassigns⟩ := hwrites.assigns_place hhas hx hg a
    refine ⟨write, read, hwrite, hreads, fun menv frame s s₁ w hmenv hdepth hx hsize hw hg => ?_⟩
    obtain ⟨s', hends, hafter⟩ := hassigns menv frame s s₁ w hmenv hdepth hx hsize hw hg
    refine ⟨_, s', hends, hafter, iff_of_true rfl hplace, fun h => ?_⟩
    cases hplace.symm.trans h
  | property hx =>
    obtain ⟨write, read, hwrite, hreads, hassigns⟩ :=
      hwrites.assigns_property htexts hhas hx hg a _ _
    refine ⟨write, read, hwrite, hreads, fun menv frame s s₁ w hmenv hdepth hx hsize hw hg => ?_⟩
    obtain ⟨s', hends, hafter⟩ := hassigns menv frame s s₁ w hmenv hdepth hx hsize hw hg
    refine ⟨_, s', hends, hafter, iff_of_false (fun h => ?_) Bool.noConfusion, fun _ => rfl⟩
    have hvalue := T.not_isVoid_value w
    rw [← h] at hvalue
    cases hvalue

/-- A static field. -/
def levelField : Expr := .field { type := TypeTable.int32 } ⟨"T", "level"⟩ true .missing

/-- The assignment of the parameter to it. -/
def setLevelField : Expr :=
  .binary { type := TypeTable.int32 } .assign levelField
    (.variable { type := TypeTable.int32 } "value" true)

def getLevel : Func where
  name := "get_Level"
  declaringType := "T"
  flags := 1
  result := TypeTable.int32
  body := .block { id := 1 } (some [.ret { id := 2 } levelField])

def setLevel : Func where
  name := "set_Level"
  declaringType := "T"
  flags := 1
  result := TypeTable.void
  params := some [{ name := "value", type := TypeTable.int32 }]
  body := .block { id := 3 } (some [.expr { id := 4 } setLevelField])

/-- A program with the field and its property. -/
def levelProgram : Program where
  name := "level"
  decls := some [{
    name := "T"
    fields := some [some { name := "level", type := TypeTable.int32 }]
    funcs := some [getLevel, setLevel] }]

/-- The property. -/
def levelProperty : Expr :=
  .property { type := TypeTable.int32 } ⟨"T", "Level"⟩ ⟨"T", "get_Level"⟩ ⟨"T", "set_Level"⟩ true
    .missing

/-- The number five. -/
def five : Expr := .literal { type := TypeTable.int32 } { kind := .int, int := 5 }

/-- Where the code stands: at top level. -/
abbrev Emission.top (e : Emission) : Env := e.envAt [] none

/-- The field has its slot. -/
theorem exists_slot_level {e : Emission} (he : levelProgram.emission? = some e) :
    e.program = levelProgram ∧ ∃ f, e.arena.field? f.field = some f
      ∧ f.field = ⟨"T", "level"⟩ ∧ f.type = TypeTable.int32 := by
  have hslot : levelProgram.emission?.any fun e => (e.arena.field? ⟨"T", "level"⟩).any fun f =>
      decide (f.field = ⟨"T", "level"⟩ ∧ f.type = TypeTable.int32) := by decide +kernel
  obtain ⟨x, -, hx⟩ := Option.bind_eq_some_iff.mp he
  obtain ⟨a, -, rfl⟩ := Option.map_eq_some_iff.mp hx
  rw [he, Option.any_some] at hslot
  obtain ⟨f, hf, hfield⟩ := (Option.any_eq_true _ _).mp hslot
  obtain ⟨hname, htype⟩ := of_decide_eq_true hfield
  exact ⟨rfl, f, hname ▸ hf, hname, htype⟩

theorem intType?_level {e : Emission} (he : levelProgram.emission? = some e) :
    e.program.types.intType? TypeTable.int32 = some .i32 := by
  rw [(exists_slot_level he).1]
  decide

/-- The code of the number. -/
theorem run_five {e : Emission} (he : levelProgram.emission? = some e) (j : Journal) :
    (expr e.top true five).run j = (.ok (some (Instruction.intConst .i32 5)), j) := by
  have htype : e.top.types.intType? five.type = some .i32 := intType?_level he
  exact (implements_int htype rfl (by decide)).code true j

/-- `T.level = 5` gives 5, which the field has then. -/
theorem assignment_value_iff_field :
    ∃ m e write read s, levelProgram.module? = some m ∧ levelProgram.emission? = some e
      ∧ (expr e.top true (.binary { type := TypeTable.int32 } .assign levelField five)).run []
        = (.ok (some write), [])
      ∧ (∀ j, (expr e.top true levelField).run j = (.ok (some read), j))
      ∧ Eval.FormEnds ⟨m, 0, fun _ => .error []⟩ {} write { memory := .ofSize m.memory }
        (.ok (IntType.i32.value 5)) s
      ∧ Eval.FormEnds ⟨m, 0, fun _ => .error []⟩ {} read s (.ok (IntType.i32.value 5)) s := by
  have hmodule : levelProgram.module?.isSome := by decide +kernel
  have hemission : levelProgram.emission?.isSome := by decide +kernel
  have hfront : levelProgram.IsFrontEnd := by decide +kernel
  obtain ⟨m, hm⟩ := Option.isSome_iff_exists.mp hmodule
  obtain ⟨e, he⟩ := Option.isSome_iff_exists.mp hemission
  obtain ⟨out, ns, ds, hemit, hread, hinstantiate⟩ := Program.comes_of_module? hm
  obtain ⟨-, f, hf, hname, htype⟩ := exists_slot_level he
  have hint := intType?_level he
  have hplace : IsTarget e.top .i32 levelField := .place (.field hint (hname ▸ hf) (htype ▸ hint))
  obtain ⟨write, read, hwrite, hload, hgives⟩ := assignment_value_iff hfront.namesOps hemit hread
    hinstantiate he hplace (run_five he []) { type := TypeTable.int32 }
  obtain ⟨r, s, hends, hafter, hvalue, -⟩ := hgives ⟨m, 0, fun _ => .error []⟩ {}
    { memory := .ofSize m.memory } { memory := .ofSize m.memory } 5 rfl (by decide) trivial rfl
    (by decide) (Eval.formEnds_intConst (T := .i32) rfl (by decide) (by decide))
  obtain rfl := hvalue.mpr rfl
  exact ⟨m, e, write, read, s, hm, he, hwrite, hload, hends, hafter⟩

theorem isProperty_level {e : Emission} (he : levelProgram.emission? = some e) :
    ∃ f, e.top.IsProperty .i32 ⟨"T", "get_Level"⟩ ⟨"T", "set_Level"⟩ f := by
  have hint := intType?_level he
  obtain ⟨hprogram, f, hf, hname, htype⟩ := exists_slot_level he
  have hentry : ∀ id, e.top.entry ≠ some id := by
    intro id
    show e.program.entryPoint?.map (·.id) ≠ some id
    rw [hprogram]
    exact (nomatch ·)
  obtain ⟨p, x, a⟩ := e
  obtain rfl : p = levelProgram := hprogram
  have hget : (⟨levelProgram, x, a⟩ : Emission).top.Calls ⟨"T", "get_Level"⟩
      ⟨⟨0, 0⟩, getLevel, getLevel.body⟩ (.ret { id := 2 } levelField) :=
    ⟨rfl, List.mem_cons_self, rfl, hentry _, _, rfl⟩
  have hset : (⟨levelProgram, x, a⟩ : Emission).top.Calls ⟨"T", "set_Level"⟩
      ⟨⟨0, 1⟩, setLevel, setLevel.body⟩ (.expr { id := 4 } setLevelField) :=
    ⟨rfl, List.mem_cons_of_mem _ List.mem_cons_self, rfl, hentry _, _, rfl⟩
  refine ⟨f, rfl, hf, htype ▸ hint, ⟨_, _, hget, ?_, rfl, hint⟩,
    ⟨_, _, _, hset, ?_, rfl, rfl, hint, rfl⟩⟩
  · rw [hname]
    exact .mk _ _
  · rw [hname]
    exact .mk _ _ _ _ rfl

/-- `T.Level = 5` gives no value, although `T.Level` is 5 then. -/
theorem property_value_lost :
    ∃ m e f write read s, levelProgram.module? = some m ∧ levelProgram.emission? = some e
      ∧ e.top.IsProperty .i32 ⟨"T", "get_Level"⟩ ⟨"T", "set_Level"⟩ f
      ∧ (expr e.top true (.binary { type := TypeTable.int32 } .assign levelProperty five)).run []
        = (.ok (some write), [])
      ∧ (∀ j, (expr e.top true levelProperty).run j = (.ok (some read), j))
      ∧ Eval.FormEnds ⟨m, 0, fun _ => .error []⟩ {} write { memory := .ofSize m.memory }
        (.ok .void) s
      ∧ Eval.FormEnds ⟨m, 0, fun _ => .error []⟩ {} read s (.ok (IntType.i32.value 5)) s
      ∧ Value.void ≠ IntType.i32.value 5 := by
  have hmodule : levelProgram.module?.isSome := by decide +kernel
  have hfront : levelProgram.IsFrontEnd := by decide +kernel
  obtain ⟨m, hm⟩ := Option.isSome_iff_exists.mp hmodule
  obtain ⟨out, ns, ds, hemit, hread, hinstantiate⟩ := Program.comes_of_module? hm
  obtain ⟨e, funcs, directives, hp, hwrites⟩ := Program.writes_of_emit hemit
  have he : levelProgram.emission? = some e := hp ▸ hwrites.emission?
  obtain ⟨f, hproperty⟩ := isProperty_level he
  obtain ⟨texts, htexts, hhas⟩ := hwrites.has (hp ▸ hfront.namesOps) hread hinstantiate
  obtain ⟨write, read, hwrite, hload, hassigns⟩ := hwrites.assigns_property htexts hhas hproperty
    (run_five he []) { type := TypeTable.int32 } { type := TypeTable.int32 } ⟨"T", "Level"⟩
  obtain ⟨s, hends, hafter⟩ := hassigns ⟨m, 0, fun _ => .error []⟩ {}
    { memory := .ofSize m.memory } { memory := .ofSize m.memory } 5 rfl (by decide) trivial rfl
    (by decide) (Eval.formEnds_intConst (T := .i32) rfl (by decide) (by decide))
  exact ⟨m, e, f, write, read, s, hm, he, hproperty, hwrite, hload, hends, hafter, by decide⟩

end WastForge
