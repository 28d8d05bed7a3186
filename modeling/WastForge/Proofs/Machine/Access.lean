import WastForge.Emit.Instruction
import WastForge.Proofs.Machine.Construct
import WastForge.Proofs.Machine.Memory
import WastForge.Proofs.Text.Decimal

/-!
# Loads, stores, calls and operations

How forms end that read and write the memory, calls of functions whose code is one form, operations
on forms with effects, and forms that read and write locals. Each is put together from how its
operands end, and is left early where one of its operands is.
-/

namespace WastForge

/-! ## Loads, stores and calls -/

namespace Eval

namespace Proc

/-- From some budget on, the action ends in `o` with the machine `m'`. -/
def Reaches (env : MachineEnv) (p : Proc) (m : Machine) (o : Except Stop Value) (m' : Machine) :
    Prop :=
  ∃ k, ∀ budget fuel start, start.plain = m → k ≤ fuel → start.steps + k ≤ budget →
    Settles (p (env.within budget) fuel) start k o m'

variable {env : MachineEnv} {p : Proc} {m m₁ m' : Machine} {o : Except Stop Value} {v : Value}

/-- One action after another. -/
theorem Reaches.bind {q : Value → Proc} (h : Reaches env p m (.ok v) m₁)
    (hq : Reaches env (q v) m₁ o m') :
    Reaches env (fun e k => p e k >>= fun v => q v e k) m o m' := by
  obtain ⟨k, hk⟩ := h
  obtain ⟨k', hk'⟩ := hq
  refine ⟨k + k', fun budget fuel start hstart hfuel hbudget => ?_⟩
  obtain ⟨x, hrun, hx, hsteps⟩ := (hk budget fuel start hstart (by omega) (by omega)).ok
  have hset := hk' budget fuel x hx (by omega) (by omega)
  exact settles_congr (bind_of_ok hrun) (by omega) hset

/-- An action that evaluates no forms. -/
theorem reaches_of_run {act : Eval Value} {g : Machine → Machine}
    (hg : ∀ x, (g x).plain = g x.plain ∧ (g x).steps = x.steps)
    (h : ∀ x, x.plain = m → act x = .ok v (g x)) :
    Reaches env (fun _ _ => act) m (.ok v) (g m) := by
  refine ⟨0, fun budget fuel start hstart _ _ => ?_⟩
  have hset := settles_ok (k := 0) (h start hstart) (by rw [(hg start).2]; exact Nat.le_refl _)
  rwa [(hg start).1, hstart] at hset

/-- An action that stops. -/
theorem reaches_of_stop {act : Eval Value} {s : Stop} (h : ∀ x, x.plain = m → act x = .error s x) :
    Reaches env (fun _ _ => act) m (.error s.plain) m := by
  refine ⟨0, fun budget fuel start hstart _ _ => ?_⟩
  have hset := settles_error (k := 0) (h start hstart) (Nat.le_refl _)
  rwa [hstart] at hset

end Proc

variable {env : MachineEnv} {f : Frame} {g : Form} {m m₁ m' : Machine} {o : Except Stop Value}
variable {v : Value}

theorem FormEnds.reaches (h : FormEnds env f g m o m') :
    Proc.Reaches env (fun e k => run e k f (sourceOf g)) m o m' :=
  ((formEnds_form _ (form_sourceOf g)).mp h).eventually (Proc.stable_run f _)

/-- A form ends in one way only. -/
theorem FormEnds.unique {o₁ o₂ : Except Stop Value} {m₂ : Machine} (h₁ : FormEnds env f g m o₁ m₁)
    (h₂ : FormEnds env f g m o₂ m₂) : o₁ = o₂ ∧ m₁ = m₂ := by
  rw [formEnds_form _ (form_sourceOf g)] at h₁ h₂
  exact h₁.unique (Proc.stable_run f _) h₂

theorem formEnds_of_reaches {head : Bytes} {fs : List Form} {p : Proc} (hm : m.plain = m)
    (hp : ∀ e k, e.module = env.module →
      form e (run e k) (k + 1) f (.list 0 (.atom 0 head :: sourcesOf fs)) = p e k)
    (h : Proc.Reaches env p m o m') : FormEnds env f (.list (.atom head :: fs)) m o m' := by
  rw [formEnds_list head _ fun _ _ => rfl]
  obtain ⟨k, hk⟩ := h
  refine Proc.ends_of_eventually hm ⟨k, fun budget fuel start hstart hfuel hbudget => ?_⟩
  rw [hp (env.within budget) fuel rfl]
  exact hk budget fuel start hstart hfuel hbudget

/-- A constant that stands for an address. -/
theorem answers_address (locals : Locals) (n : UInt32) :
    Answers env f locals (Instruction.intConst .i32 n.toNat) (.ok (.i32 n)) := by
  have hn := n.toNat_lt
  have hread := Radix.int64?_ofInt (n := n.toNat) (by omega) (by omega)
  have hvalue : Value.ofConstant .i32 (Bytes.ofInt n.toNat) = .ok (.i32 n) := by
    simp only [Value.ofConstant, hread]
    rw [if_pos (by simp; omega)]
    refine congrArg (Except.ok ∘ Value.i32) (UInt32.toNat_inj.mp ?_)
    rw [UInt32.ofInt, UInt32.toNat_ofNat']
    omega
  exact answers_const (by decide) hvalue

theorem formEnds_address (env : MachineEnv) (f : Frame) (hm : m.plain = m) (n : UInt32) :
    FormEnds env f (Instruction.intConst .i32 n.toNat) m (.ok (.i32 n)) m :=
  (formEnds_of_answers hm fun _ => answers_address _ n).mpr ⟨rfl, rfl⟩

theorem plain_withLocals (hm : m.plain = m) (locals : Locals) :
    ({ m with locals := locals } : Machine).plain = { m with locals := locals } := by
  rw [← hm]
  rfl

section memory

variable {head suffix : Bytes} {kw : Keyword} {a : Access} {addr : Value}

/-- What a load does once it has its address. -/
def loadAt (kw : Keyword) (a : Access) (addr : Value) : Eval Value := do
  let bits ← lift ((← get).memory.load addr.word a.width)
  return loaded kw a bits

/-- A load does what it does at its address. -/
theorem formEnds_loadAt (hhead : Opcode.ofName head = .load kw suffix)
    (haccess : access kw suffix = pure a) (hg : FormEnds env f g m (.ok addr) m₁)
    (hnext : Proc.Reaches env (fun _ _ => loadAt kw a addr) m₁ o m') :
    FormEnds env f (.list [.atom head, g]) m o m' := by
  refine formEnds_of_reaches hg.plain.1
    (p := fun e k => run e k f (sourceOf g) >>= loadAt kw a) ?_
    (hg.reaches.bind (q := fun v _ _ => loadAt kw a v) hnext)
  intro e k _
  simp only [form, SourceForm.isList, SourceForm.head, SourceForm.args, SourceForm.word, hhead,
    sourcesOf, load, haccess, pure_bind]
  rfl

theorem loadAt_eq {x : Machine} (hx : x.plain = m) :
    loadAt kw a addr x = (lift (m.memory.load addr.word a.width) >>= fun bits =>
      pure (loaded kw a bits)) x := by
  rw [← hx]
  rfl

/-- A load of what is in memory. -/
theorem formEnds_load {bits : UInt64} (hhead : Opcode.ofName head = .load kw suffix)
    (haccess : access kw suffix = pure a) (hg : FormEnds env f g m (.ok addr) m₁)
    (hload : m₁.memory.load addr.word a.width = .ok bits) :
    FormEnds env f (.list [.atom head, g]) m (.ok (loaded kw a bits)) m₁ := by
  refine formEnds_loadAt hhead haccess hg ?_
  refine Proc.reaches_of_run (g := id) (fun _ => ⟨rfl, rfl⟩) fun x hx => ?_
  rw [loadAt_eq hx, hload]
  rfl

/-- A load that the memory refuses ends in its trap. -/
theorem formEnds_load_stop {t : Trap} (hhead : Opcode.ofName head = .load kw suffix)
    (haccess : access kw suffix = pure a) (hg : FormEnds env f g m (.ok addr) m₁)
    (hload : m₁.memory.load addr.word a.width = .error t) :
    FormEnds env f (.list [.atom head, g]) m (.error (.trap t.plain)) m₁ := by
  refine formEnds_loadAt hhead haccess hg ?_
  refine Proc.reaches_of_stop (s := .trap t) fun x hx => ?_
  rw [loadAt_eq hx, hload]
  rfl

/-- A load past the end of the memory gives no value. -/
theorem not_formEnds_load {t : Trap} (hhead : Opcode.ofName head = .load kw suffix)
    (haccess : access kw suffix = pure a) (hg : FormEnds env f g m (.ok addr) m₁)
    (hload : m₁.memory.load addr.word a.width = .error t) :
    ¬FormEnds env f (.list [.atom head, g]) m (.ok v) m' := by
  intro hv
  cases (hv.unique (formEnds_load_stop hhead haccess hg hload)).1

section store

variable {x : Form} {m₂ : Machine}

/-- What a store does once it has its address and its value. -/
def storeAt (a : Access) (addr v : Value) : Eval Value := do
  let memory ← lift ((← get).memory.store addr.word a.width v.bits)
  modify fun m => { m with memory := memory }
  return v

/-- A store does what it does at its address. -/
theorem formEnds_storeAt (hhead : Opcode.ofName head = .store kw suffix)
    (haccess : access kw suffix = pure a) (hg : FormEnds env f g m (.ok addr) m₁)
    (hx : FormEnds env f x m₁ (.ok v) m₂)
    (hnext : Proc.Reaches env (fun _ _ => storeAt a addr v) m₂ o m') :
    FormEnds env f (.list [.atom head, g, x]) m o m' := by
  refine formEnds_of_reaches hg.plain.1
    (p := fun e k => run e k f (sourceOf g) >>= fun addr =>
      run e k f (sourceOf x) >>= storeAt a addr) ?_ ?_
  · intro e k _
    simp only [form, SourceForm.isList, SourceForm.head, SourceForm.args, SourceForm.word, hhead,
      sourcesOf, store, haccess, pure_bind]
    rfl
  · refine hg.reaches.bind (q := fun addr e k => run e k f (sourceOf x) >>= storeAt a addr) ?_
    exact hx.reaches.bind (q := fun v _ _ => storeAt a addr v) hnext

theorem storeAt_eq {y : Machine} (hy : y.plain = m) :
    storeAt a addr v y =
      (lift (m.memory.store addr.word a.width v.bits) >>= fun memory =>
        (modify fun m : Machine => { m with memory := memory } : Eval Unit) >>= fun _ =>
          pure v) y := by
  rw [← hy]
  rfl

/-- A store changes the memory. -/
theorem formEnds_store {memory : Memory}
    (hhead : Opcode.ofName head = .store kw suffix) (haccess : access kw suffix = pure a)
    (hg : FormEnds env f g m (.ok addr) m₁) (hx : FormEnds env f x m₁ (.ok v) m₂)
    (hstore : m₂.memory.store addr.word a.width v.bits = .ok memory) :
    FormEnds env f (.list [.atom head, g, x]) m (.ok v) { m₂ with memory := memory } := by
  refine formEnds_storeAt hhead haccess hg hx ?_
  refine Proc.reaches_of_run (g := fun y => { y with memory := memory }) (fun _ => ⟨rfl, rfl⟩)
    fun y hy => ?_
  rw [storeAt_eq hy, hstore]
  rfl

/-- A store that the memory refuses ends in its trap and changes nothing. -/
theorem formEnds_store_stop {t : Trap}
    (hhead : Opcode.ofName head = .store kw suffix) (haccess : access kw suffix = pure a)
    (hg : FormEnds env f g m (.ok addr) m₁) (hx : FormEnds env f x m₁ (.ok v) m₂)
    (hstore : m₂.memory.store addr.word a.width v.bits = .error t) :
    FormEnds env f (.list [.atom head, g, x]) m (.error (.trap t.plain)) m₂ := by
  refine formEnds_storeAt hhead haccess hg hx ?_
  refine Proc.reaches_of_stop (s := .trap t) fun y hy => ?_
  rw [storeAt_eq hy, hstore]
  rfl

end store

end memory

section call

variable {fn : Script.Function} {vs : List Value} {x : Form}

/-- A call that is not refused runs the code of the function on its own locals. -/
theorem call_eq (eval : Inner) (hlength : vs.length = fn.params.length)
    (hdepth : f.depth < maxCallDepth) :
    call eval f fn vs = fun m => restoreLocals m.locals (endCall fn
      (seq eval ⟨some fn.name, f.depth + 1⟩ fn.body { m with locals := startLocals fn vs })) := by
  unfold call
  rw [if_neg fun h => h hlength]
  exact if_neg (Nat.not_le.mpr hdepth)

/-- A function whose code is one form, called with its arguments. What the form gives or returns is
dropped if the function has no result. -/
theorem reaches_call_form (hlength : vs.length = fn.params.length) (hdepth : f.depth < maxCallDepth)
    (hbody : SourceForm.forms fn.body = [g])
    (hg : FormEnds env ⟨some fn.name, f.depth + 1⟩ g { m with locals := startLocals fn vs } o m₁)
    (ho : o = .ok v ∨ o = .error (.ret v)) :
    Proc.Reaches env (fun e k => call (run e k) f fn vs) m
      (.ok (if fn.hasResult then v else .void)) { m₁ with locals := m.locals } := by
  obtain ⟨n, rest, hfn, hn, hrest⟩ := SourceForm.forms_eq_cons hbody
  obtain rfl := SourceForm.forms_eq_nil hrest
  obtain ⟨k, hk⟩ := ((formEnds_form n hn).mp hg).eventually (Proc.stable_run _ n)
  refine ⟨k, fun budget fuel start hstart hfuel hbudget => ?_⟩
  have hinner : ({ start with locals := startLocals fn vs } : Machine).plain
      = { m with locals := startLocals fn vs } := by
    rw [← hstart]
    rfl
  have hset := hk budget fuel { start with locals := startLocals fn vs } hinner hfuel hbudget
  obtain ⟨y, hend, hy, hsteps⟩ : ∃ y : Machine,
      endCall fn (run (env.within budget) fuel ⟨some fn.name, f.depth + 1⟩ n
        { start with locals := startLocals fn vs }) = .ok (if fn.hasResult then v else .void) y
      ∧ y.plain = m₁ ∧ y.steps ≤ start.steps + k := by
    rcases ho with rfl | rfl
    · obtain ⟨y, hrun, hy, hsteps⟩ := hset.ok
      exact ⟨y, by rw [hrun]; rfl, hy, hsteps⟩
    · obtain ⟨s, y, hrun, hs, hy, hsteps⟩ := hset.error
      obtain rfl : s = .ret v := by
        cases s with
        | ret u => exact hs
        | branch _ | trap _ | crash => cases hs
      exact ⟨y, by rw [hrun]; rfl, hy, hsteps⟩
  have hcall : call (run (env.within budget) fuel) f fn vs start
      = .ok (if fn.hasResult then v else .void) { y with locals := start.locals } := by
    rw [call_eq _ hlength hdepth, hfn]
    show restoreLocals start.locals (endCall fn (run (env.within budget) fuel _ n _)) = _
    rw [hend]
    rfl
  have hset := settles_ok hcall (show y.steps ≤ start.steps + k from hsteps)
  rw [← hy, ← hstart]
  exact hset

/-- A function whose code returns a value, called with its arguments. -/
theorem reaches_call (hlength : vs.length = fn.params.length) (hdepth : f.depth < maxCallDepth)
    (hresult : fn.hasResult) (hbody : SourceForm.forms fn.body = [.list [.atom "return", x]])
    (hx : FormEnds env ⟨some fn.name, f.depth + 1⟩ x { m with locals := startLocals fn vs }
      (.ok v) m₁) :
    Proc.Reaches env (fun e k => call (run e k) f fn vs) m (.ok v)
      { m₁ with locals := m.locals } := by
  have hreturn : FormEnds env ⟨some fn.name, f.depth + 1⟩ (.list [.atom "return", x])
      { m with locals := startLocals fn vs } (.error (.ret v)) m₁ :=
    formEnds_return.mpr (.inl ⟨v, rfl, hx⟩)
  have hcall := reaches_call_form hlength hdepth hbody hreturn (.inr rfl)
  rwa [if_pos hresult] at hcall

/-- A call of a function without parameters that returns a value. -/
theorem formEnds_call {name : Bytes} (hm : m.plain = m) (hfn : env.module.func? name = some fn)
    (hparams : fn.params = []) (hdepth : f.depth < maxCallDepth) (hresult : fn.hasResult)
    (hbody : SourceForm.forms fn.body = [.list [.atom "return", x]])
    (hx : FormEnds env ⟨some fn.name, f.depth + 1⟩ x { m with locals := startLocals fn [] } (.ok v)
      m₁) :
    FormEnds env f (.list [.atom "call", .atom name]) m (.ok v) { m₁ with locals := m.locals } := by
  have hhead : Opcode.ofName "call" = .call := by decide
  refine formEnds_of_reaches hm ?_ (reaches_call (by rw [hparams]; rfl) hdepth hresult hbody hx)
  intro e k he
  rw [← he] at hfn
  simp only [form, SourceForm.isList, SourceForm.head, SourceForm.args, SourceForm.word, hhead,
    sourcesOf, sourceOf, callForm, hfn, args, pure_bind]
  rfl

/-- A call of a function that the module does not have gives no value. -/
theorem not_formEnds_call {name : Bytes} {fs : List Form} (hfn : env.module.func? name = none) :
    ¬FormEnds env f (.list (.atom "call" :: .atom name :: fs)) m (.ok v) m' := by
  have hhead : Opcode.ofName "call" = .call := by decide
  rw [formEnds_list "call" (fun e k => callForm e (run e k) f (.atom 0 name :: sourcesOf fs))]
  · rintro ⟨budget, fuel, start, k, hstart, hsettles, _⟩
    obtain ⟨x, hrun, _⟩ := hsettles.ok
    have htrap : callForm (env.within budget) (run (env.within budget) fuel) f
        (.atom 0 name :: sourcesOf fs)
        = trap .unknownName ("call to unknown function " ++ name) := by
      simp only [callForm, SourceForm.word,
        show (env.within budget).module.func? name = none from hfn]
    cases (congrFun htrap start).symm.trans hrun
  · intro e k
    simp only [form, SourceForm.isList, SourceForm.head, SourceForm.args, SourceForm.word, hhead,
      sourcesOf, sourceOf]
    rfl

/-- A call of a function with one parameter does what the function does with its argument. -/
theorem formEnds_call_arg {name : Bytes} {arg : Value} (hg : FormEnds env f g m (.ok arg) m₁)
    (hfn : env.module.func? name = some fn)
    (hcall : Proc.Reaches env (fun e k => call (run e k) f fn [arg]) m₁ o m') :
    FormEnds env f (.list [.atom "call", .atom name, g]) m o m' := by
  have hhead : Opcode.ofName "call" = .call := by decide
  refine formEnds_of_reaches hg.plain.1 ?_
    (hg.reaches.bind (q := fun arg e k => call (run e k) f fn [arg]) hcall)
  intro e k he
  rw [← he] at hfn
  simp only [form, SourceForm.isList, SourceForm.head, SourceForm.args, SourceForm.word, hhead,
    sourcesOf, sourceOf, callForm, hfn, args, pure_bind, bind_assoc]
  rfl

/-- A call of a function with one parameter that returns a value. -/
theorem formEnds_call_one {name param : Bytes} {arg : Value}
    (hg : FormEnds env f g m (.ok arg) m₁) (hfn : env.module.func? name = some fn)
    (hparams : fn.params = [param]) (hdepth : f.depth < maxCallDepth) (hresult : fn.hasResult)
    (hbody : SourceForm.forms fn.body = [.list [.atom "return", x]])
    (hx : FormEnds env ⟨some fn.name, f.depth + 1⟩ x { m₁ with locals := startLocals fn [arg] }
      (.ok v) m') :
    FormEnds env f (.list [.atom "call", .atom name, g]) m (.ok v)
      { m' with locals := m₁.locals } :=
  formEnds_call_arg hg hfn (reaches_call (by rw [hparams]; rfl) hdepth hresult hbody hx)

/-- A call of a function with one parameter and without a result has no value, whatever the code of
the function gives. -/
theorem formEnds_call_void {name param : Bytes} {arg : Value}
    (hg : FormEnds env f g m (.ok arg) m₁) (hfn : env.module.func? name = some fn)
    (hparams : fn.params = [param]) (hdepth : f.depth < maxCallDepth)
    (hresult : fn.hasResult = false) (hbody : SourceForm.forms fn.body = [x])
    (hx : FormEnds env ⟨some fn.name, f.depth + 1⟩ x { m₁ with locals := startLocals fn [arg] }
      (.ok v) m') :
    FormEnds env f (.list [.atom "call", .atom name, g]) m (.ok .void)
      { m' with locals := m₁.locals } := by
  have hcall := reaches_call_form (by rw [hparams]; rfl) hdepth hbody hx (.inl rfl)
  rw [hresult, if_neg Bool.false_ne_true] at hcall
  exact formEnds_call_arg hg hfn hcall

end call

end Eval

/-! ## Operations and locals -/

namespace Eval

/-- How an action ends that gives a value or traps. -/
def raised {α : Type} (r : Except Trap α) : Except Stop α := r.mapError fun t => .trap t.plain

namespace Proc

variable {env : MachineEnv} {p q : Proc} {m m' : Machine} {o : Except Stop Value} {s : Stop}

theorem Reaches.congr (hp : Reaches env p m o m')
    (h : ∀ e k start, start.plain = m → q e k start = p e k start) : Reaches env q m o m' := by
  obtain ⟨k, hk⟩ := hp
  refine ⟨k, fun budget fuel start hstart hfuel hbudget => ?_⟩
  exact settles_congr (h _ _ _ hstart) (Nat.le_refl _) (hk budget fuel start hstart hfuel hbudget)

/-- What follows an action that is left early is not looked at. -/
theorem Reaches.bind_stop {q : Value → Proc} (h : Reaches env p m (.error s) m') :
    Reaches env (fun e k => p e k >>= fun v => q v e k) m (.error s) m' := by
  obtain ⟨k, hk⟩ := h
  refine ⟨k, fun budget fuel start hstart hfuel hbudget => ?_⟩
  have hset := hk budget fuel start hstart hfuel hbudget
  obtain ⟨s', x, hrun, -⟩ := hset.error
  exact settles_congr ((bind_of_error hrun).trans hrun.symm) (Nat.le_refl _) hset

theorem reaches_lift (r : Except Trap Value) :
    Reaches env (fun _ _ => lift r) m (raised r) m := by
  cases r with
  | ok v => exact reaches_of_run (g := id) (fun _ => ⟨rfl, rfl⟩) fun _ _ => rfl
  | error t => exact reaches_of_stop (s := .trap t) fun _ _ => rfl

end Proc

variable {env : MachineEnv} {f : Frame} {m m₁ m₂ : Machine} {x y : Form} {u w r : Value} {s : Stop}

section operation

variable {head name : Bytes} {kw : Keyword}

/-- What an operation does with the values of its operands. -/
def applied (kw : Keyword) (name head : Bytes) (vs : List Value) : Eval Value :=
  let done :=
    match vs with
    | [a] => unary? kw name a
    | [a, b] => binary? kw name a b
    | _ => none
  match done with
  | some r => lift r
  | none =>
    trap .unknownName ("unknown instruction " ++ Quoted.text head ++ " with "
      ++ Bytes.ofNat vs.length ++ " operands")

theorem form_unary (hhead : Opcode.ofName head = .operation kw name) (e : MachineEnv) (k : Nat) :
    form e (run e k) (k + 1) f (.list 0 (.atom 0 head :: sourcesOf [x]))
      = run e k f (sourceOf x) >>= fun a => applied kw name head [a] := by
  simp only [form, SourceForm.isList, SourceForm.head, SourceForm.args, SourceForm.word, hhead,
    sourcesOf, operation, args, pure_bind, bind_assoc]
  rfl

theorem form_binary (hhead : Opcode.ofName head = .operation kw name) (e : MachineEnv) (k : Nat) :
    form e (run e k) (k + 1) f (.list 0 (.atom 0 head :: sourcesOf [x, y]))
      = run e k f (sourceOf x) >>= fun a => run e k f (sourceOf y) >>= fun b =>
          applied kw name head [a, b] := by
  simp only [form, SourceForm.isList, SourceForm.head, SourceForm.args, SourceForm.word, hhead,
    sourcesOf, operation, args, pure_bind, bind_assoc]
  rfl

/-- An operation on one form. -/
theorem formEnds_unary {done : Except Trap Value}
    (hhead : Opcode.ofName head = .operation kw name) (hx : FormEnds env f x m (.ok u) m₁)
    (hop : unary? kw name u = some done) :
    FormEnds env f (.list [.atom head, x]) m (raised done) m₁ := by
  refine formEnds_of_reaches hx.plain.1 (fun e k _ => form_unary hhead e k) ?_
  refine hx.reaches.bind (q := fun a _ _ => applied kw name head [a]) ?_
  refine (Proc.reaches_lift done).congr fun _ _ _ _ => ?_
  show (match unary? kw name u with
    | some r => lift r
    | none => trap .unknownName _) _ = _
  rw [hop]

/-- An operation on two forms, one after the other. -/
theorem formEnds_binary {done : Except Trap Value}
    (hhead : Opcode.ofName head = .operation kw name) (hx : FormEnds env f x m (.ok u) m₁)
    (hy : FormEnds env f y m₁ (.ok w) m₂) (hop : binary? kw name u w = some done) :
    FormEnds env f (.list [.atom head, x, y]) m (raised done) m₂ := by
  refine formEnds_of_reaches hx.plain.1 (fun e k _ => form_binary hhead e k) ?_
  refine hx.reaches.bind (q := fun a e k => run e k f (sourceOf y) >>= fun b =>
    applied kw name head [a, b]) ?_
  refine hy.reaches.bind (q := fun b _ _ => applied kw name head [u, b]) ?_
  refine (Proc.reaches_lift done).congr fun _ _ _ _ => ?_
  show (match binary? kw name u w with
    | some r => lift r
    | none => trap .unknownName _) _ = _
  rw [hop]

/-- An operation on two forms that gives a value. -/
theorem formEnds_operation (hhead : Opcode.ofName head = .operation kw name)
    (hx : FormEnds env f x m (.ok u) m₁) (hy : FormEnds env f y m₁ (.ok w) m₂)
    (hop : binary? kw name u w = some (.ok r)) :
    FormEnds env f (.list [.atom head, x, y]) m (.ok r) m₂ :=
  formEnds_binary hhead hx hy hop

/-- An operation whose left operand is left early. -/
theorem formEnds_operation_stop (hhead : Opcode.ofName head = .operation kw name)
    (hx : FormEnds env f x m (.error s) m₁) :
    FormEnds env f (.list [.atom head, x, y]) m (.error s) m₁ :=
  formEnds_of_reaches hx.plain.1 (fun e k _ => form_binary hhead e k)
    (hx.reaches.bind_stop (q := fun a e k => run e k f (sourceOf y) >>= fun b =>
      applied kw name head [a, b]))

/-- An operation whose right operand is left early. -/
theorem formEnds_operation_stop_right (hhead : Opcode.ofName head = .operation kw name)
    (hx : FormEnds env f x m (.ok u) m₁) (hy : FormEnds env f y m₁ (.error s) m₂) :
    FormEnds env f (.list [.atom head, x, y]) m (.error s) m₂ := by
  refine formEnds_of_reaches hx.plain.1 (fun e k _ => form_binary hhead e k) ?_
  refine hx.reaches.bind (q := fun a e k => run e k f (sourceOf y) >>= fun b =>
    applied kw name head [a, b]) ?_
  exact hy.reaches.bind_stop (q := fun b _ _ => applied kw name head [u, b])

end operation

section locals

variable {name : Bytes}

/-- A local that has a value is read. -/
theorem formEnds_getLocal (hm : m.plain = m) (h : m.locals.lookup name = some u)
    (hvoid : u.isVoid = false) :
    FormEnds env f (.list [.atom "get_local", .atom name]) m (.ok u) m :=
  (formEnds_of_answers hm fun _ => answers_getLocal h hvoid).mpr ⟨rfl, rfl⟩

/-- A local that directives have not written is zero. -/
theorem formEnds_getLocal_unset (hm : m.plain = m) (hf : f.func = none)
    (h : m.locals.lookup name = none) :
    FormEnds env f (.list [.atom "get_local", .atom name]) m (.ok (.i32 0)) m := by
  have hhead : Opcode.ofName "get_local" = .getLocal := by decide
  refine formEnds_of_reaches hm (p := fun _ _ => getLocal f [.atom 0 name]) ?_ ?_
  · intro e k _
    rw [form_list, hhead]
    rfl
  · refine Proc.reaches_of_run (g := id) (fun _ => ⟨rfl, rfl⟩) fun z hz => ?_
    have hlocals : z.locals.lookup name = none := by
      rw [← hz] at h
      exact h
    simp only [getLocal, SourceForm.word, bind, EStateM.bind, get, getThe, MonadStateOf.get]
    rw [show (EStateM.get z : EStateM.Result Stop Machine Machine) = .ok z z from rfl]
    simp only [hlocals, hf]
    rfl

/-- Writing a local of a function that has it, or any local of directives. -/
theorem formEnds_setLocal_of {o : Except Stop Value} {m' : Machine} (hm : m.plain = m)
    (h : f.func = none ∨ (m.locals.lookup name).isSome)
    (hwrite : Proc.Reaches env (fun e k => run e k f (sourceOf x) >>= fun v => do
      modify fun m => m.set name v
      return v) m o m') :
    FormEnds env f (.list [.atom "set_local", .atom name, x]) m o m' := by
  have hhead : Opcode.ofName "set_local" = .setLocal := by decide
  refine formEnds_of_reaches hm
    (p := fun e k => setLocal (run e k) f [.atom 0 name, sourceOf x]) ?_ ?_
  · intro e k _
    rw [form_list, hhead]
    rfl
  · refine hwrite.congr fun e k start hstart => ?_
    have hthere : f.func = none ∨ (start.locals.lookup name).isSome := by
      rw [← hstart] at h
      exact h
    exact setLocal_of_there _ hthere

/-- A local that is there, or any local of directives, is written. -/
theorem formEnds_setLocal_ok (hx : FormEnds env f x m (.ok u) m₁)
    (h : f.func = none ∨ (m.locals.lookup name).isSome) :
    FormEnds env f (.list [.atom "set_local", .atom name, x]) m (.ok u) (m₁.set name u) := by
  refine formEnds_setLocal_of hx.plain.1 h ?_
  let write : Value → Proc := fun v _ _ => do
    modify fun m => m.set name v
    return v
  refine hx.reaches.bind (q := write) ?_
  exact Proc.reaches_of_run (g := fun m => m.set name u) (fun _ => ⟨rfl, rfl⟩) fun _ _ => rfl

/-- A local whose value is not computed to the end is not written. -/
theorem formEnds_setLocal_stop (hx : FormEnds env f x m (.error s) m₁)
    (h : f.func = none ∨ (m.locals.lookup name).isSome) :
    FormEnds env f (.list [.atom "set_local", .atom name, x]) m (.error s) m₁ :=
  formEnds_setLocal_of hx.plain.1 h hx.reaches.bind_stop

end locals

end Eval

end WastForge
