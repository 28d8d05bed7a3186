import WastForge.Machine.Eval

/-!
# Forms without effect

A form made of constants, reads of locals, operations and conditions changes nothing but the count
of steps, and it takes no more steps than it has lists. What it ends in follows from what its parts
end in.
-/

namespace WastForge

namespace Form

mutual

/-- How many lists a form is made of. -/
def size : Form → Nat
  | .list items => 1 + sizes items
  | _ => 0

/-- How many lists several forms are made of. -/
def sizes : List Form → Nat
  | [] => 0
  | f :: rest => f.size + sizes rest

end

end Form

theorem SourceForm.eq_list_of_form {n : SourceForm} {fs : List Form} (h : n.form = .list fs) :
    ∃ line items, n = .list line items ∧ SourceForm.forms items = fs := by
  cases n with
  | list line items =>
    simp only [form, Form.list.injEq] at h
    exact ⟨line, items, rfl, h⟩
  | _ => simp [form] at h

theorem SourceForm.eq_atom_of_form {n : SourceForm} {w : Bytes} (h : n.form = .atom w) :
    ∃ line, n = .atom line w := by
  cases n with
  | atom line v =>
    simp only [form, Form.atom.injEq] at h
    exact ⟨line, by rw [h]⟩
  | _ => simp [form] at h

theorem SourceForm.forms_eq_cons {ns : List SourceForm} {f : Form} {fs : List Form}
    (h : SourceForm.forms ns = f :: fs) :
    ∃ n rest, ns = n :: rest ∧ n.form = f ∧ SourceForm.forms rest = fs := by
  cases ns with
  | nil => simp [forms] at h
  | cons n rest =>
    simp only [forms, List.cons.injEq] at h
    exact ⟨n, rest, rfl, h.1, h.2⟩

theorem SourceForm.forms_eq_atom_cons {ns : List SourceForm} {w : Bytes} {fs : List Form}
    (h : SourceForm.forms ns = .atom w :: fs) :
    ∃ line rest, ns = .atom line w :: rest ∧ SourceForm.forms rest = fs := by
  obtain ⟨n, rest, rfl, hn, hrest⟩ := forms_eq_cons h
  obtain ⟨line, rfl⟩ := eq_atom_of_form hn
  exact ⟨line, rest, rfl, hrest⟩

theorem SourceForm.forms_eq_nil {ns : List SourceForm} (h : SourceForm.forms ns = []) :
    ns = [] := by
  cases ns with
  | nil => rfl
  | cons n rest => simp [forms] at h

namespace Eval

variable {α β : Type}

/-- From every state with the given locals in which `cost` steps are left, `act` ends in `r` within
these steps and changes nothing else. -/
def Yields (budget : Nat) (locals : Locals) (cost : Nat) (act : Eval α) (r : Except TrapCode α) :
    Prop :=
  ∀ m : Machine, m.locals = locals → m.steps + cost ≤ budget →
    ∃ s, m.steps ≤ s ∧ s ≤ m.steps + cost ∧
      match r with
      | .ok a => act m = .ok a { m with steps := s }
      | .error c => ∃ t : Trap, t.code = c ∧ act m = .error (.trap t) { m with steps := s }

variable {budget : Nat} {locals : Locals} {cost cost' : Nat}

theorem yields_pure (a : α) : Yields budget locals 0 (pure a) (.ok a) := by
  intro m _ _
  exact ⟨m.steps, Nat.le_refl _, Nat.le_refl _, rfl⟩

theorem yields_mono {act : Eval α} {r : Except TrapCode α} (hcost : cost ≤ cost')
    (h : Yields budget locals cost act r) : Yields budget locals cost' act r := by
  intro m hm hleft
  obtain ⟨s, hlo, hhi, hr⟩ := h m hm (by omega)
  exact ⟨s, hlo, by omega, hr⟩

/-- One action after another. -/
theorem yields_bind {act : Eval α} {k : α → Eval β} {r : Except TrapCode α}
    {q : α → Except TrapCode β} (hact : Yields budget locals cost act r)
    (hk : ∀ a, r = .ok a → Yields budget locals cost' (k a) (q a)) :
    Yields budget locals (cost + cost') (act >>= k) (r >>= q) := by
  intro m hm hleft
  obtain ⟨s, hlo, hhi, hr⟩ := hact m hm (by omega)
  cases r with
  | error c =>
    obtain ⟨t, ht, hrun⟩ := hr
    refine ⟨s, hlo, by omega, t, ht, ?_⟩
    show EStateM.bind act k m = _
    simp only [EStateM.bind, hrun]
  | ok a =>
    obtain ⟨s', hlo', hhi', hr'⟩ := hk a rfl { m with steps := s } hm (by simp; omega)
    have hbind : (act >>= k) m = k a { m with steps := s } := by
      show EStateM.bind act k m = _
      simp only [EStateM.bind, hr]
    simp only at hlo' hhi' hr'
    refine ⟨s', by omega, by omega, ?_⟩
    show match q a with
      | .ok a => (act >>= k) m = _
      | .error c => _
    rw [hbind]
    exact hr'

theorem yields_lift (e : Except Trap α) :
    Yields budget locals 0 (lift e) (e.mapError Trap.code) := by
  intro m _ _
  refine ⟨m.steps, Nat.le_refl _, Nat.le_refl _, ?_⟩
  cases e with
  | ok a => rfl
  | error t => exact ⟨t, rfl, rfl⟩

theorem yields_atLine {act : Eval α} {r : Except TrapCode α} (line : UInt32)
    (h : Yields budget locals cost act r) : Yields budget locals cost (atLine line act) r := by
  intro m hm hleft
  obtain ⟨s, hlo, hhi, hr⟩ := h m hm hleft
  refine ⟨s, hlo, hhi, ?_⟩
  cases r with
  | ok a => simp only [atLine, hr]
  | error c =>
    obtain ⟨t, ht, hrun⟩ := hr
    refine ⟨t.atLine line, ?_, by simp only [atLine, hrun]⟩
    unfold Trap.atLine
    split <;> exact ht

/-- A step may be taken while the budget is not used up. -/
theorem yields_step (env : MachineEnv) : Yields env.maxSteps locals 1 (step env) (.ok ()) := by
  intro m _ hleft
  refine ⟨m.steps + 1, by omega, Nat.le_refl _, ?_⟩
  have hnot : ¬env.maxSteps < m.steps + 1 := by omega
  show (if env.maxSteps < m.steps + 1 then trap .stepLimit _ else pure ()) _ = _
  rw [if_neg hnot]
  rfl

/-- In every frame, the form `g` ends in `r`, whatever lines its parts stand on. -/
def Answers (env : MachineEnv) (f : Frame) (locals : Locals) (g : Form)
    (r : Except TrapCode Value) : Prop :=
  ∀ fuel n, n.form = g → g.size ≤ fuel →
    Yields env.maxSteps locals g.size (run env fuel f n) r

variable {env : MachineEnv} {f : Frame} {r q : Except TrapCode Value}

theorem answers_of_form {fs : List Form}
    (h : ∀ fuel line items, SourceForm.forms items = fs → Form.sizes fs ≤ fuel →
      Yields env.maxSteps locals (Form.sizes fs)
        (form env (run env fuel) (fuel + 1) f (.list line items)) r) :
    Answers env f locals (.list fs) r := by
  intro fuel n hn hfuel
  obtain ⟨line, items, rfl, hitems⟩ := SourceForm.eq_list_of_form hn
  rw [Form.size] at hfuel ⊢
  cases fuel with
  | zero => omega
  | succ fuel =>
    exact yields_bind (yields_step env) fun _ _ =>
      yields_atLine line (h fuel line items hitems (by omega))

theorem answers_const {head w : Bytes} {kw : Keyword} {v : Value}
    (hhead : Opcode.ofName head = .const kw) (hw : Value.ofConstant kw w = .ok v) :
    Answers env f locals (.list [.atom head, .atom w]) (.ok v) := by
  apply answers_of_form
  intro fuel line items hitems _
  obtain ⟨line₁, rest, rfl, htail⟩ := SourceForm.forms_eq_atom_cons hitems
  obtain ⟨line₂, rest, rfl, hend⟩ := SourceForm.forms_eq_atom_cons htail
  obtain rfl := SourceForm.forms_eq_nil hend
  simp only [form, SourceForm.isList, SourceForm.head, SourceForm.args, SourceForm.word, hhead, hw]
  exact yields_mono (Nat.zero_le _) (yields_lift (.ok v))

/-- A local that is there has its value. -/
theorem getLocal_of_lookup {m : Machine} {line : UInt32} {name : Bytes} {v : Value}
    (hv : m.locals.lookup name = some v) (hvoid : v.isVoid = false) :
    getLocal f [.atom line name] m = .ok v m := by
  simp only [getLocal, SourceForm.word, bind, EStateM.bind, get, getThe, MonadStateOf.get]
  rw [show (EStateM.get m : EStateM.Result Stop Machine Machine) = .ok m m from rfl]
  simp [hv, hvoid, pure, EStateM.pure]

theorem answers_getLocal {name : Bytes} {v : Value} (hv : locals.lookup name = some v)
    (hvoid : v.isVoid = false) :
    Answers env f locals (.list [.atom "get_local", .atom name]) (.ok v) := by
  apply answers_of_form
  intro fuel line items hitems _
  obtain ⟨line₁, rest, rfl, htail⟩ := SourceForm.forms_eq_atom_cons hitems
  obtain ⟨line₂, rest, rfl, hend⟩ := SourceForm.forms_eq_atom_cons htail
  obtain rfl := SourceForm.forms_eq_nil hend
  have hhead : Opcode.ofName "get_local" = .getLocal := by decide
  simp only [form, SourceForm.isList, SourceForm.head, SourceForm.args, SourceForm.word, hhead]
  rintro m rfl _
  refine ⟨m.steps, Nat.le_refl _, Nat.le_add_right _ _, ?_⟩
  exact getLocal_of_lookup hv hvoid

/-- The values of two operands, one after the other. The second one is evaluated if the first one
has a value. -/
theorem yields_args (fuel : Nat) {n₁ n₂ : SourceForm} {x y : Form} (hx : Answers env f locals x r)
    (hy : ∀ v, r = .ok v → Answers env f locals y q) (h₁ : n₁.form = x) (h₂ : n₂.form = y)
    (hfuel : x.size + y.size ≤ fuel) :
    Yields env.maxSteps locals (x.size + y.size) (args (run env fuel) f [n₁, n₂])
      (do return [← r, ← q]) := by
  refine yields_bind (hx fuel n₁ h₁ (by omega)) fun v hv => ?_
  have hsecond : Yields env.maxSteps locals (y.size + 0) (args (run env fuel) f [n₂])
      (do return [← q]) := by
    refine yields_bind (hy v hv fuel n₂ h₂ (by omega)) fun w _ => ?_
    exact yields_pure [w]
  have hboth := yields_bind hsecond fun vs _ => yields_pure (v :: vs)
  refine cast (congrArg _ ?_) hboth
  cases q <;> rfl

/-- An operation on one value. -/
theorem answers_unary (op : Value → Except Trap Value) {head name : Bytes} {kw : Keyword}
    {x : Form} (hhead : Opcode.ofName head = .operation kw name)
    (hx : Answers env f locals x r) (hop : ∀ v, r = .ok v → unary? kw name v = some (op v)) :
    Answers env f locals (.list [.atom head, x]) (r >>= fun v => (op v).mapError Trap.code) := by
  apply answers_of_form
  intro fuel line items hitems hfuel
  obtain ⟨line₁, rest, rfl, htail⟩ := SourceForm.forms_eq_atom_cons hitems
  obtain ⟨a, rest, rfl, ha, hend⟩ := SourceForm.forms_eq_cons htail
  obtain rfl := SourceForm.forms_eq_nil hend
  simp only [Form.sizes, Form.size] at hfuel ⊢
  simp only [form, SourceForm.isList, SourceForm.head, SourceForm.args, SourceForm.word, hhead]
  have hargs : Yields env.maxSteps locals (x.size + 0) (args (run env fuel) f [a])
      (do return [← r]) :=
    yields_bind (hx fuel a ha (by omega)) fun v _ => yields_pure [v]
  have hop' : Yields env.maxSteps locals (x.size + 0 + 0)
      (operation (run env fuel) kw name head f [a])
      ((do return [← r]) >>= fun vs => (op (vs.headD .void)).mapError Trap.code) := by
    refine yields_bind hargs fun vs hvs => ?_
    cases r with
    | error c => simp [bind, Except.bind] at hvs
    | ok v =>
      obtain rfl : [v] = vs := by simpa [bind, Except.bind, pure, Except.pure] using hvs
      simp only [hop v rfl]
      exact yields_lift (op v)
  refine yields_mono (by omega) (cast (congrArg _ ?_) hop')
  cases r <;> rfl

/-- An operation on two values. -/
theorem answers_binary (op : Value → Value → Except Trap Value) {head name : Bytes}
    {kw : Keyword} {x y : Form} (hhead : Opcode.ofName head = .operation kw name)
    (hx : Answers env f locals x r) (hy : ∀ v, r = .ok v → Answers env f locals y q)
    (hop : ∀ v w, r = .ok v → q = .ok w → binary? kw name v w = some (op v w)) :
    Answers env f locals (.list [.atom head, x, y])
      (do
        let v ← r
        let w ← q
        (op v w).mapError Trap.code) := by
  apply answers_of_form
  intro fuel line items hitems hfuel
  obtain ⟨line₁, rest, rfl, htail⟩ := SourceForm.forms_eq_atom_cons hitems
  obtain ⟨a, rest, rfl, ha, htail⟩ := SourceForm.forms_eq_cons htail
  obtain ⟨b, rest, rfl, hb, hend⟩ := SourceForm.forms_eq_cons htail
  obtain rfl := SourceForm.forms_eq_nil hend
  simp only [Form.sizes, Form.size] at hfuel ⊢
  simp only [form, SourceForm.isList, SourceForm.head, SourceForm.args, SourceForm.word, hhead]
  have hargs := yields_args fuel hx hy ha hb (by omega)
  have hop' : Yields env.maxSteps locals (x.size + y.size + 0)
      (operation (run env fuel) kw name head f [a, b])
      ((do return [← r, ← q]) >>= fun vs =>
        (op (vs.headD .void) (vs.tail.headD .void)).mapError Trap.code) := by
    refine yields_bind hargs fun vs hvs => ?_
    cases r with
    | error c => simp [bind, Except.bind] at hvs
    | ok v =>
      cases q with
      | error c => simp [bind, Except.bind] at hvs
      | ok w =>
        obtain rfl : [v, w] = vs := by simpa [bind, Except.bind, pure, Except.pure] using hvs
        simp only [hop v w rfl rfl]
        exact yields_lift (op v w)
  refine yields_mono (by omega) (cast (congrArg _ ?_) hop')
  cases r with
  | error c => rfl
  | ok v => cases q <;> rfl

/-- A condition and two values, of which one is evaluated. -/
theorem answers_ite {c x y : Form} {p : Except TrapCode Value} (hc : Answers env f locals c p)
    (hx : ∀ v, p = .ok v → v.isTrue = true → Answers env f locals x r)
    (hy : ∀ v, p = .ok v → v.isTrue = false → Answers env f locals y q) :
    Answers env f locals (.list [.atom "if", c, x, y])
      (do if (← p).isTrue then r else q) := by
  apply answers_of_form
  intro fuel line items hitems hfuel
  obtain ⟨line₁, rest, rfl, htail⟩ := SourceForm.forms_eq_atom_cons hitems
  obtain ⟨n₁, rest, rfl, h₁, htail⟩ := SourceForm.forms_eq_cons htail
  obtain ⟨n₂, rest, rfl, h₂, htail⟩ := SourceForm.forms_eq_cons htail
  obtain ⟨n₃, rest, rfl, h₃, hend⟩ := SourceForm.forms_eq_cons htail
  obtain rfl := SourceForm.forms_eq_nil hend
  have hhead : Opcode.ofName "if" = .ite := by decide
  simp only [Form.sizes, Form.size] at hfuel ⊢
  simp only [form, SourceForm.isList, SourceForm.head, SourceForm.args, SourceForm.word, hhead]
  have hite : Yields env.maxSteps locals (c.size + (x.size + y.size))
      (ite (run env fuel) f [n₁, n₂, n₃]) (p >>= fun v => if v.isTrue then r else q) := by
    refine yields_bind (hc fuel n₁ h₁ (by omega)) fun v hv => ?_
    cases htrue : v.isTrue with
    | true => exact yields_mono (Nat.le_add_right _ _) (hx v hv htrue fuel n₂ h₂ (by omega))
    | false => exact yields_mono (Nat.le_add_left _ _) (hy v hv htrue fuel n₃ h₃ (by omega))
  exact yields_mono (by omega) hite

end Eval

end WastForge
