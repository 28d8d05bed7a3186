import WastForge.Proofs.Machine.Yield

/-!
# Runs that agree

Two runs of one form may be given different budgets, may stand on different lines, and may differ
in locals that the form never names. As long as the first run is not stopped by its budget, both
end alike: with the same value, the same branch, or the same trap up to its line.
-/

namespace WastForge

namespace Form

/-- The word that a form is; nothing if it is none. -/
def word : Form → Bytes
  | .atom w => w
  | _ => []

/-- Whether a word is a label. -/
def isLabel (w : Bytes) : Bool := w.head? = some 36

mutual

/-- No local of `hidden` is named, and every branch goes to a label around it or to one of
`bound`. -/
def Safe (hidden : List Bytes) (bound : Bytes → Prop) : Form → Prop
  | .list items => SafeItems hidden bound items
  | _ => True

/-- A list of these forms is safe. -/
def SafeItems (hidden : List Bytes) (bound : Bytes → Prop) : List Form → Prop
  | [] => True
  | head :: rest =>
    match Opcode.ofName head.word with
    | .block | .loop => SafeBody hidden bound rest
    | .br => ∀ l ∈ rest.head?, bound l.word
    | .getLocal | .setLocal =>
      (∀ name ∈ rest.head?, name.word ∉ hidden) ∧ SafeAll hidden bound rest
    | .switch _ => SafeSwitch hidden bound rest
    | _ => SafeAll hidden bound rest

/-- All forms are safe. -/
def SafeAll (hidden : List Bytes) (bound : Bytes → Prop) : List Form → Prop
  | [] => True
  | f :: rest => Safe hidden bound f ∧ SafeAll hidden bound rest

/-- The body of a block or loop is safe. Behind a label it may branch to the label. -/
def SafeBody (hidden : List Bytes) (bound : Bytes → Prop) : List Form → Prop
  | [] => True
  | first :: body =>
    Safe hidden bound first
      ∧ SafeAll hidden (fun k => (isLabel first.word ∧ k = first.word) ∨ bound k) body

/-- The key of a switch is safe, and so is what its arms hold. -/
def SafeSwitch (hidden : List Bytes) (bound : Bytes → Prop) : List Form → Prop
  | [] => True
  | key :: arms => Safe hidden bound key ∧ SafeArms hidden bound arms

/-- What the arms of a switch hold is safe. -/
def SafeArms (hidden : List Bytes) (bound : Bytes → Prop) : List Form → Prop
  | [] => True
  | arm :: rest => SafeArm hidden bound arm ∧ SafeArms hidden bound rest

/-- What an arm holds is safe. -/
def SafeArm (hidden : List Bytes) (bound : Bytes → Prop) : Form → Prop
  | .list items => SafeTail hidden bound items
  | _ => True

/-- What stands behind the first form is safe. -/
def SafeTail (hidden : List Bytes) (bound : Bytes → Prop) : List Form → Prop
  | [] => True
  | _ :: rest => SafeAll hidden bound rest

end

variable {hidden : List Bytes}

mutual

theorem Safe.mono {bound bound' : Bytes → Prop} (hb : ∀ k, bound k → bound' k) :
    ∀ f, Safe hidden bound f → Safe hidden bound' f
  | .atom _, _ => trivial
  | .text _, _ => trivial
  | .list items, h => SafeItems.mono hb items h

theorem SafeItems.mono {bound bound' : Bytes → Prop} (hb : ∀ k, bound k → bound' k) :
    ∀ fs, SafeItems hidden bound fs → SafeItems hidden bound' fs
  | [], _ => trivial
  | head :: rest, h => by
    simp only [SafeItems] at h ⊢
    cases hop : Opcode.ofName head.word with
    | block | loop =>
      simp only [hop] at h ⊢
      exact SafeBody.mono hb rest h
    | br =>
      simp only [hop] at h ⊢
      exact fun l hl => hb _ (h l hl)
    | getLocal | setLocal =>
      simp only [hop] at h ⊢
      exact ⟨h.1, SafeAll.mono hb rest h.2⟩
    | switch kw =>
      simp only [hop] at h ⊢
      exact SafeSwitch.mono hb rest h
    | _ =>
      simp only [hop] at h ⊢
      exact SafeAll.mono hb rest h

theorem SafeAll.mono {bound bound' : Bytes → Prop} (hb : ∀ k, bound k → bound' k) :
    ∀ fs, SafeAll hidden bound fs → SafeAll hidden bound' fs
  | [], _ => trivial
  | f :: rest, h => ⟨Safe.mono hb f h.1, SafeAll.mono hb rest h.2⟩

theorem SafeBody.mono {bound bound' : Bytes → Prop} (hb : ∀ k, bound k → bound' k) :
    ∀ fs, SafeBody hidden bound fs → SafeBody hidden bound' fs
  | [], _ => trivial
  | first :: body, h =>
    ⟨Safe.mono hb first h.1, SafeAll.mono (fun k => Or.imp_right (hb k)) body h.2⟩

theorem SafeSwitch.mono {bound bound' : Bytes → Prop} (hb : ∀ k, bound k → bound' k) :
    ∀ fs, SafeSwitch hidden bound fs → SafeSwitch hidden bound' fs
  | [], _ => trivial
  | key :: arms, h => ⟨Safe.mono hb key h.1, SafeArms.mono hb arms h.2⟩

theorem SafeArms.mono {bound bound' : Bytes → Prop} (hb : ∀ k, bound k → bound' k) :
    ∀ fs, SafeArms hidden bound fs → SafeArms hidden bound' fs
  | [], _ => trivial
  | arm :: rest, h => ⟨SafeArm.mono hb arm h.1, SafeArms.mono hb rest h.2⟩

theorem SafeArm.mono {bound bound' : Bytes → Prop} (hb : ∀ k, bound k → bound' k) :
    ∀ f, SafeArm hidden bound f → SafeArm hidden bound' f
  | .atom _, _ => trivial
  | .text _, _ => trivial
  | .list items, h => SafeTail.mono hb items h

theorem SafeTail.mono {bound bound' : Bytes → Prop} (hb : ∀ k, bound k → bound' k) :
    ∀ fs, SafeTail hidden bound fs → SafeTail hidden bound' fs
  | [], _ => trivial
  | _ :: rest, h => SafeAll.mono hb rest h

end

mutual

/-- Where nothing is hidden and every label is bound, every form is safe. -/
theorem safe_free : ∀ f, Safe [] (fun _ => True) f
  | .atom _ => trivial
  | .text _ => trivial
  | .list items => safeItems_free items

theorem safeItems_free : ∀ fs, SafeItems [] (fun _ => True) fs
  | [] => trivial
  | head :: rest => by
    simp only [SafeItems]
    split
    · exact safeBody_free rest
    · exact safeBody_free rest
    · exact fun _ _ => trivial
    · exact ⟨fun _ _ => List.not_mem_nil, safeAll_free rest⟩
    · exact ⟨fun _ _ => List.not_mem_nil, safeAll_free rest⟩
    · exact safeSwitch_free rest
    · exact safeAll_free rest

theorem safeAll_free : ∀ fs, SafeAll [] (fun _ => True) fs
  | [] => trivial
  | f :: rest => ⟨safe_free f, safeAll_free rest⟩

theorem safeBody_free : ∀ fs, SafeBody [] (fun _ => True) fs
  | [] => trivial
  | first :: body =>
    ⟨safe_free first, SafeAll.mono (fun _ _ => .inr trivial) body (safeAll_free body)⟩

theorem safeSwitch_free : ∀ fs, SafeSwitch [] (fun _ => True) fs
  | [] => trivial
  | key :: arms => ⟨safe_free key, safeArms_free arms⟩

theorem safeArms_free : ∀ fs, SafeArms [] (fun _ => True) fs
  | [] => trivial
  | arm :: rest => ⟨safeArm_free arm, safeArms_free rest⟩

theorem safeArm_free : ∀ f, SafeArm [] (fun _ => True) f
  | .atom _ => trivial
  | .text _ => trivial
  | .list items => safeTail_free items

theorem safeTail_free : ∀ fs, SafeTail [] (fun _ => True) fs
  | [] => trivial
  | _ :: rest => safeAll_free rest

end

end Form

namespace Locals

theorem lookup_set_self (name : Bytes) (v : Value) (l : Locals) :
    List.lookup name (Locals.set name v l) = some v := by
  induction l with
  | nil => simp [Locals.set]
  | cons p rest ih =>
    obtain ⟨k, old⟩ := p
    by_cases hk : k = name
    · simp [Locals.set, hk]
    · simp only [Locals.set, if_neg hk, List.lookup_cons, beq_eq_false_iff_ne.mpr (Ne.symm hk)]
      exact ih

theorem lookup_set_of_ne {name other : Bytes} (h : other ≠ name) (v : Value) (l : Locals) :
    List.lookup other (Locals.set name v l) = List.lookup other l := by
  induction l with
  | nil => simp [Locals.set, List.lookup_cons, beq_eq_false_iff_ne.mpr h]
  | cons p rest ih =>
    obtain ⟨k, old⟩ := p
    by_cases hk : k = name
    · subst hk
      simp [Locals.set, List.lookup_cons, beq_eq_false_iff_ne.mpr h]
    · simp only [Locals.set, if_neg hk, List.lookup_cons, ih]

theorem filter_set_of_mem {hidden : List Bytes} {name : Bytes} (hname : name ∈ hidden) (v : Value)
    (l : Locals) :
    (Locals.set name v l).filter (fun p => !hidden.contains p.1)
      = l.filter fun p => !hidden.contains p.1 := by
  induction l with
  | nil => simp [Locals.set, hname]
  | cons p rest ih =>
    obtain ⟨k, old⟩ := p
    by_cases hk : k = name
    · simp [Locals.set, hk, hname]
    · simp only [Locals.set, if_neg hk, List.filter_cons, ih]

end Locals

/-- What code sees of a machine that does not name the locals of `hidden`. -/
def Machine.visible (hidden : List Bytes) (m : Machine) : Machine :=
  { m with steps := 0, locals := m.locals.filter fun p => !hidden.contains p.1 }

/-- The machine has all locals of `hidden`. -/
def Machine.Has (hidden : List Bytes) (m : Machine) : Prop :=
  ∀ name ∈ hidden, (m.locals.lookup name).isSome

/-- What a run is given, with another budget. -/
def MachineEnv.within (env : MachineEnv) (budget : Nat) : MachineEnv :=
  { env with maxSteps := budget }

namespace Trap

/-- A trap without its line. -/
def plain (t : Trap) : Trap := { t with line := 0 }

/-- The trap of a machine whose steps are used up. -/
def Exhausts (budget : Nat) (t : Trap) : Prop :=
  t.code = .stepLimit ∧ t.message = "step budget of " ++ Bytes.ofNat budget ++ " exhausted"

/-- The trap of a branch that no block or loop takes. -/
def IsStray (t : Trap) : Prop :=
  t.code = .unknownName ∧ ("br to unknown label " : Bytes) <+: t.message

end Trap

/-- The functions of a module branch only to labels around the branch. -/
def Script.Module.Closed (mod : Script.Module) : Prop :=
  ∀ name fn, (mod.func? name = some fn ∨ mod.export? name = some fn) →
    Form.SafeAll [] (fun _ => False) (SourceForm.forms fn.body)

/-- Two runs against one module: their budgets, and the counts of steps that they start with. The
second run has at least as many steps left as the first one. -/
structure Twins where
  env : MachineEnv
  /-- Whether hidden locals may be absent, as those of directives may. -/
  absent : Prop
  budget₁ : Nat
  budget₂ : Nat
  start₁ : Nat
  start₂ : Nat
  le : budget₁ + start₂ ≤ budget₂ + start₁

namespace Twins

/-- What the first run is given. -/
def env₁ (w : Twins) : MachineEnv := w.env.within w.budget₁

/-- What the second run is given. -/
def env₂ (w : Twins) : MachineEnv := w.env.within w.budget₂

end Twins

namespace Eval

variable {α β : Type} {w : Twins} {hidden : List Bytes} {bound : Bytes → Prop}

/-- Two machines differ in hidden locals only, and both have taken the same number of steps. -/
structure Alike (w : Twins) (hidden : List Bytes) (m₁ m₂ : Machine) : Prop where
  visible : m₁.visible hidden = m₂.visible hidden
  steps : m₂.steps + w.start₁ = m₁.steps + w.start₂
  has₁ : w.absent ∨ m₁.Has hidden
  has₂ : w.absent ∨ m₂.Has hidden

/-- Two runs end alike, or the first one used up its budget. Branches go to labels of `bound`, and
no branch of a function whose branches go to labels around them is lost. -/
inductive Agree (w : Twins) (hidden : List Bytes) (bound : Bytes → Prop) :
    EStateM.Result Stop Machine α → EStateM.Result Stop Machine α → Prop where
  | ok {a : α} {m₁ m₂ : Machine} (hm : Alike w hidden m₁ m₂) :
    Agree w hidden bound (.ok a m₁) (.ok a m₂)
  | branch {l : Bytes} {m₁ m₂ : Machine} (hl : bound l) (hm : Alike w hidden m₁ m₂) :
    Agree w hidden bound (.error (.branch l) m₁) (.error (.branch l) m₂)
  | ret {v : Value} {m₁ m₂ : Machine} (hm : Alike w hidden m₁ m₂) :
    Agree w hidden bound (.error (.ret v) m₁) (.error (.ret v) m₂)
  | trap {t u : Trap} {m₁ m₂ : Machine} (ht : t.plain = u.plain)
    (hstray : w.env.module.Closed → ¬t.IsStray) (hm : Alike w hidden m₁ m₂) :
    Agree w hidden bound (.error (.trap t) m₁) (.error (.trap u) m₂)
  | crash {m₁ m₂ : Machine} (hm : Alike w hidden m₁ m₂) :
    Agree w hidden bound (.error .crash m₁) (.error .crash m₂)
  | exhausted {t : Trap} {m₁ : Machine} {r : EStateM.Result Stop Machine α}
    (ht : t.Exhausts w.budget₁) : Agree w hidden bound (.error (.trap t) m₁) r

/-- From machines that are alike, two actions end alike. -/
def Sim (w : Twins) (hidden : List Bytes) (bound : Bytes → Prop) (act₁ act₂ : Eval α) : Prop :=
  ∀ m₁ m₂, Alike w hidden m₁ m₂ → Agree w hidden bound (act₁ m₁) (act₂ m₂)

theorem sim_pure (a : α) : Sim w hidden bound (pure a) (pure a) := by
  intro m₁ m₂ hm
  exact .ok hm

/-- One action after another, which is given a value that the first one can have. -/
theorem sim_bind_of {act₁ act₂ : Eval α} {k₁ k₂ : α → Eval β}
    (hact : Sim w hidden bound act₁ act₂)
    (hk : ∀ a, (∃ m m', act₁ m = .ok a m') → Sim w hidden bound (k₁ a) (k₂ a)) :
    Sim w hidden bound (act₁ >>= k₁) (act₂ >>= k₂) := by
  intro m₁ m₂ hm
  have hr := hact m₁ m₂ hm
  show Agree w hidden bound (EStateM.bind act₁ k₁ m₁) (EStateM.bind act₂ k₂ m₂)
  simp only [EStateM.bind]
  cases hact₁ : act₁ m₁ with
  | ok a x₁ =>
    rw [hact₁] at hr
    generalize act₂ m₂ = r₂ at hr ⊢
    cases hr with
    | ok hm => exact hk a ⟨m₁, x₁, hact₁⟩ _ _ hm
  | error s x₁ =>
    rw [hact₁] at hr
    generalize act₂ m₂ = r₂ at hr ⊢
    cases hr with
    | branch hl hm => exact .branch hl hm
    | ret hm => exact .ret hm
    | trap ht hstray hm => exact .trap ht hstray hm
    | crash hm => exact .crash hm
    | exhausted ht => exact .exhausted ht

theorem sim_bind {act₁ act₂ : Eval α} {k₁ k₂ : α → Eval β} (hact : Sim w hidden bound act₁ act₂)
    (hk : ∀ a, Sim w hidden bound (k₁ a) (k₂ a)) :
    Sim w hidden bound (act₁ >>= k₁) (act₂ >>= k₂) :=
  sim_bind_of hact fun a _ => hk a

/-- Something that is only done if a condition holds. -/
theorem sim_unless {p : Prop} [Decidable p] {act : Eval PUnit} {k₁ k₂ : PUnit → Eval α}
    (hact : Sim w hidden bound act act) (hk : ∀ u, Sim w hidden bound (k₁ u) (k₂ u)) :
    Sim w hidden bound (if p then act >>= k₁ else k₁ ()) (if p then act >>= k₂ else k₂ ()) := by
  split
  · exact sim_bind hact hk
  · exact hk ()

theorem sim_get {k₁ k₂ : Machine → Eval α}
    (hk : ∀ x₁ x₂, Alike w hidden x₁ x₂ → Sim w hidden bound (k₁ x₁) (k₂ x₂)) :
    Sim w hidden bound (get >>= k₁) (get >>= k₂) := by
  intro m₁ m₂ hm
  exact hk m₁ m₂ hm m₁ m₂ hm

theorem sim_modify {g : Machine → Machine}
    (hg : ∀ x₁ x₂, Alike w hidden x₁ x₂ → Alike w hidden (g x₁) (g x₂)) :
    Sim w hidden bound (modify g) (modify g) := by
  intro m₁ m₂ hm
  exact .ok (hg m₁ m₂ hm)

theorem sim_throw_trap {t : Trap} (ht : ¬t.IsStray) :
    Sim w hidden bound (throw (.trap t) : Eval α) (throw (.trap t)) := by
  intro m₁ m₂ hm
  exact .trap rfl (fun _ => ht) hm

/-- A trap that is not about a name. -/
theorem sim_trap {code : TrapCode} {message : Bytes} (hcode : code ≠ .unknownName) :
    Sim w hidden bound (trap code message : Eval α) (trap code message) :=
  sim_throw_trap fun h => hcode h.1

/-- A trap about a name that is no label. -/
theorem sim_trap_name {message : Bytes} (b : UInt8) (hmessage : message.head? = some b)
    (hb : b ≠ 98) :
    Sim w hidden bound (trap .unknownName message : Eval α) (trap .unknownName message) := by
  refine sim_throw_trap fun h => hb ?_
  obtain ⟨rest, hrest⟩ := h.2
  rw [show message = _ from hrest.symm] at hmessage
  exact Option.some.inj hmessage.symm

theorem sim_lift {e : Except Trap α} (he : ∀ t, e = .error t → t.code ≠ .unknownName) :
    Sim w hidden bound (lift e) (lift e) := by
  cases e with
  | ok a => exact sim_pure a
  | error t => exact sim_throw_trap fun h => he t rfl h.1

theorem sim_throw_ret (v : Value) :
    Sim w hidden bound (throw (.ret v) : Eval α) (throw (.ret v)) := by
  intro m₁ m₂ hm
  exact .ret hm

theorem sim_operand (vs : List Value) (i : Nat) :
    Sim w hidden bound (operand vs i) (operand vs i) := by
  unfold operand
  split
  · exact sim_pure _
  · exact fun _ _ hm => .crash hm

theorem sim_throw_branch {l : Bytes} (hl : bound l) :
    Sim w hidden bound (throw (.branch l) : Eval α) (throw (.branch l)) := by
  intro m₁ m₂ hm
  exact .branch hl hm

theorem plain_atLine (t : Trap) (line : UInt32) : (t.atLine line).plain = t.plain := by
  unfold Trap.atLine
  split <;> rfl

theorem exhausts_atLine {budget : Nat} {t : Trap} (line : UInt32) (h : t.Exhausts budget) :
    (t.atLine line).Exhausts budget := by
  unfold Trap.atLine
  split
  · exact h
  · exact h

theorem isStray_atLine {t : Trap} {line : UInt32} (h : (t.atLine line).IsStray) : t.IsStray := by
  unfold Trap.atLine at h
  split at h
  · exact h
  · exact h

theorem sim_atLine {act₁ act₂ : Eval α} (line₁ line₂ : UInt32)
    (hact : Sim w hidden bound act₁ act₂) :
    Sim w hidden bound (atLine line₁ act₁) (atLine line₂ act₂) := by
  intro m₁ m₂ hm
  have hr := hact m₁ m₂ hm
  simp only [atLine]
  generalize act₁ m₁ = r₁ at hr ⊢
  generalize act₂ m₂ = r₂ at hr ⊢
  cases hr with
  | ok hm => exact .ok hm
  | branch hl hm => exact .branch hl hm
  | ret hm => exact .ret hm
  | trap ht hstray hm =>
    refine .trap ?_ (fun hclosed h => hstray hclosed (isStray_atLine h)) hm
    rw [plain_atLine, plain_atLine, ht]
  | crash hm => exact .crash hm
  | exhausted ht => exact .exhausted (exhausts_atLine line₁ ht)

/-- A step that the first run may take can be taken by the second one too. -/
theorem sim_step : Sim w hidden bound (step w.env₁) (step w.env₂) := by
  intro m₁ m₂ hm
  show Agree w hidden bound
    ((if w.budget₁ < m₁.steps + 1 then trap .stepLimit _ else pure ()) _)
    ((if w.budget₂ < m₂.steps + 1 then trap .stepLimit _ else pure ()) _)
  have hsteps := hm.steps
  have hle := w.le
  by_cases hused : w.budget₁ < m₁.steps + 1
  · rw [if_pos hused]
    exact .exhausted ⟨rfl, rfl⟩
  · rw [if_neg hused, if_neg (by omega)]
    refine .ok ⟨hm.visible, ?_, hm.has₁, hm.has₂⟩
    show m₂.steps + 1 + w.start₁ = m₁.steps + 1 + w.start₂
    omega

theorem lookup_filter_hidden {name : Bytes} (hname : name ∉ hidden) (l : Locals) :
    (l.filter fun p => !hidden.contains p.1).lookup name = l.lookup name := by
  induction l with
  | nil => rfl
  | cons p rest ih =>
    obtain ⟨n, v⟩ := p
    by_cases hn : name = n
    · subst hn
      simp [hname]
    · by_cases hmem : n ∈ hidden
      · simpa [hmem, List.lookup_cons, beq_eq_false_iff_ne.mpr hn] using ih
      · simpa [hmem, List.lookup_cons, beq_eq_false_iff_ne.mpr hn] using ih

theorem filter_hidden_set {name : Bytes} (hname : name ∉ hidden) (v : Value) (l : Locals) :
    (Locals.set name v l).filter (fun p => !hidden.contains p.1)
      = Locals.set name v (l.filter fun p => !hidden.contains p.1) := by
  induction l with
  | nil => simp [Locals.set, hname]
  | cons p rest ih =>
    obtain ⟨n, old⟩ := p
    by_cases hn : n = name
    · subst hn
      simp [Locals.set, hname]
    · by_cases hmem : n ∈ hidden
      · simpa [Locals.set, hn, hmem] using ih
      · simpa [Locals.set, hn, hmem] using ih

theorem isSome_lookup_set {name other : Bytes} {v : Value} {l : Locals}
    (h : (l.lookup other).isSome) : ((Locals.set name v l).lookup other).isSome := by
  induction l with
  | nil => simp at h
  | cons p rest ih =>
    obtain ⟨n, old⟩ := p
    by_cases hn : n = name
    · rw [Locals.set, if_pos hn, List.lookup_cons]
      rw [List.lookup_cons] at h
      cases hother : other == n with
      | true => rfl
      | false => simpa only [hother] using h
    · rw [Locals.set, if_neg hn, List.lookup_cons]
      rw [List.lookup_cons] at h
      cases hother : other == n with
      | true => rfl
      | false => exact ih (by simpa only [hother] using h)

theorem Alike.lookup {m₁ m₂ : Machine} {name : Bytes} (hm : Alike w hidden m₁ m₂)
    (hname : name ∉ hidden) : m₁.locals.lookup name = m₂.locals.lookup name := by
  have hlocals : (m₁.visible hidden).locals = (m₂.visible hidden).locals :=
    congrArg Machine.locals hm.visible
  rw [← lookup_filter_hidden hname m₁.locals, ← lookup_filter_hidden hname m₂.locals]
  exact congrArg (List.lookup name) hlocals

theorem Alike.set {m₁ m₂ : Machine} {name : Bytes} (hm : Alike w hidden m₁ m₂)
    (hname : name ∉ hidden) (v : Value) :
    Alike w hidden { m₁ with locals := m₁.locals.set name v }
      { m₂ with locals := m₂.locals.set name v } := by
  refine ⟨?_, hm.steps, hm.has₁.imp_right fun h n hn => isSome_lookup_set (h n hn),
    hm.has₂.imp_right fun h n hn => isSome_lookup_set (h n hn)⟩
  have hlocals : (m₁.visible hidden).locals = (m₂.visible hidden).locals :=
    congrArg Machine.locals hm.visible
  have hset : ∀ m : Machine, ({ m with locals := m.locals.set name v } : Machine).visible hidden
      = { m.visible hidden with locals := Locals.set name v (m.visible hidden).locals } := by
    intro m
    simp only [Machine.visible, filter_hidden_set hname]
  rw [hset, hset, hm.visible]

/-- Machines that are alike stay alike under a change of what both see. -/
theorem Alike.update {m₁ m₂ : Machine} (hm : Alike w hidden m₁ m₂) (g : Machine → Machine)
    (hg : ∀ m, (g m).visible hidden = g (m.visible hidden)) (hlocals : ∀ m, (g m).locals = m.locals)
    (hsteps : ∀ m, (g m).steps = m.steps) : Alike w hidden (g m₁) (g m₂) := by
  refine ⟨by rw [hg, hg, hm.visible], ?_, ?_, ?_⟩
  · rw [hsteps, hsteps]
    exact hm.steps
  · exact hm.has₁.imp_right fun h n hn => by rw [hlocals]; exact h n hn
  · exact hm.has₂.imp_right fun h n hn => by rw [hlocals]; exact h n hn

theorem Alike.memory {m₁ m₂ : Machine} (hm : Alike w hidden m₁ m₂) : m₁.memory = m₂.memory := by
  have h : (m₁.visible hidden).memory = (m₂.visible hidden).memory := by rw [hm.visible]
  exact h

theorem Alike.output {m₁ m₂ : Machine} (hm : Alike w hidden m₁ m₂) : m₁.output = m₂.output := by
  have h : (m₁.visible hidden).output = (m₂.visible hidden).output := by rw [hm.visible]
  exact h

/-- What a block with a label makes of the way its body ends. -/
def caught (label : Option Bytes) :
    EStateM.Result Stop Machine Value → EStateM.Result Stop Machine Value
  | .error s m => if goesTo label s then .ok .void m else .error s m
  | .ok v m => .ok v m

theorem block_eq (eval : Inner) (f : Frame) (ns : List SourceForm) (m : Machine) :
    block eval f ns m = caught (splitLabel ns).1 (seq eval f (splitLabel ns).2 m) := by
  simp only [block]
  cases seq eval f (splitLabel ns).2 m <;> rfl

end Eval

end WastForge
