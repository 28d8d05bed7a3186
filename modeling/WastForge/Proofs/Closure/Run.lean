import Mathlib.Logic.Basic
import WastForge.Proofs.Machine.Agree
import WastForge.Proofs.Machine.Independence
import WastForge.Proofs.Text.Reading

/-!
# Runs of code whose names are found

Instructions name functions, functions from outside and locals. What a form refers to is collected
from it and from all forms inside of it, as the machine would look for it, and a trap may say that
such a name was not found.

Code that names only what the module and its own function declare never traps because a name is
missing: every form finds what it names as long as the locals of its function stay, and so does
every form inside of it.
-/

namespace WastForge

/-- A name that an instruction refers to. -/
inductive Reference where
  /-- A function that is called. -/
  | func (name : Bytes)
  /-- A function from outside that is called with a number of operands. -/
  | import_ (name : Bytes) (operands : Nat)
  /-- A local that is read or written. -/
  | local_ (name : Bytes)
  deriving Repr, DecidableEq

namespace Form

/-- The name that an instruction refers to itself. -/
def named (op target : Bytes) (operands : Nat) : List Reference :=
  if op = "call" then [.func target]
  else if op = "call_import" then [.import_ target operands]
  else if op = "get_local" ∨ op = "set_local" then [.local_ target]
  else []

/-- The name that a list of these forms refers to itself. -/
def namedIn : List Form → List Reference
  | head :: target :: operands => named head.word target.word operands.length
  | _ => []

mutual

/-- What a form refers to, with all forms inside of it. -/
def references : Form → List Reference
  | .list items => namedIn items ++ referencesAll items
  | _ => []

/-- What forms one after the other refer to. -/
def referencesAll : List Form → List Reference
  | [] => []
  | f :: rest => f.references ++ referencesAll rest

end

variable {r : Reference} {fs : List Form}

theorem mem_referencesAll : r ∈ referencesAll fs ↔ ∃ f ∈ fs, r ∈ f.references := by
  induction fs with
  | nil => simp [referencesAll]
  | cons f rest ih => simp [referencesAll, ih]

end Form

namespace Trap

/-- The trap says that the name was not found. -/
def Misses (t : Trap) (r : Reference) : Prop :=
  t.code = .unknownName ∧
    match r with
    | .func name => t.message = "call to unknown function " ++ name
    | .import_ name _ => t.message = "call to undeclared import " ++ name
    | .local_ name => ∃ func, t.message = "unknown local " ++ name ++ " in " ++ func

/-- If the trap says that a name was not found, then it is that of a function that is lacking. -/
def Excused (lacks : Bytes → Prop) (t : Trap) : Prop :=
  ∀ r, t.Misses r → ∃ name, r = .func name ∧ lacks name

variable {lacks : Bytes → Prop} {t : Trap}

theorem excused_of_code (h : t.code ≠ .unknownName) : t.Excused lacks :=
  fun _ hr => absurd hr.1 h

/-- How the messages begin that say that a name was not found. -/
theorem Misses.begins {r : Reference} (h : t.Misses r) :
    t.message.head? = some 99 ∨ t.message.head? = some 117 ∧ t.message[8]? = some 108 := by
  obtain ⟨-, hr⟩ := h
  cases r with
  | func name | import_ name n =>
    rw [hr]
    exact .inl rfl
  | local_ name =>
    obtain ⟨func, hr⟩ := hr
    rw [hr]
    exact .inr ⟨rfl, rfl⟩

/-- A trap about something else than a name that code refers to, by the start of its message. -/
theorem excused_of_head (c : UInt8) (h : t.message.head? = some c) (hc : c ≠ 99 ∧ c ≠ 117) :
    t.Excused lacks := by
  intro r hr
  rcases hr.begins with hhead | ⟨hhead, -⟩
  · exact absurd (Option.some.inj (h.symm.trans hhead)) hc.1
  · exact absurd (Option.some.inj (h.symm.trans hhead)) hc.2

/-- A trap about something that is unknown, but no local. -/
theorem excused_of_unknown (c : UInt8) (h : t.message.head? = some 117)
    (h8 : t.message[8]? = some c) (hc : c ≠ 108) : t.Excused lacks := by
  intro r hr
  rcases hr.begins with hhead | ⟨-, hlocal⟩
  · exact absurd (Option.some.inj (h.symm.trans hhead)) (by decide)
  · exact absurd (Option.some.inj (h8.symm.trans hlocal)) hc

theorem excused_func {name : Bytes} (h : lacks name)
    (hmessage : t.message = "call to unknown function " ++ name) : t.Excused lacks := by
  rintro r ⟨-, hr⟩
  cases r with
  | func other =>
    obtain rfl := List.append_cancel_left (hmessage.symm.trans hr)
    exact ⟨_, rfl, h⟩
  | import_ other n =>
    have htake := congrArg (List.take 15) (hmessage.symm.trans hr)
    exact absurd (show ("call to unknown" : Bytes) = "call to undecla" from htake) (by decide)
  | local_ other =>
    obtain ⟨func, hr⟩ := hr
    have htake := congrArg (List.take 4) (hmessage.symm.trans hr)
    rw [List.append_assoc, List.append_assoc] at htake
    exact absurd (show ("call" : Bytes) = "unkn" from htake) (by decide)

theorem Excused.atLine (h : t.Excused lacks) (line : UInt32) : (t.atLine line).Excused lacks := by
  unfold Trap.atLine
  split
  · exact h
  · exact h

end Trap

/-- The name is that of a parameter or local of the function. -/
def Script.Function.Declares (fn : Script.Function) (name : Bytes) : Prop :=
  name ∈ fn.params ∨ name ∈ fn.locals.map (·.1)

namespace Script.Module

/-- What code finds whose locals are those of `scope`; functions may be lacking. -/
def Answers (m : Module) (lacks scope : Bytes → Prop) : Reference → Prop
  | .func name => (m.func? name).isSome ∨ lacks name
  | .import_ name _ => (m.import? name).isSome
  | .local_ name => scope name

/-- The functions find all that their code refers to. -/
def Resolves (m : Module) (lacks : Bytes → Prop) : Prop :=
  ∀ name fn, (m.func? name = some fn ∨ m.export? name = some fn) →
    ∀ n ∈ fn.body, ∀ r ∈ n.form.references, m.Answers lacks fn.Declares r

end Script.Module

namespace Opcode

/-- The word of an instruction that refers to a name. -/
def namingWord : Opcode → Option Bytes
  | .call => some "call"
  | .callImport => some "call_import"
  | .getLocal => some "get_local"
  | .setLocal => some "set_local"
  | _ => none

theorem namingWord_ofTyped (w : Bytes) : (ofTyped w).namingWord = none := by
  unfold ofTyped
  repeat' split
  all_goals rfl

theorem word_of_ofName {w word : Bytes} {op : Opcode} (h : ofName w = op)
    (hop : op.namingWord = some word) : w = word := by
  unfold ofName at h
  iterate 16
    rcases ite_eq_iff.mp h with ⟨hw, rfl⟩ | ⟨_, h⟩
    · first
        | exact (beq_iff_eq.mp hw).trans (Option.some.inj hop)
        | cases hop
  rw [← h, namingWord_ofTyped] at hop
  cases hop

end Opcode

namespace Eval

open Form (references named)

variable {α β : Type} {env : MachineEnv} {lacks scope : Bytes → Prop} {f : Frame}

/-- In a function, the machine has the locals that are declared. -/
def Stands (scope : Bytes → Prop) (f : Frame) (m : Machine) : Prop :=
  f.func.isSome → ∀ name, scope name → (m.locals.lookup name).isSome

/-- The locals are still there, and a trap is excused. -/
def Found (lacks scope : Bytes → Prop) (f : Frame) : EStateM.Result Stop Machine α → Prop
  | .ok _ m => Stands scope f m
  | .error (.trap t) m => t.Excused lacks ∧ Stands scope f m
  | .error _ m => Stands scope f m

/-- The action finds what it refers to. -/
def Finds (lacks scope : Bytes → Prop) (f : Frame) (act : Eval α) : Prop :=
  ∀ m, Stands scope f m → Found lacks scope f (act m)

theorem finds_pure (a : α) : Finds lacks scope f (pure a) := fun _ hm => hm

theorem finds_throw_trap {t : Trap} (h : t.Excused lacks) :
    Finds lacks scope f (throw (.trap t) : Eval α) := fun _ hm => ⟨h, hm⟩

/-- A trap that is not about a name. -/
theorem finds_trap {code : TrapCode} {message : Bytes} (h : code ≠ .unknownName) :
    Finds lacks scope f (trap code message : Eval α) :=
  finds_throw_trap (Trap.excused_of_code h)

theorem finds_lift {e : Except Trap α} (h : ∀ t, e = .error t → t.code ≠ .unknownName) :
    Finds lacks scope f (lift e) := by
  cases e with
  | ok a => exact finds_pure a
  | error t => exact finds_throw_trap (Trap.excused_of_code (h t rfl))

theorem finds_operand (vs : List Value) (i : Nat) :
    Finds lacks scope f (operand vs i) := by
  unfold operand
  split
  · exact finds_pure _
  · exact fun _ hm => hm

theorem finds_modify {change : Machine → Machine}
    (h : ∀ m, Stands scope f m → Stands scope f (change m)) :
    Finds lacks scope f (modify change : Eval PUnit) := fun m hm => h m hm

/-- A change of something else than the locals. -/
theorem finds_change {change : Machine → Machine} (h : ∀ m, (change m).locals = m.locals) :
    Finds lacks scope f (modify change : Eval PUnit) :=
  finds_modify fun m hm hf name hname => by
    rw [h m]
    exact hm hf name hname

theorem finds_bind_of {act : Eval α} {next : α → Eval β} (hact : Finds lacks scope f act)
    (hnext : ∀ a, (∃ m m', act m = .ok a m') → Finds lacks scope f (next a)) :
    Finds lacks scope f (act >>= next) := by
  intro m hm
  have hfound := hact m hm
  show Found lacks scope f (EStateM.bind act next m)
  unfold EStateM.bind
  cases hrun : act m with
  | ok a m' =>
    rw [hrun] at hfound
    exact hnext a ⟨m, m', hrun⟩ m' hfound
  | error s m' =>
    rw [hrun] at hfound
    cases s with
    | trap t => exact hfound
    | branch _ | ret _ | crash => exact hfound

theorem finds_bind {act : Eval α} {next : α → Eval β} (hact : Finds lacks scope f act)
    (hnext : ∀ a, Finds lacks scope f (next a)) : Finds lacks scope f (act >>= next) :=
  finds_bind_of hact fun a _ => hnext a

theorem finds_get {next : Machine → Eval α}
    (h : ∀ m, Stands scope f m → Finds lacks scope f (next m)) :
    Finds lacks scope f (get >>= next) := fun m hm => h m hm m hm

theorem finds_ite {p : Prop} [Decidable p] {yes no : Eval α} (hyes : Finds lacks scope f yes)
    (hno : Finds lacks scope f no) : Finds lacks scope f (if p then yes else no) := by
  split
  · exact hyes
  · exact hno

/-- A trap under a condition, after which nothing is done, or the rest. -/
theorem finds_unless {p : Prop} [Decidable p] {t : Trap} {next : PUnit → Eval α}
    (ht : t.Excused lacks) (hnext : ¬p → Finds lacks scope f (next ())) :
    Finds lacks scope f (if p then throw (.trap t) >>= next else next ()) := by
  split
  · exact fun m hm => ⟨ht, hm⟩
  · exact hnext ‹_›

theorem finds_guard {p : Prop} [Decidable p] {code : TrapCode} {message : Bytes}
    {next : PUnit → Eval α} (hcode : code ≠ .unknownName)
    (hnext : Finds lacks scope f (next ())) :
    Finds lacks scope f (if p then trap code message >>= next else next ()) :=
  finds_unless (Trap.excused_of_code hcode) fun _ => hnext

theorem finds_atLine {act : Eval α} (line : UInt32) (h : Finds lacks scope f act) :
    Finds lacks scope f (atLine line act) := by
  intro m hm
  have hfound := h m hm
  unfold atLine
  generalize act m = r at hfound ⊢
  cases r with
  | ok a m' => exact hfound
  | error s m' =>
    cases s with
    | trap t => exact ⟨hfound.1.atLine line, hfound.2⟩
    | branch _ | ret _ | crash => exact hfound

/-- The form refers only to what is found. -/
def Known (env : MachineEnv) (lacks scope : Bytes → Prop) (n : SourceForm) : Prop :=
  ∀ r ∈ n.form.references, env.module.Answers lacks scope r

theorem references_args {n a : SourceForm} (ha : a ∈ n.args) {r : Reference}
    (hr : r ∈ a.form.references) : r ∈ n.form.references := by
  cases n with
  | list line items =>
    cases items with
    | nil => cases ha
    | cons first rest =>
      refine List.mem_append_right _ (Form.mem_referencesAll.mpr ⟨a.form, ?_, hr⟩)
      rw [SourceForm.forms_eq_map]
      exact List.mem_map_of_mem (List.mem_cons_of_mem _ ha)
  | _ => cases ha

theorem Known.args {n : SourceForm} (h : Known env lacks scope n) :
    ∀ a ∈ n.args, Known env lacks scope a :=
  fun _ ha r hr => h r (references_args ha hr)

/-- What an instruction refers to itself. -/
theorem named_mem {n target : SourceForm} {operands : List SourceForm}
    (hargs : n.args = target :: operands) {r : Reference}
    (hr : r ∈ named n.head target.word operands.length) : r ∈ n.form.references := by
  cases n with
  | list line items =>
    cases items with
    | nil => cases hargs
    | cons first rest =>
      obtain rfl : rest = target :: operands := hargs
      refine List.mem_append_left _ ?_
      show r ∈ named first.form.word target.form.word (SourceForm.forms operands).length
      rwa [SourceForm.word_form, SourceForm.word_form, SourceForm.forms_eq_map, List.length_map]
  | _ => cases hargs

section

variable {eval : Inner} (heval : ∀ {scope : Bytes → Prop} {f : Frame} {n : SourceForm},
  Known env lacks scope n → Finds lacks scope f (eval f n))

include heval

theorem finds_seq : ∀ {ns : List SourceForm}, (∀ n ∈ ns, Known env lacks scope n) →
    Finds lacks scope f (seq eval f ns)
  | [], _ => finds_pure _
  | [n], h => heval (h n List.mem_cons_self)
  | n :: _ :: _, h =>
    finds_bind (heval (h n List.mem_cons_self)) fun _ =>
      finds_seq fun x hx => h x (List.mem_cons_of_mem n hx)

theorem finds_args : ∀ {ns : List SourceForm}, (∀ n ∈ ns, Known env lacks scope n) →
    Finds lacks scope f (args eval f ns)
  | [], _ => finds_pure _
  | n :: rest, h => by
    refine finds_bind (heval (h n List.mem_cons_self)) fun v => ?_
    refine finds_bind (finds_args fun x hx => h x (List.mem_cons_of_mem n hx)) fun vs => ?_
    exact finds_pure _

omit heval in
theorem mem_of_mem_splitLabel {ns : List SourceForm} {n : SourceForm} (h : n ∈ (splitLabel ns).2) :
    n ∈ ns := by
  unfold splitLabel at h
  split at h
  · split at h
    · exact List.mem_cons_of_mem _ h
    · exact h
  · exact h

omit heval in
theorem found_caught {label : Option Bytes} {r : EStateM.Result Stop Machine Value}
    (h : Found lacks scope f r) : Found lacks scope f (caught label r) := by
  cases r with
  | ok v m => exact h
  | error s m =>
    cases s with
    | trap t => exact h
    | ret v => exact h
    | crash => exact h
    | branch l =>
      unfold caught
      simp only
      split
      · exact h
      · exact h

theorem finds_block {ns : List SourceForm} (h : ∀ n ∈ ns, Known env lacks scope n) :
    Finds lacks scope f (block eval f ns) := by
  intro m hm
  rw [block_eq]
  exact found_caught (finds_seq heval (fun n hn => h n (mem_of_mem_splitLabel hn)) m hm)

theorem finds_rounds {ns : List SourceForm} (h : ∀ n ∈ ns, Known env lacks scope n)
    (label : Option Bytes) (fuel : Nat) :
    Finds lacks scope f (rounds env eval f label ns fuel) := by
  induction fuel with
  | zero => exact finds_trap (by decide)
  | succ fuel ih =>
    intro m hm
    have hfound := finds_seq heval (f := f) h m hm
    unfold rounds
    cases hrun : seq eval f ns m with
    | ok v m' =>
      rw [hrun] at hfound
      exact ih m' hfound
    | error s m' =>
      -- a round that ends early ends the loop as it would end a block
      rw [hrun] at hfound
      exact found_caught hfound

theorem finds_loop {ns : List SourceForm} (h : ∀ n ∈ ns, Known env lacks scope n) (fuel : Nat) :
    Finds lacks scope f (loop env eval fuel f ns) :=
  finds_ite (finds_trap (by decide))
    (finds_rounds heval (fun n hn => h n (mem_of_mem_splitLabel hn)) _ fuel)

theorem finds_if {ns : List SourceForm} (h : ∀ n ∈ ns, Known env lacks scope n) :
    Finds lacks scope f (ite eval f ns) := by
  unfold ite
  split
  · simp only [List.forall_mem_cons] at h
    exact finds_bind (heval h.1) fun _ => finds_ite (heval h.2.1) (finds_pure _)
  · simp only [List.forall_mem_cons] at h
    exact finds_bind (heval h.1) fun _ => finds_ite (heval h.2.1) (heval h.2.2.1)
  · exact finds_trap (by decide)

omit heval in
/-- A local that is declared is not missing. -/
theorem finds_getLocal {ns : List SourceForm} (h : ∀ n ∈ ns.head?, scope n.word) :
    Finds lacks scope f (getLocal f ns) := by
  unfold getLocal
  split
  · rename_i name
    refine finds_get fun m hm => ?_
    split
    · exact finds_pure _
    · rename_i hnone hfunc
      have hsome := hm (by rw [hfunc]; rfl) name.word (h name rfl)
      rw [hnone] at hsome
      cases hsome
    · exact finds_pure _
  · exact finds_trap (by decide)

theorem finds_setLocal {ns : List SourceForm} (hname : ∀ n ∈ ns.head?, scope n.word)
    (h : ∀ n ∈ ns, Known env lacks scope n) : Finds lacks scope f (setLocal eval f ns) := by
  unfold setLocal
  split
  · rename_i name value
    refine finds_get fun m hm => ?_
    split
    · rename_i hfunc hnone
      have hsome := hm (by rw [hfunc]; rfl) name.word (hname name rfl)
      rw [hnone] at hsome
      cases hsome
    · refine finds_bind (heval (h value (by simp))) fun v => ?_
      refine finds_bind (finds_modify fun m hm hf x hx => ?_) fun _ => finds_pure v
      exact isSome_lookup_set (hm hf x hx)
  · exact finds_trap (by decide)

omit heval in
theorem isSome_lookup_foldl_set {γ : Type} {g : γ → Bytes} {u : γ → Value} {cs : List γ}
    {l : Locals} {name : Bytes} (h : (l.lookup name).isSome ∨ name ∈ cs.map g) :
    ((cs.foldl (fun l c => Locals.set (g c) (u c) l) l).lookup name).isSome := by
  induction cs generalizing l with
  | nil => exact h.resolve_right List.not_mem_nil
  | cons c rest ih =>
    refine ih ?_
    rcases h with h | h
    · exact .inl (isSome_lookup_set h)
    · rcases List.mem_cons.mp h with rfl | h
      · exact .inl (by rw [Locals.lookup_set_self]; rfl)
      · exact .inr h

omit heval in
/-- A function starts with all its parameters and locals. -/
theorem stands_startLocals {fn : Script.Function} {vs : List Value}
    (hlength : vs.length = fn.params.length) (f : Frame) (m : Machine) :
    Stands fn.Declares f { m with locals := startLocals fn vs } := by
  intro _ name hname
  refine isSome_lookup_foldl_set (g := Prod.fst) (u := fun p => ⟨p.2, 0⟩) ?_
  rcases hname with hparam | hlocal
  · refine .inl (isSome_lookup_foldl_set (g := Prod.fst) (u := Prod.snd) (.inr ?_))
    rwa [List.map_fst_zip (by omega)]
  · exact .inr hlocal

/-- A call finds what the code of the function refers to, and the caller has its locals again. -/
theorem finds_call {fn : Script.Function}
    (hfn : ∀ n ∈ fn.body, Known env lacks fn.Declares n) (vs : List Value) :
    Finds lacks scope f (call eval f fn vs) := by
  unfold call
  refine finds_unless (Trap.excused_of_code nofun) fun hlength => ?_
  refine finds_guard (by decide) fun m hm => ?_
  have hbody := finds_seq heval (f := ⟨some fn.name, f.depth + 1⟩) hfn _
    (stands_startLocals (not_not.mp hlength) _ m)
  show Found lacks scope f (restoreLocals m.locals (endCall fn _))
  generalize seq eval _ fn.body _ = r at hbody ⊢
  match r, hbody with
  | .ok v m', _ => exact hm
  | .error (.ret v) m', _ => exact hm
  | .error (.branch l) m', _ => exact ⟨Trap.excused_of_head 98 rfl (by decide), hm⟩
  | .error (.trap t) m', h => exact ⟨h.1, hm⟩
  | .error .crash m', _ => exact hm

theorem finds_callForm (hres : env.module.Resolves lacks) {ns : List SourceForm}
    (hname : ∀ n ∈ ns.head?, env.module.Answers lacks scope (.func n.word))
    (h : ∀ n ∈ ns, Known env lacks scope n) : Finds lacks scope f (callForm env eval f ns) := by
  unfold callForm
  split
  · exact finds_trap (by decide)
  · rename_i target rest
    have htarget := hname target rfl
    split
    · rename_i hnone
      rw [Script.Module.Answers, hnone] at htarget
      exact finds_throw_trap
        (Trap.excused_func (htarget.resolve_left (by simp)) rfl)
    · rename_i fn hfn
      have hargs := finds_args heval (f := f) fun n hn => h n (List.mem_cons_of_mem _ hn)
      exact finds_bind hargs fun vs => finds_call heval (hres target.word fn (.inl hfn)) vs

omit heval in
theorem finds_output (o : Output) :
    Finds lacks scope f (modify fun m => { m with output := o } : Eval PUnit) :=
  finds_change fun _ => rfl

omit heval in
theorem finds_harness (imp : Script.Import) (vs : List Value) :
    Finds lacks scope f (harness imp vs) := by
  unfold harness
  refine finds_unless (Trap.excused_of_head 105 rfl (by decide)) fun _ => ?_
  refine finds_get fun m _ => finds_ite ?_ (finds_ite ?_ ?_)
  · refine finds_bind (finds_operand vs 0) fun first => ?_
    refine finds_bind (finds_lift fun t => code_string) fun name => ?_
    exact finds_bind (finds_lift fun t => code_redirect) finds_output
  · refine finds_bind (finds_operand vs 1) fun count => finds_guard (by decide) ?_
    refine finds_bind (finds_operand vs 0) fun first => ?_
    refine finds_bind (finds_lift fun t => code_read) fun data => ?_
    exact finds_bind (finds_lift fun t => code_append) finds_output
  · exact finds_throw_trap (Trap.excused_of_unknown 104 rfl rfl (by decide))

theorem finds_callImport {ns : List SourceForm}
    (hname : ∀ n ∈ ns.head?, (env.module.import? n.word).isSome)
    (h : ∀ n ∈ ns, Known env lacks scope n) : Finds lacks scope f (callImport env eval f ns) := by
  unfold callImport
  split
  · exact finds_trap (by decide)
  · rename_i target rest
    have htarget := hname target rfl
    split
    · rename_i hnone
      rw [hnone] at htarget
      cases htarget
    · have hargs := finds_args heval (f := f) fun n hn => h n (List.mem_cons_of_mem _ hn)
      refine finds_bind hargs fun vs => finds_guard (by decide) ?_
      exact finds_bind (finds_harness _ vs) fun _ => finds_pure _

omit heval in
/-- The arms that are chosen are arms of the switch. -/
theorem mem_of_mem_matching {kw : Keyword} {key : UInt64} {arms chosen : List SourceForm}
    {arm : SourceForm} (h : matching kw key arms = .ok (some chosen)) (harm : arm ∈ chosen) :
    arm ∈ arms := by
  induction arms with
  | nil => cases h
  | cons first rest ih =>
    unfold matching at h
    split at h
    · rename_i value _ _ _
      cases hv : Value.ofConstant kw value.word with
      | error t =>
        rw [hv] at h
        cases h
      | ok v =>
        simp only [hv, bind, Except.bind] at h
        split at h
        · obtain rfl := Option.some.inj (Except.ok.inj h)
          exact harm
        · exact List.mem_cons_of_mem _ (ih h)
    · exact List.mem_cons_of_mem _ (ih h)

omit heval in
theorem Known.armBody {arm : SourceForm} (h : Known env lacks scope arm) :
    ∀ n ∈ Eval.armBody arm, Known env lacks scope n := by
  intro n hn
  unfold Eval.armBody at hn
  split at hn
  · exact h.args n (List.mem_of_mem_drop hn)
  · exact h.args n hn

theorem finds_switch (kw : Keyword) {ns : List SourceForm}
    (h : ∀ n ∈ ns, Known env lacks scope n) : Finds lacks scope f (switch eval kw f ns) := by
  unfold switch
  split
  · exact finds_trap (by decide)
  · rename_i key arms
    refine finds_bind (heval (h key List.mem_cons_self)) fun k => ?_
    refine finds_bind_of (finds_lift fun t => code_matching) fun chosen hchosen => ?_
    have harms : ∀ arm ∈ chosen.getD (fromDefault arms), arm ∈ arms := by
      intro arm harm
      cases chosen with
      | none => exact List.dropWhile_subset _ harm
      | some chosen =>
        obtain ⟨m, m', hlift⟩ := hchosen
        cases hmatching : matching kw k.bits arms with
        | error t =>
          rw [hmatching] at hlift
          cases hlift
        | ok c =>
          rw [hmatching] at hlift
          cases hlift
          exact mem_of_mem_matching hmatching harm
    split
    · exact finds_pure _
    · rename_i body hbody
      obtain ⟨arm, harm, rfl⟩ := List.mem_map.mp (List.mem_of_find?_eq_some hbody)
      have harm := h arm (List.mem_cons_of_mem _ (harms arm harm))
      exact finds_bind (finds_seq heval harm.armBody) fun _ => finds_pure _

omit heval in
theorem finds_access (kw : Keyword) (suffix : Bytes) :
    Finds lacks scope f (access kw suffix) := by
  unfold access
  simp only
  split
  · exact finds_pure _
  · exact finds_throw_trap (Trap.excused_of_unknown 109 rfl rfl (by decide))

theorem finds_load (kw : Keyword) (suffix : Bytes) {ns : List SourceForm}
    (h : ∀ n ∈ ns, Known env lacks scope n) : Finds lacks scope f (load eval kw suffix f ns) := by
  unfold load
  refine finds_bind (finds_access kw suffix) fun a => ?_
  split
  · refine finds_bind (heval (h _ List.mem_cons_self)) fun addr => finds_get fun m _ => ?_
    exact finds_bind (finds_lift fun t => code_load) fun bits => finds_pure _
  · exact finds_trap (by decide)

theorem finds_store (kw : Keyword) (suffix : Bytes) {ns : List SourceForm}
    (h : ∀ n ∈ ns, Known env lacks scope n) : Finds lacks scope f (store eval kw suffix f ns) := by
  unfold store
  refine finds_bind (finds_access kw suffix) fun a => ?_
  split
  · simp only [List.forall_mem_cons] at h
    refine finds_bind (heval h.1) fun addr => finds_bind (heval h.2.1) fun v => ?_
    refine finds_get fun m _ => finds_bind (finds_lift fun t => code_store) fun memory => ?_
    exact finds_bind (finds_change fun _ => rfl) fun _ => finds_pure _
  · exact finds_trap (by decide)

omit heval in
theorem finds_verdict (pass : Bool) (expected actual : Bytes) :
    Finds lacks scope f (verdict pass expected actual) := by
  unfold verdict
  refine finds_bind (finds_change fun m => ?_) fun _ => finds_change fun _ => rfl
  split
  · rfl
  · rfl

theorem finds_resolve {n : SourceForm} (h : Known env lacks scope n) :
    Finds lacks scope f (resolve env eval f n) := by
  unfold resolve
  split
  · rename_i line name rest _ hargs
    split
    · exact finds_throw_trap (Trap.excused_of_head 110 rfl (by decide))
    · have hrest : ∀ a ∈ rest, Known env lacks scope a := fun a ha =>
        h.args a (hargs ▸ List.mem_cons_of_mem _ ha)
      exact finds_bind (finds_args heval hrest) fun vs => finds_pure _
  · exact finds_trap (by decide)

/-- The function that is invoked finds what its code refers to. -/
theorem finds_invoked (hres : env.module.Resolves lacks) {n : SourceForm} {i : Invocation}
    (hi : ∃ m m', resolve env eval f n m = .ok i m') :
    Finds lacks scope f (call eval f i.func i.args) := by
  obtain ⟨m, m', hi⟩ := hi
  obtain ⟨name, hname⟩ := export_resolve hi
  exact finds_call heval (hres name i.func (.inr hname)) i.args

theorem finds_invoke (hres : env.module.Resolves lacks) {n : SourceForm}
    (h : Known env lacks scope n) : Finds lacks scope f (invoke env eval f n) := by
  refine finds_bind_of (finds_resolve heval h) fun i hi => ?_
  refine finds_bind (finds_change fun _ => rfl) fun _ => ?_
  refine finds_bind (finds_invoked heval hres hi) fun v => ?_
  exact finds_bind (finds_change fun _ => rfl) fun _ => finds_pure _

theorem finds_assertion (hres : env.module.Resolves lacks) (expectedFirst : Bool) {n : SourceForm}
    (h : Known env lacks scope n) :
    Finds lacks scope f (assertion env eval expectedFirst f n) := by
  unfold assertion
  split
  · rename_i a b hargs
    have ha : Known env lacks scope a := h.args a (by simp [hargs])
    have hb : Known env lacks scope b := h.args b (by simp [hargs])
    have hboth : Known env lacks scope (if expectedFirst then (b, a) else (a, b)).1
        ∧ Known env lacks scope (if expectedFirst then (b, a) else (a, b)).2 := by
      split
      · exact ⟨hb, ha⟩
      · exact ⟨ha, hb⟩
    refine finds_bind_of (finds_resolve heval hboth.1) fun i hi => ?_
    refine finds_bind (finds_change fun _ => rfl) fun _ => ?_
    refine finds_bind (finds_invoked heval hres hi) fun actual => ?_
    exact finds_bind (heval hboth.2) fun expected => finds_verdict _ _ _
  · exact finds_trap (by decide)

omit heval in
theorem finds_assertHeap (n : SourceForm) : Finds lacks scope f (assertHeap n) := by
  unfold assertHeap
  split
  · split
    · exact finds_trap (by decide)
    · refine finds_bind (finds_change fun _ => rfl) fun _ => finds_get fun m _ => ?_
      exact finds_bind (finds_lift fun t => code_read) fun got => finds_verdict _ _ _
  · exact finds_trap (by decide)

omit heval in
theorem finds_fileContent (name : Bytes) : Finds lacks scope f (fileContent env name) := by
  refine finds_get fun m _ => ?_
  split
  · exact finds_pure _
  · split
    · exact finds_pure _
    · exact finds_trap (by decide)

omit heval in
theorem finds_assertHeapFile (n : SourceForm) :
    Finds lacks scope f (assertHeapFile env n) := by
  unfold assertHeapFile
  split
  · split
    · exact finds_trap (by decide)
    · exact finds_trap (by decide)
    · refine finds_bind (finds_change fun _ => rfl) fun _ => ?_
      refine finds_bind (finds_fileContent _) fun content => finds_get fun m _ => ?_
      exact finds_bind (finds_lift fun t => code_read) fun got => finds_verdict _ _ _
  · exact finds_trap (by decide)

theorem finds_operation (kw : Keyword) (name head : Bytes) {ns : List SourceForm}
    (h : ∀ n ∈ ns, Known env lacks scope n) :
    Finds lacks scope f (operation eval kw name head f ns) := by
  refine finds_bind (finds_args heval h) fun vs => ?_
  simp only
  split
  · rename_i r hr
    refine finds_lift fun t ht => ?_
    subst ht
    split at hr
    · exact code_unary hr
    · exact code_binary hr
    · cases hr
  · exact finds_throw_trap (Trap.excused_of_unknown 105 rfl rfl (by decide))

omit heval in
/-- What a form names first is found. -/
theorem Known.first {n a : SourceForm} (h : Known env lacks scope n)
    (ha : a ∈ n.args.head?) :
    ∃ operands, ∀ r ∈ named n.head a.word operands, env.module.Answers lacks scope r := by
  cases hargs : n.args with
  | nil =>
    rw [hargs] at ha
    cases ha
  | cons target operands =>
    rw [hargs] at ha
    obtain rfl := Option.some.inj ha
    exact ⟨operands.length, fun r hr => h r (named_mem hargs hr)⟩

/-- A form finds what the forms inside of it find. -/
theorem finds_form (hres : env.module.Resolves lacks) {n : SourceForm}
    (h : Known env lacks scope n) (fuel : Nat) : Finds lacks scope f (form env eval fuel f n) := by
  have hvoid {act : Eval Unit} (h : Finds lacks scope f act) :
      Finds lacks scope f (do act; return Value.void) := finds_bind h fun _ => finds_pure _
  unfold form
  refine finds_ite (finds_trap (by decide)) ?_
  cases hop : Opcode.ofName n.head with
  | nop => exact finds_pure _
  | block => exact finds_block heval h.args
  | loop => exact finds_loop heval h.args fuel
  | ite => exact finds_if heval h.args
  | br =>
    simp only
    split
    · exact fun m hm => hm
    · exact finds_trap (by decide)
  | ret =>
    simp only
    split
    · exact fun m hm => hm
    · rename_i value rest hargs
      have hvalue := h.args value (hargs ▸ List.mem_cons_self)
      exact finds_bind (heval hvalue) fun v m hm => hm
  | getLocal =>
    refine finds_getLocal fun a ha => ?_
    obtain ⟨k, hk⟩ := h.first ha
    rw [Opcode.word_of_ofName hop rfl] at hk
    exact hk _ List.mem_cons_self
  | setLocal =>
    refine finds_setLocal heval (fun a ha => ?_) h.args
    obtain ⟨k, hk⟩ := h.first ha
    rw [Opcode.word_of_ofName hop rfl] at hk
    exact hk _ List.mem_cons_self
  | call =>
    refine finds_callForm heval hres (fun a ha => ?_) h.args
    obtain ⟨k, hk⟩ := h.first ha
    rw [Opcode.word_of_ofName hop rfl] at hk
    exact hk _ List.mem_cons_self
  | callImport =>
    refine finds_callImport heval (fun a ha => ?_) h.args
    obtain ⟨k, hk⟩ := h.first ha
    rw [Opcode.word_of_ofName hop rfl] at hk
    exact hk _ List.mem_cons_self
  | invoke => exact finds_invoke heval hres h
  | assertion expectedFirst => exact hvoid (finds_assertion heval hres expectedFirst h)
  | assertHeap => exact hvoid (finds_assertHeap n)
  | assertHeapFile => exact hvoid (finds_assertHeapFile n)
  | untranslatable => exact finds_trap (by decide)
  | const kw =>
    simp only
    split
    · exact finds_lift fun t => code_ofConstant
    · exact finds_trap (by decide)
  | switch kw => exact finds_switch heval kw h.args
  | load kw suffix => exact finds_load heval kw suffix h.args
  | store kw suffix => exact finds_store heval kw suffix h.args
  | operation kw name => exact finds_operation heval kw name n.head h.args
  | unknown => exact finds_throw_trap (Trap.excused_of_unknown 105 rfl rfl (by decide))

end

theorem finds_step : Finds lacks scope f (step env) := by
  unfold step
  refine finds_bind (finds_change fun _ => rfl) fun _ => finds_get fun m _ => ?_
  exact finds_ite (finds_trap (by decide)) (finds_pure _)

/-- Evaluating a form finds all that the form refers to, if all functions find what they refer
to. -/
theorem finds_run (hres : env.module.Resolves lacks) {n : SourceForm}
    (h : Known env lacks scope n) (fuel : Nat) : Finds lacks scope f (run env fuel f n) := by
  induction fuel generalizing scope f n with
  | zero => exact finds_trap (by decide)
  | succ fuel ih =>
    refine finds_bind finds_step fun _ => finds_atLine n.line ?_
    exact finds_form (fun hn => ih hn) hres h (fuel + 1)

end Eval

end WastForge
