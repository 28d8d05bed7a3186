import WastForge.Machine.Run
import WastForge.Proofs.Machine.Agree

/-!
# What every form keeps

A property of machines and one of values can go together: what a form does to a machine keeps the
one, and the values that it makes out of such values have the other. Then both hold wherever forms
are evaluated, however a form is left, and the property of machines holds behind all directives.
-/

namespace WastForge

open Eval in
/-- A property of machines and one of values which nothing that a form does breaks. -/
structure Invariant (I : Machine → Prop) (V : Value → Prop) : Prop where
  /-- Nothing but the output and the locals matters. -/
  plain : ∀ {m m'}, I m → m'.output = m.output → m'.locals = m.locals → I m'
  redirect : ∀ {m m' name o}, I m → I m' → m.output.redirect name = .ok o →
    I { m' with output := o }
  append : ∀ {m m' data o}, I m → I m' → m.output.append data = .ok o → I { m' with output := o }
  set : ∀ {m name v}, I m → V v → I { m with locals := m.locals.set name v }
  start : ∀ {m fn vs}, I m → (∀ v ∈ vs, V v) → I { m with locals := startLocals fn vs }
  back : ∀ {m m'}, I m → I m' → I { m' with locals := m.locals }
  void : V .void
  zero : V (.i32 0)
  read : ∀ {m name v}, I m → m.locals.lookup name = some v → V v
  const : ∀ {kw word v}, Value.ofConstant kw word = .ok v → V v
  loaded : ∀ {kw suffix a} {memory : Memory} {addr bits}, Access.ofSuffix? kw suffix = some a →
    memory.load addr a.width = .ok bits → V (loaded kw a bits)
  unary : ∀ {kw name a v}, V a → unary? kw name a = some (.ok v) → V v
  binary : ∀ {kw name a b v}, V a → V b → binary? kw name a b = some (.ok v) → V v

namespace Eval

variable {α β : Type} {I : Machine → Prop} {V : Value → Prop}

/-- A form that is left early may carry a value out. -/
def Carries (V : Value → Prop) : Stop → Prop
  | .ret v => V v
  | .branch _ | .trap _ | .crash => True

/-- What is left behind keeps the property of machines. -/
def Leaves (I : Machine → Prop) (V : Value → Prop) (Q : α → Prop) :
    EStateM.Result Stop Machine α → Prop
  | .ok a m => Q a ∧ I m
  | .error s m => Carries V s ∧ I m

/-- From a machine with the property, an action leaves one with it, and a result with another. -/
def Keeps (I : Machine → Prop) (V : Value → Prop) (Q : α → Prop) (act : Eval α) : Prop :=
  ∀ m, I m → Leaves I V Q (act m)

variable {Q : α → Prop} {R : β → Prop}

theorem keeps_pure {a : α} (h : Q a) : Keeps I V Q (pure a) := fun _ hm => ⟨h, hm⟩

theorem keeps_throw {s : Stop} (h : Carries V s) : Keeps I V Q (throw s : Eval α) :=
  fun _ hm => ⟨h, hm⟩

theorem keeps_trap (code : TrapCode) (message : Bytes) :
    Keeps I V Q (trap code message : Eval α) := keeps_throw True.intro

theorem keeps_lift {e : Except Trap α} (h : ∀ a, e = .ok a → Q a) : Keeps I V Q (lift e) := by
  cases e with
  | ok a => exact keeps_pure (h a rfl)
  | error t => exact keeps_throw True.intro

theorem keeps_operand (vs : List Value) (i : Nat) :
    Keeps I V (fun _ => True) (operand vs i) := by
  unfold operand
  split
  · exact keeps_pure True.intro
  · exact keeps_throw True.intro

theorem keeps_modify {change : Machine → Machine} {Q : PUnit → Prop} (hQ : Q ())
    (h : ∀ m, I m → I (change m)) : Keeps I V Q (modify change) := fun m hm => ⟨hQ, h m hm⟩

theorem keeps_bind {act : Eval α} {next : α → Eval β} (hact : Keeps I V Q act)
    (hnext : ∀ a, Q a → Keeps I V R (next a)) : Keeps I V R (act >>= next) := by
  intro m hm
  show Leaves I V R (EStateM.bind act next m)
  have hleaves := hact m hm
  unfold EStateM.bind
  cases hrun : act m with
  | ok a m' =>
    rw [hrun] at hleaves
    exact hnext a hleaves.1 m' hleaves.2
  | error s m' =>
    rw [hrun] at hleaves
    exact hleaves

theorem keeps_get {next : Machine → Eval β} (h : ∀ m, I m → Keeps I V R (next m)) :
    Keeps I V R (get >>= next) := fun m hm => h m hm m hm

theorem keeps_ite {p : Prop} [Decidable p] {yes no : Eval α} (hyes : Keeps I V Q yes)
    (hno : Keeps I V Q no) : Keeps I V Q (if p then yes else no) := by
  split
  · exact hyes
  · exact hno

/-- A trap, after which nothing is done, or the rest. -/
theorem keeps_guard {p : Prop} [Decidable p] {code : TrapCode} {message : Bytes}
    {next : PUnit → Eval β} (h : Keeps I V R (next ())) :
    Keeps I V R (if p then trap code message >>= next else next ()) :=
  keeps_ite (fun _ hm => ⟨True.intro, hm⟩) h

theorem keeps_atLine {act : Eval α} (line : UInt32) (h : Keeps I V Q act) :
    Keeps I V Q (atLine line act) := by
  intro m hm
  have hleaves := h m hm
  unfold atLine
  generalize act m = r at hleaves ⊢
  cases r with
  | ok a m' => exact hleaves
  | error s m' =>
    cases s with
    | trap t => exact hleaves
    | branch _ | ret _ | crash => exact hleaves

section

variable {env : MachineEnv} {eval : Inner} {f : Frame}
  (hinv : Invariant I V) (heval : ∀ f n, Keeps I V V (eval f n))

include hinv heval

/-- Evaluating forms in order keeps what each of them keeps. -/
theorem keeps_seq : ∀ forms, Keeps I V V (seq eval f forms)
  | [] => keeps_pure hinv.void
  | [n] => heval f n
  | n :: next :: rest => keeps_bind (heval f n) fun _ _ => keeps_seq (next :: rest)

omit hinv in
theorem keeps_args : ∀ forms, Keeps I V (fun vs => ∀ v ∈ vs, V v) (args eval f forms)
  | [] => keeps_pure fun _ h => absurd h List.not_mem_nil
  | n :: rest => by
    refine keeps_bind (heval f n) fun v hv => ?_
    refine keeps_bind (keeps_args rest) fun vs hvs => ?_
    exact keeps_pure (List.forall_mem_cons.mpr ⟨hv, hvs⟩)

omit heval in
/-- A branch to its label leaves a block without a value. -/
theorem leaves_caught {label : Option Bytes} {r : EStateM.Result Stop Machine Value}
    (h : Leaves I V V r) : Leaves I V V (caught label r) := by
  unfold caught
  split
  · split
    · exact ⟨hinv.void, h.2⟩
    · exact h
  · exact h

theorem keeps_block (forms : List SourceForm) : Keeps I V V (block eval f forms) := by
  intro m hm
  rw [block_eq]
  exact leaves_caught hinv (keeps_seq hinv heval _ m hm)

theorem keeps_rounds (label : Option Bytes) (body : List SourceForm) (fuel : Nat) :
    Keeps I V V (rounds env eval f label body fuel) := by
  induction fuel with
  | zero => exact keeps_trap _ _
  | succ fuel ih =>
    intro m hm
    have hleaves := keeps_seq hinv heval (f := f) body m hm
    unfold rounds
    cases hrun : seq eval f body m with
    | ok v m' =>
      rw [hrun] at hleaves
      exact ih m' hleaves.2
    | error s m' =>
      rw [hrun] at hleaves
      simp only
      split
      · exact ⟨hinv.void, hleaves.2⟩
      · exact hleaves

theorem keeps_loop (fuel : Nat) (forms : List SourceForm) :
    Keeps I V V (loop env eval fuel f forms) :=
  keeps_ite (keeps_trap _ _) (keeps_rounds hinv heval _ _ fuel)

theorem keeps_ite_ (forms : List SourceForm) : Keeps I V V (ite eval f forms) := by
  unfold ite
  split
  · exact keeps_bind (heval f _) fun _ _ => keeps_ite (heval f _) (keeps_pure hinv.void)
  · exact keeps_bind (heval f _) fun _ _ => keeps_ite (heval f _) (heval f _)
  · exact keeps_trap _ _

omit heval in
theorem keeps_getLocal (forms : List SourceForm) : Keeps I V V (getLocal f forms) := by
  unfold getLocal
  split
  · refine keeps_get fun m hm => ?_
    split
    · next v hlook =>
      refine keeps_pure ?_
      split
      · exact hinv.zero
      · exact hinv.read hm hlook
    · exact keeps_trap _ _
    · exact keeps_pure hinv.zero
  · exact keeps_trap _ _

theorem keeps_setLocal (forms : List SourceForm) : Keeps I V V (setLocal eval f forms) := by
  unfold setLocal
  split
  · refine keeps_get fun m hm => ?_
    split
    · exact keeps_trap _ _
    · refine keeps_bind (heval f _) fun v hv => ?_
      have hset (name : Bytes) : Keeps I V (fun _ => True)
          (modify fun m => { m with locals := m.locals.set name v } : Eval PUnit) :=
        keeps_modify True.intro fun _ hm => hinv.set hm hv
      exact keeps_bind (hset _) fun _ _ => keeps_pure hv
  · exact keeps_trap _ _

omit hinv heval in
theorem leaves_endCall (fn : Script.Function) (hvoid : V .void)
    {r : EStateM.Result Stop Machine Value} (h : Leaves I V V r) :
    Leaves I V V (endCall fn r) := by
  have hvalue {v : Value} (hv : V v) : V (if fn.hasResult then v else .void) := by
    split
    · exact hv
    · exact hvoid
  match r, h with
  | .ok v m, h => exact ⟨hvalue h.1, h.2⟩
  | .error (.ret v) m, h => exact ⟨hvalue h.1, h.2⟩
  | .error (.branch _) m, h => exact ⟨True.intro, h.2⟩
  | .error (.trap _) m, h => exact ⟨True.intro, h.2⟩
  | .error .crash m, h => exact ⟨True.intro, h.2⟩

/-- A call keeps what its body keeps, whatever locals it starts with. -/
theorem keeps_call (fn : Script.Function) {vs : List Value} (hvs : ∀ v ∈ vs, V v) :
    Keeps I V V (call eval f fn vs) := by
  unfold call
  refine keeps_guard (keeps_guard fun m hm => ?_)
  have hstart : I { m with locals := startLocals fn vs } := hinv.start hm hvs
  have hbody := keeps_seq hinv heval (f := ⟨some fn.name, f.depth + 1⟩) fn.body _ hstart
  have hend := leaves_endCall fn hinv.void hbody
  show Leaves I V V (restoreLocals m.locals (endCall fn _))
  generalize endCall fn _ = r at hend ⊢
  cases r with
  | ok v m' => exact ⟨hend.1, hinv.back hm hend.2⟩
  | error s m' => exact ⟨hend.1, hinv.back hm hend.2⟩

theorem keeps_callForm (forms : List SourceForm) : Keeps I V V (callForm env eval f forms) := by
  unfold callForm
  split
  · exact keeps_trap _ _
  · split
    · exact keeps_trap _ _
    · exact keeps_bind (keeps_args heval _) fun _ hvs => keeps_call hinv heval _ hvs

omit heval in
theorem keeps_harness (imp : Script.Import) (vs : List Value) :
    Keeps I V (fun _ => True) (harness imp vs) := by
  unfold harness
  refine keeps_guard (keeps_get fun m hm => ?_)
  refine keeps_ite ?_ (keeps_ite ?_ (keeps_trap _ _))
  · refine keeps_bind (keeps_operand vs 0) fun first _ => ?_
    refine keeps_bind (keeps_lift fun _ _ => True.intro) fun name _ => ?_
    refine keeps_bind (keeps_lift fun _ h => h) fun o ho => ?_
    exact keeps_modify True.intro fun _ hm' => hinv.redirect hm hm' ho
  · refine keeps_bind (keeps_operand vs 1) fun count _ => keeps_guard ?_
    refine keeps_bind (keeps_operand vs 0) fun first _ => ?_
    refine keeps_bind (keeps_lift fun _ _ => True.intro) fun data _ => ?_
    refine keeps_bind (keeps_lift fun _ h => h) fun o ho => ?_
    exact keeps_modify True.intro fun _ hm' => hinv.append hm hm' ho

theorem keeps_callImport (forms : List SourceForm) :
    Keeps I V V (callImport env eval f forms) := by
  unfold callImport
  split
  · exact keeps_trap _ _
  · split
    · exact keeps_trap _ _
    · refine keeps_bind (keeps_args heval _) fun vs _ => keeps_guard ?_
      exact keeps_bind (keeps_harness hinv _ _) fun _ _ => keeps_pure hinv.void

theorem keeps_switch (kw : Keyword) (forms : List SourceForm) :
    Keeps I V V (switch eval kw f forms) := by
  unfold switch
  split
  · exact keeps_trap _ _
  · refine keeps_bind (heval f _) fun k _ => ?_
    refine keeps_bind (keeps_lift fun _ _ => True.intro) fun chosen _ => ?_
    split
    · exact keeps_pure hinv.void
    · exact keeps_bind (keeps_seq hinv heval _) fun _ _ => keeps_pure hinv.void

omit hinv heval in
/-- An access is that of a suffix. -/
theorem keeps_access (kw : Keyword) (suffix : Bytes) :
    Keeps I V (fun a => ∃ suffix, Access.ofSuffix? kw suffix = some a) (access kw suffix) := by
  unfold access
  simp only
  split
  · exact keeps_pure ⟨_, ‹_›⟩
  · exact keeps_trap _ _

theorem keeps_load (kw : Keyword) (suffix : Bytes) (forms : List SourceForm) :
    Keeps I V V (load eval kw suffix f forms) := by
  unfold load
  refine keeps_bind (keeps_access kw suffix) fun a ⟨_, ha⟩ => ?_
  split
  · refine keeps_bind (heval f _) fun addr _ => keeps_get fun m hm => ?_
    refine keeps_bind (keeps_lift fun _ h => h) fun bits hbits => ?_
    exact keeps_pure (hinv.loaded ha hbits)
  · exact keeps_trap _ _

theorem keeps_store (kw : Keyword) (suffix : Bytes) (forms : List SourceForm) :
    Keeps I V V (store eval kw suffix f forms) := by
  unfold store
  refine keeps_bind (keeps_access kw suffix) fun a _ => ?_
  split
  · refine keeps_bind (heval f _) fun addr _ => keeps_bind (heval f _) fun v hv => ?_
    refine keeps_get fun m hm => keeps_bind (keeps_lift fun _ _ => True.intro) fun memory _ => ?_
    have hset : Keeps I V (fun _ => True)
        (modify fun m => { m with memory := memory } : Eval PUnit) :=
      keeps_modify True.intro fun _ hm => hinv.plain hm rfl rfl
    exact keeps_bind hset fun _ _ => keeps_pure hv
  · exact keeps_trap _ _

omit heval in
/-- Printing changes nothing that matters. -/
theorem keeps_print {change : Machine → Machine}
    (h : ∀ m, (change m).output = m.output ∧ (change m).locals = m.locals) :
    Keeps I V (fun _ => True) (modify change : Eval PUnit) :=
  keeps_modify True.intro fun m hm => hinv.plain hm (h m).1 (h m).2

omit heval in
theorem keeps_verdict (pass : Bool) (expected actual : Bytes) :
    Keeps I V (fun _ => True) (verdict pass expected actual) := by
  unfold verdict
  refine keeps_bind (keeps_print hinv fun m => ?_) fun _ _ => keeps_print hinv fun _ => ⟨rfl, rfl⟩
  split <;> exact ⟨rfl, rfl⟩

omit hinv in
theorem keeps_resolve (n : SourceForm) :
    Keeps I V (fun i => ∀ v ∈ i.args, V v) (resolve env eval f n) := by
  unfold resolve
  split
  · split
    · exact keeps_trap _ _
    · exact keeps_bind (keeps_args heval _) fun vs hvs => keeps_pure hvs
  · exact keeps_trap _ _

theorem keeps_invoke (n : SourceForm) : Keeps I V V (invoke env eval f n) := by
  unfold invoke
  refine keeps_bind (keeps_resolve heval n) fun i hi => ?_
  refine keeps_bind (keeps_print hinv fun _ => ⟨rfl, rfl⟩) fun _ _ => ?_
  refine keeps_bind (keeps_call hinv heval i.func hi) fun v hv => ?_
  exact keeps_bind (keeps_print hinv fun _ => ⟨rfl, rfl⟩) fun _ _ => keeps_pure hv

theorem keeps_assertion (expectedFirst : Bool) (n : SourceForm) :
    Keeps I V (fun _ => True) (assertion env eval expectedFirst f n) := by
  unfold assertion
  split
  · refine keeps_bind (keeps_resolve heval _) fun i hi => ?_
    refine keeps_bind (keeps_print hinv fun _ => ⟨rfl, rfl⟩) fun _ _ => ?_
    refine keeps_bind (keeps_call hinv heval i.func hi) fun actual _ => ?_
    exact keeps_bind (heval f _) fun expected _ => keeps_verdict hinv _ _ _
  · exact keeps_trap _ _

omit heval in
theorem keeps_assertHeap (n : SourceForm) : Keeps I V (fun _ => True) (assertHeap n) := by
  unfold assertHeap
  split
  · split
    · exact keeps_trap _ _
    · refine keeps_bind (keeps_print hinv fun _ => ⟨rfl, rfl⟩) fun _ _ => keeps_get fun m _ => ?_
      exact keeps_bind (keeps_lift fun _ _ => True.intro) fun _ _ => keeps_verdict hinv _ _ _
  · exact keeps_trap _ _

omit hinv heval in
theorem keeps_fileContent (name : Bytes) :
    Keeps I V (fun _ => True) (fileContent env name) := by
  unfold fileContent
  refine keeps_get fun m _ => ?_
  split
  · exact keeps_pure True.intro
  · split
    · exact keeps_pure True.intro
    · exact keeps_trap _ _

omit heval in
theorem keeps_assertHeapFile (n : SourceForm) :
    Keeps I V (fun _ => True) (assertHeapFile env n) := by
  unfold assertHeapFile
  split
  · split
    · exact keeps_trap _ _
    · exact keeps_trap _ _
    · refine keeps_bind (keeps_print hinv fun _ => ⟨rfl, rfl⟩) fun _ _ => ?_
      refine keeps_bind (keeps_fileContent _) fun _ _ => keeps_get fun m _ => ?_
      exact keeps_bind (keeps_lift fun _ _ => True.intro) fun _ _ => keeps_verdict hinv _ _ _
  · exact keeps_trap _ _

theorem keeps_operation (kw : Keyword) (name head : Bytes) (forms : List SourceForm) :
    Keeps I V V (operation eval kw name head f forms) := by
  unfold operation
  refine keeps_bind (keeps_args heval forms) fun vs hvs => ?_
  simp only
  split
  · next r hr =>
    refine keeps_lift fun v hv => ?_
    subst hv
    split at hr
    · exact hinv.unary (hvs _ List.mem_cons_self) hr
    · exact hinv.binary (hvs _ List.mem_cons_self)
        (hvs _ (List.mem_cons_of_mem _ List.mem_cons_self)) hr
    · cases hr
  · exact keeps_trap _ _

/-- A form keeps what the forms inside of it keep. -/
theorem keeps_form (fuel : Nat) (n : SourceForm) : Keeps I V V (form env eval fuel f n) := by
  have hvoid {act : Eval Unit} (h : Keeps I V (fun _ => True) act) :
      Keeps I V V (do act; return .void) := keeps_bind h fun _ _ => keeps_pure hinv.void
  unfold form
  refine keeps_ite (keeps_trap _ _) ?_
  cases Opcode.ofName n.head with
  | nop => exact keeps_pure hinv.void
  | block => exact keeps_block hinv heval _
  | loop => exact keeps_loop hinv heval _ _
  | ite => exact keeps_ite_ hinv heval _
  | br =>
    simp only
    split
    · exact keeps_throw True.intro
    · exact keeps_trap _ _
  | ret =>
    simp only
    split
    · exact keeps_throw hinv.void
    · exact keeps_bind (heval f _) fun _ hv => keeps_throw hv
  | getLocal => exact keeps_getLocal hinv _
  | setLocal => exact keeps_setLocal hinv heval _
  | call => exact keeps_callForm hinv heval _
  | callImport => exact keeps_callImport hinv heval _
  | invoke => exact keeps_invoke hinv heval n
  | assertion expectedFirst => exact hvoid (keeps_assertion hinv heval expectedFirst n)
  | assertHeap => exact hvoid (keeps_assertHeap hinv n)
  | assertHeapFile => exact hvoid (keeps_assertHeapFile hinv n)
  | untranslatable => exact keeps_trap _ _
  | const kw =>
    simp only
    split
    · exact keeps_lift fun _ h => hinv.const h
    · exact keeps_trap _ _
  | switch kw => exact keeps_switch hinv heval kw _
  | load kw suffix => exact keeps_load hinv heval kw suffix _
  | store kw suffix => exact keeps_store hinv heval kw suffix _
  | operation kw name => exact keeps_operation hinv heval kw name _ _
  | unknown => exact keeps_trap _ _

end

theorem keeps_step (hinv : Invariant I V) (env : MachineEnv) :
    Keeps I V (fun _ => True) (step env) := by
  unfold step
  refine keeps_bind (keeps_print hinv fun _ => ⟨rfl, rfl⟩) fun _ _ => keeps_get fun m _ => ?_
  exact keeps_ite (keeps_trap _ _) (keeps_pure True.intro)

/-- Evaluating a form keeps both properties. -/
theorem keeps_run (hinv : Invariant I V) (env : MachineEnv) (fuel : Nat) (f : Frame)
    (n : SourceForm) : Keeps I V V (run env fuel f n) := by
  induction fuel generalizing f n with
  | zero => exact keeps_trap _ _
  | succ fuel ih =>
    refine keeps_bind (keeps_step hinv env) fun _ _ => keeps_atLine n.line ?_
    exact keeps_form hinv ih (fuel + 1) n

end Eval

namespace Machine

variable {I : Machine → Prop} {V : Value → Prop} {env : MachineEnv} {m : Machine}

/-- A directive keeps the property of machines, however it ends. -/
theorem keeps_directive (hinv : Invariant I V) (n : SourceForm) (hm : I m) :
    I (m.directive env n).2 := by
  have hleaves := Eval.keeps_run hinv env (env.maxSteps + 1) {} n
    { m with steps := 0, pending := false } (hinv.plain hm rfl rfl)
  unfold directive
  generalize Eval.run env _ _ _ _ = r at hleaves ⊢
  match r, hleaves with
  | .ok _ _, h => exact h.2
  | .error (.ret _) _, h => exact h.2
  | .error .crash _, h => exact h.2
  | .error (.branch _) m', h | .error (.trap _) m', h =>
    refine hinv.plain h.2 ?_ ?_ <;> dsimp only <;> split <;> rfl

theorem keeps_directives (hinv : Invariant I V) (ns : List SourceForm) (hm : I m) :
    I (directives env ns m).2 := by
  induction ns generalizing m with
  | nil => exact hm
  | cons n rest ih =>
    have hnext : I (m.directive env n).2 := keeps_directive hinv n hm
    unfold directives
    split
    · next heq =>
      rw [heq] at hnext
      exact ih hnext
    · next heq =>
      rw [heq] at hnext
      exact hnext

end Machine

end WastForge
