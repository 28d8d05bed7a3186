import Mathlib.Tactic.ByContra
import WastForge.Machine.Run
import WastForge.Proofs.Machine.Agree

/-!
# Every run ends within its budget

Every form counts as a step, and nothing else does. So the steps that are left bound how deeply
forms are nested and how often loops go round: the fuel of a run is never used up. Once the steps
are used up, the trap that says so leaves every block, loop and call. Only an import that declares
fewer operands than its operation takes can end the whole process.
-/

namespace WastForge

/-- How far the count of steps may move, from `low` on and up to the budget. -/
structure Gauge where
  budget : Nat
  low : Nat
  /-- Whether the process may be ended. -/
  crash : Prop
  moves : Nat → Nat → Prop
  refl : ∀ a, moves a a
  trans : ∀ {a b c}, moves a b → moves b c → moves a c
  le : ∀ {a b}, moves a b → a ≤ b

/-- The count of steps rises up to a budget. -/
def Gauge.rising (budget low : Nat) (crash : Prop) : Gauge :=
  ⟨budget, low, crash, (· ≤ ·), Nat.le_refl, Nat.le_trans, id⟩

/-- The count of steps stays. -/
def Gauge.still (budget : Nat) : Gauge :=
  ⟨budget, 0, True, (· = ·), fun _ => rfl, Eq.trans, Nat.le_of_eq⟩

/-- An import declares the operands that its operation takes. -/
def Script.Import.Suffices (imp : Script.Import) : Prop :=
  imp.module = "harness" → (imp.field = "stdout_open" → 1 ≤ imp.params)
    ∧ (imp.field = "stdout_write" → 2 ≤ imp.params)

/-- An import of the module declares fewer operands than its operation takes. -/
def Script.Module.Lacks (mod : Script.Module) : Prop :=
  ∃ name imp, mod.import? name = some imp ∧ ¬imp.Suffices

namespace Eval

variable {α β : Type}

/-- The machine that an action left behind. -/
def after : EStateM.Result Stop Machine α → Machine
  | .ok _ m => m
  | .error _ m => m

/-- The steps lasted, or one step too many was taken and the trap says so. -/
inductive Lasts (budget : Nat) : EStateM.Result Stop Machine α → Prop where
  | within {r : EStateM.Result Stop Machine α} (h : (after r).steps ≤ budget) : Lasts budget r
  | exhausted {t : Trap} {m : Machine} (hsteps : m.steps = budget + 1) (ht : t.Exhausts budget) :
    Lasts budget (.error (.trap t) m)

/-- Whether the process was ended. -/
def Crashes (r : EStateM.Result Stop Machine α) : Prop := ∃ m, r = .error .crash m

/-- Two actions do the same, move the count of steps as they may, last, and do not end the process
unless they may. -/
structure Same (g : Gauge) (m : Machine) (r r' : EStateM.Result Stop Machine α) : Prop where
  eq : r = r'
  moves : g.moves m.steps (after r).steps
  lasts : Lasts g.budget r
  spares : Crashes r → g.crash

/-- The same from every machine within the budget. -/
def Within (g : Gauge) (act act' : Eval α) : Prop :=
  ∀ m : Machine, g.low ≤ m.steps → m.steps ≤ g.budget → Same g m (act m) (act' m)

variable {g : Gauge}

theorem not_crashes_ok {a : α} {m : Machine} : ¬Crashes (.ok a m) := fun ⟨_, h⟩ => nomatch h

theorem crashes_error {s : Stop} {m : Machine} :
    Crashes (.error s m : EStateM.Result Stop Machine α) ↔ s = .crash := by
  constructor
  · rintro ⟨m', h⟩
    exact (EStateM.Result.error.inj h).1
  · rintro rfl
    exact ⟨m, rfl⟩

theorem within_pure (a : α) : Within g (pure a) (pure a) :=
  fun _ _ h => ⟨rfl, g.refl _, .within h, fun hcrash => absurd hcrash not_crashes_ok⟩

theorem within_throw {s : Stop} (hs : s = .crash → g.crash) :
    Within g (throw s : Eval α) (throw s) :=
  fun _ _ h => ⟨rfl, g.refl _, .within h, fun hcrash => hs (crashes_error.mp hcrash)⟩

theorem within_trap (code : TrapCode) (message : Bytes) :
    Within g (trap code message : Eval α) (trap code message) :=
  within_throw nofun

theorem within_lift (e : Except Trap α) : Within g (lift e) (lift e) := by
  cases e with
  | ok a => exact within_pure a
  | error t => exact within_throw nofun

/-- Only an operand that is not there ends the process. -/
theorem within_operand {vs : List Value} {i : Nat} (h : vs.length ≤ i → g.crash) :
    Within g (operand vs i) (operand vs i) := by
  unfold operand
  split
  · exact within_pure _
  · next hnone => exact within_throw fun _ => h (List.getElem?_eq_none_iff.mp hnone)

theorem within_modify {f : Machine → Machine} (hf : ∀ m, (f m).steps = m.steps) :
    Within g (modify f) (modify f) := by
  intro m _ h
  have hsteps : (after ((modify f : Eval PUnit) m)).steps = m.steps := hf m
  refine ⟨rfl, ?_, .within ?_, fun hcrash => absurd hcrash not_crashes_ok⟩
  · rw [hsteps]
    exact g.refl _
  · rw [hsteps]
    exact h

theorem within_bind {act act' : Eval α} {k k' : α → Eval β} (hact : Within g act act')
    (hk : ∀ a, Within g (k a) (k' a)) : Within g (act >>= k) (act' >>= k') := by
  intro m hlow hhigh
  obtain ⟨heq, hmoves, hlasts, hspares⟩ := hact m hlow hhigh
  show Same g m (EStateM.bind act k m) (EStateM.bind act' k' m)
  unfold EStateM.bind
  rw [← heq]
  cases hr : act m with
  | ok a m₁ =>
    rw [hr] at hmoves hlasts
    cases hlasts with
    | within hle =>
      obtain ⟨heq₁, hmoves₁, hlasts₁, hspares₁⟩ :=
        hk a m₁ (Nat.le_trans hlow (g.le hmoves)) hle
      exact ⟨heq₁, g.trans hmoves hmoves₁, hlasts₁, hspares₁⟩
  | error s m₁ =>
    rw [hr] at hmoves hlasts hspares
    refine ⟨rfl, hmoves, ?_, fun hcrash => hspares (crashes_error.mpr (crashes_error.mp hcrash))⟩
    cases hlasts with
    | within hle => exact .within hle
    | exhausted hsteps ht => exact .exhausted hsteps ht

theorem within_get {k k' : Machine → Eval α} (hk : ∀ m, Within g (k m) (k' m)) :
    Within g (get >>= k) (get >>= k') :=
  fun m hlow hhigh => hk m m hlow hhigh

theorem within_ite {p : Prop} [Decidable p] {act₁ act₁' act₂ act₂' : Eval α}
    (h₁ : p → Within g act₁ act₁') (h₂ : ¬p → Within g act₂ act₂') :
    Within g (if p then act₁ else act₂) (if p then act₁' else act₂') := by
  split
  · exact h₁ ‹_›
  · exact h₂ ‹_›

/-- A trap, after which nothing is done, or the rest. -/
theorem within_guard {p : Prop} [Decidable p] {code : TrapCode} {message : Bytes}
    {k k' : PUnit → Eval α} (hk : ¬p → Within g (k ()) (k' ())) :
    Within g (if p then trap code message >>= k else k ())
      (if p then trap code message >>= k' else k' ()) :=
  within_ite (fun _ _ _ h => ⟨rfl, g.refl _, .within h, fun hcrash =>
    nomatch crashes_error.mp hcrash⟩) hk

/-- What is made of the outcome of an action counts no steps, ends no process, and keeps the trap of
a budget that is used up. -/
theorem within_wrap {act act' : Eval α} (pre : Machine → Machine)
    (F : Machine → EStateM.Result Stop Machine α → EStateM.Result Stop Machine β)
    (hact : Within g act act') (hpre : ∀ m, (pre m).steps = m.steps)
    (hF : ∀ m r, (after (F m r)).steps = (after r).steps)
    (hcrash : ∀ m r, Crashes (F m r) → Crashes r)
    (htrap : ∀ m t m', Trap.Exhausts g.budget t →
      ∃ t' m'', F m (.error (.trap t) m') = .error (.trap t') m'' ∧ t'.Exhausts g.budget) :
    Within g (fun m => F m (act (pre m))) (fun m => F m (act' (pre m))) := by
  intro m hlow hhigh
  obtain ⟨heq, hmoves, hlasts, hspares⟩ := hact (pre m) (by rwa [hpre]) (by rwa [hpre])
  show Same g m (F m (act (pre m))) (F m (act' (pre m)))
  refine ⟨congrArg (F m) heq, ?_, ?_, fun h => hspares (hcrash m _ h)⟩
  · rw [hF, ← hpre m]
    exact hmoves
  · generalize act (pre m) = r at hlasts ⊢
    cases hlasts with
    | within hle => exact .within (by rwa [hF])
    | exhausted hsteps ht =>
      rename_i t m'
      obtain ⟨t', m'', heq', ht'⟩ := htrap m t m' ht
      have hafter := hF m (.error (.trap t) m')
      rw [heq'] at hafter ⊢
      exact .exhausted (hafter.trans hsteps) ht'

/-- What becomes of an outcome at a line. -/
def located (line : UInt32) : EStateM.Result Stop Machine α → EStateM.Result Stop Machine α
  | .ok a m => .ok a m
  | .error (.trap t) m => .error (.trap (t.atLine line)) m
  | .error s m => .error s m

theorem atLine_eq (line : UInt32) (act : Eval α) :
    atLine line act = fun m => located line (act m) := by
  funext m
  unfold atLine
  rcases act m with ⟨a, m'⟩ | ⟨⟨l⟩ | ⟨v⟩ | ⟨t⟩ | _, m'⟩ <;> rfl

theorem within_atLine {act act' : Eval α} (line : UInt32) (h : Within g act act') :
    Within g (atLine line act) (atLine line act') := by
  rw [atLine_eq, atLine_eq]
  refine within_wrap id (fun _ => located line) h (fun _ => rfl) (fun m r => ?_)
    (fun m r hcrash => ?_) fun m t m' ht => ⟨_, m', rfl, exhausts_atLine line ht⟩
  · rcases r with ⟨a, m'⟩ | ⟨⟨l⟩ | ⟨v⟩ | ⟨t⟩ | _, m'⟩ <;> rfl
  · rcases r with ⟨a, m'⟩ | ⟨⟨l⟩ | ⟨v⟩ | ⟨t⟩ | _, m'⟩ <;>
      first | exact ⟨_, rfl⟩ | exact nomatch hcrash.choose_spec

section

variable {env : MachineEnv} {eval eval' : Inner}

/-- Forms inside of a form are evaluated alike, as long as calls are not nested too deeply. -/
def InnerWithin (g : Gauge) (eval eval' : Inner) : Prop :=
  ∀ (f : Frame) (n : SourceForm), f.depth ≤ maxCallDepth → Within g (eval f n) (eval' f n)

variable {f : Frame} (heval : InnerWithin g eval eval') (hf : f.depth ≤ maxCallDepth)

include heval hf

theorem within_seq : ∀ forms, Within g (seq eval f forms) (seq eval' f forms)
  | [] => within_pure _
  | [n] => heval f n hf
  | n :: next :: rest => within_bind (heval f n hf) fun _ => within_seq (next :: rest)

theorem within_args : ∀ forms, Within g (args eval f forms) (args eval' f forms)
  | [] => within_pure _
  | n :: rest => by
    refine within_bind (heval f n hf) fun _ => ?_
    exact within_bind (within_args rest) fun _ => within_pure _

theorem within_block (forms : List SourceForm) :
    Within g (block eval f forms) (block eval' f forms) := by
  rw [funext (block_eq eval f forms), funext (block_eq eval' f forms)]
  refine within_wrap id (fun _ => caught _) (within_seq heval hf _) (fun _ => rfl) (fun m r => ?_)
    (fun m r hcrash => ?_) fun m t m' ht => ⟨t, m', rfl, ht⟩
  · cases r with
    | ok v m' => rfl
    | error s m' =>
      simp only [caught]
      split <;> rfl
  · cases r with
    | ok v m' => exact absurd hcrash not_crashes_ok
    | error s m' =>
      simp only [caught] at hcrash
      split at hcrash
      · exact absurd hcrash not_crashes_ok
      · exact hcrash

theorem within_ite_ (forms : List SourceForm) :
    Within g (ite eval f forms) (ite eval' f forms) := by
  unfold ite
  split
  · refine within_bind (heval f _ hf) fun c => ?_
    exact within_ite (fun _ => heval f _ hf) fun _ => within_pure _
  · refine within_bind (heval f _ hf) fun c => ?_
    exact within_ite (fun _ => heval f _ hf) fun _ => heval f _ hf
  · exact within_trap _ _

omit heval hf in
theorem within_getLocal (forms : List SourceForm) :
    Within g (getLocal f forms) (getLocal f forms) := by
  unfold getLocal
  split
  · refine within_get fun m => ?_
    split
    · exact within_pure _
    · exact within_trap _ _
    · exact within_pure _
  · exact within_trap _ _

theorem within_setLocal (forms : List SourceForm) :
    Within g (setLocal eval f forms) (setLocal eval' f forms) := by
  unfold setLocal
  split
  · refine within_get fun m => ?_
    split
    · exact within_trap _ _
    · refine within_bind (heval f _ hf) fun v => ?_
      exact within_bind (within_modify fun _ => rfl) fun _ => within_pure _
  · exact within_trap _ _

omit heval hf in
theorem after_endCall (fn : Script.Function) (r : EStateM.Result Stop Machine Value) :
    after (endCall fn r) = after r := by
  rcases r with ⟨a, m'⟩ | ⟨⟨l⟩ | ⟨v⟩ | ⟨t⟩ | _, m'⟩ <;> rfl

omit heval hf in
theorem steps_restoreLocals (saved : Locals) (r : EStateM.Result Stop Machine Value) :
    (after (restoreLocals saved r)).steps = (after r).steps := by
  cases r <;> rfl

omit heval hf in
/-- The end of a call ends no process. -/
theorem crashes_of_call {saved : Locals} {fn : Script.Function}
    {r : EStateM.Result Stop Machine Value} (h : Crashes (restoreLocals saved (endCall fn r))) :
    Crashes r := by
  rcases r with ⟨a, m'⟩ | ⟨⟨l⟩ | ⟨v⟩ | ⟨t⟩ | _, m'⟩
  case error.crash => exact ⟨m', rfl⟩
  all_goals exact absurd h fun ⟨_, h⟩ => nomatch h

omit hf in
/-- A call stands one deeper, which is not too deep. -/
theorem within_call (fn : Script.Function) (vs : List Value) :
    Within g (call eval f fn vs) (call eval' f fn vs) := by
  unfold call
  refine within_guard fun _ => within_guard fun hdepth => ?_
  refine within_wrap (fun m => { m with locals := startLocals fn vs })
    (fun m r => restoreLocals m.locals (endCall fn r))
    (within_seq (f := ⟨some fn.name, f.depth + 1⟩) heval (Nat.lt_of_not_le hdepth) fn.body)
    (fun _ => rfl) (fun m r => ?_) (fun m r => crashes_of_call)
    fun m t m' ht => ⟨t.through fn.name, _, rfl, ht⟩
  rw [steps_restoreLocals, after_endCall]

theorem within_callForm (forms : List SourceForm) :
    Within g (callForm env eval f forms) (callForm env eval' f forms) := by
  unfold callForm
  split
  · exact within_trap _ _
  · split
    · exact within_trap _ _
    · exact within_bind (within_args heval hf _) fun _ => within_call heval _ _

omit heval hf in
theorem within_harness {imp : Script.Import} {vs : List Value} (hvs : vs.length = imp.params)
    (himp : ¬imp.Suffices → g.crash) : Within g (harness imp vs) (harness imp vs) := by
  have hfew : ∀ {field : Bytes} {i : Nat}, imp.field = field →
      (imp.Suffices → imp.field = field → i < imp.params) →
      Within g (operand vs i) (operand vs i) := by
    intro field i hfield hneeds
    refine within_operand fun hle => himp fun h => ?_
    have hlt := hneeds h hfield
    omega
  unfold harness
  refine within_guard fun hmodule => within_get fun m => ?_
  have hmodule : imp.module = "harness" := not_not.mp hmodule
  refine within_ite (fun hopen => ?_) fun _ => within_ite (fun hwrite => ?_) fun _ =>
    within_trap _ _
  · have hopen := beq_iff_eq.mp hopen
    refine within_bind (hfew hopen fun h => (h hmodule).1) fun _ => ?_
    refine within_bind (within_lift _) fun _ => within_bind (within_lift _) fun _ => ?_
    exact within_modify fun _ => rfl
  · have hwrite := beq_iff_eq.mp hwrite
    refine within_bind (hfew hwrite fun h => (h hmodule).2) fun _ => within_guard fun _ => ?_
    refine within_bind (hfew hwrite fun h hw => Nat.lt_of_succ_lt ((h hmodule).2 hw)) fun _ => ?_
    refine within_bind (within_lift _) fun _ => within_bind (within_lift _) fun _ => ?_
    exact within_modify fun _ => rfl

theorem within_callImport (hmod : env.module.Lacks → g.crash) (forms : List SourceForm) :
    Within g (callImport env eval f forms) (callImport env eval' f forms) := by
  unfold callImport
  split
  · exact within_trap _ _
  · split
    · exact within_trap _ _
    · next imp himp =>
      refine within_bind (within_args heval hf _) fun vs => within_guard fun hvs => ?_
      refine within_bind (within_harness (not_not.mp hvs) fun h => ?_) fun _ => within_pure _
      exact hmod ⟨_, imp, himp, h⟩

theorem within_switch (kw : Keyword) (forms : List SourceForm) :
    Within g (switch eval kw f forms) (switch eval' kw f forms) := by
  unfold switch
  split
  · exact within_trap _ _
  · refine within_bind (heval f _ hf) fun k => within_bind (within_lift _) fun chosen => ?_
    split
    · exact within_pure _
    · exact within_bind (within_seq heval hf _) fun _ => within_pure _

omit heval hf in
theorem within_access (kw : Keyword) (suffix : Bytes) :
    Within g (access kw suffix) (access kw suffix) := by
  unfold access
  simp only
  split
  · exact within_pure _
  · exact within_trap _ _

theorem within_load (kw : Keyword) (suffix : Bytes) (forms : List SourceForm) :
    Within g (load eval kw suffix f forms) (load eval' kw suffix f forms) := by
  unfold load
  refine within_bind (within_access kw suffix) fun a => ?_
  split
  · refine within_bind (heval f _ hf) fun _ => within_get fun m => ?_
    exact within_bind (within_lift _) fun _ => within_pure _
  · exact within_trap _ _

theorem within_store (kw : Keyword) (suffix : Bytes) (forms : List SourceForm) :
    Within g (store eval kw suffix f forms) (store eval' kw suffix f forms) := by
  unfold store
  refine within_bind (within_access kw suffix) fun a => ?_
  split
  · refine within_bind (heval f _ hf) fun _ => within_bind (heval f _ hf) fun v => ?_
    refine within_get fun m => within_bind (within_lift _) fun _ => ?_
    exact within_bind (within_modify fun _ => rfl) fun _ => within_pure _
  · exact within_trap _ _

theorem within_resolve (n : SourceForm) :
    Within g (resolve env eval f n) (resolve env eval' f n) := by
  unfold resolve
  split
  · split
    · exact within_trap _ _
    · exact within_bind (within_args heval hf _) fun _ => within_pure _
  · exact within_trap _ _

theorem within_invoke (n : SourceForm) :
    Within g (invoke env eval f n) (invoke env eval' f n) := by
  unfold invoke
  refine within_bind (within_resolve heval hf n) fun i => ?_
  refine within_bind (within_modify fun _ => rfl) fun _ => ?_
  refine within_bind (within_call heval _ _) fun v => ?_
  exact within_bind (within_modify fun _ => rfl) fun _ => within_pure _

omit heval hf in
theorem within_verdict (pass : Bool) (expected actual : Bytes) :
    Within g (verdict pass expected actual) (verdict pass expected actual) := by
  unfold verdict
  refine within_bind (within_modify fun m => ?_) fun _ => within_modify fun _ => rfl
  split <;> rfl

theorem within_assertion (expectedFirst : Bool) (n : SourceForm) :
    Within g (assertion env eval expectedFirst f n) (assertion env eval' expectedFirst f n) := by
  unfold assertion
  split
  · refine within_bind (within_resolve heval hf _) fun i => ?_
    refine within_bind (within_modify fun _ => rfl) fun _ => ?_
    refine within_bind (within_call heval _ _) fun actual => ?_
    exact within_bind (heval f _ hf) fun expected => within_verdict _ _ _
  · exact within_trap _ _

omit heval hf in
theorem within_assertHeap (n : SourceForm) : Within g (assertHeap n) (assertHeap n) := by
  unfold assertHeap
  split
  · split
    · exact within_trap _ _
    · refine within_bind (within_modify fun _ => rfl) fun _ => within_get fun m => ?_
      exact within_bind (within_lift _) fun _ => within_verdict _ _ _
  · exact within_trap _ _

omit heval hf in
theorem within_fileContent (name : Bytes) :
    Within g (fileContent env name) (fileContent env name) := by
  unfold fileContent
  refine within_get fun m => ?_
  split
  · exact within_pure _
  · split
    · exact within_pure _
    · exact within_trap _ _

omit heval hf in
theorem within_assertHeapFile (n : SourceForm) :
    Within g (assertHeapFile env n) (assertHeapFile env n) := by
  unfold assertHeapFile
  split
  · split
    · exact within_trap _ _
    · exact within_trap _ _
    · refine within_bind (within_modify fun _ => rfl) fun _ => ?_
      refine within_bind (within_fileContent _) fun _ => within_get fun m => ?_
      exact within_bind (within_lift _) fun _ => within_verdict _ _ _
  · exact within_trap _ _

theorem within_operation (kw : Keyword) (name head : Bytes) (forms : List SourceForm) :
    Within g (operation eval kw name head f forms) (operation eval' kw name head f forms) := by
  unfold operation
  refine within_bind (within_args heval hf forms) fun vs => ?_
  simp only
  split
  · exact within_lift _
  · exact within_trap _ _

/-- Every form inside of a form takes a step. -/
def InnerSteps (g : Gauge) (eval : Inner) : Prop :=
  ∀ (f : Frame) (n : SourceForm) (m : Machine), f.depth ≤ maxCallDepth → g.low ≤ m.steps →
    m.steps ≤ g.budget → m.steps < (after (eval f n m)).steps

/-- The number of rounds is the same, or it does not matter: every round takes a step, and there
are more rounds than steps. -/
def Rounds (g : Gauge) (eval : Inner) (k k' : Nat) : Prop :=
  k = k' ∨ InnerSteps g eval ∧ g.budget < k + g.low ∧ g.budget < k' + g.low

/-- Forms that are not empty take a step. -/
theorem seq_steps (hsteps : InnerSteps g eval) {body : List SourceForm} (hbody : body ≠ [])
    {m : Machine} (hlow : g.low ≤ m.steps) (hhigh : m.steps ≤ g.budget) :
    m.steps < (after (seq eval f body m)).steps := by
  match body, hbody with
  | [n], _ => exact hsteps f n m hf hlow hhigh
  | n :: next :: rest, _ =>
    have hfirst := hsteps f n m hf hlow hhigh
    have hlasts := (heval f n hf m hlow hhigh).lasts
    show _ < (after (EStateM.bind (eval f n) (fun _ => seq eval f (next :: rest)) m)).steps
    unfold EStateM.bind
    cases hr : eval f n m with
    | ok v m₁ =>
      rw [hr] at hfirst hlasts
      have hfirst : m.steps < m₁.steps := hfirst
      cases hlasts with
      | within hle =>
        have hrest := within_seq heval hf (next :: rest) m₁ (by omega) hle
        exact Nat.lt_of_lt_of_le hfirst (g.le hrest.moves)
    | error s m₁ =>
      rw [hr] at hfirst
      exact hfirst

/-- One round of a loop, and whatever the rounds after it do. -/
theorem same_round {k k' : Nat} {label : Option Bytes} {body : List SourceForm} {m : Machine}
    (hlow : g.low ≤ m.steps) (hhigh : m.steps ≤ g.budget)
    (hrest : ∀ v m₁, seq eval f body m = .ok v m₁ → g.low ≤ m₁.steps → m₁.steps ≤ g.budget →
      Same g m₁ (rounds env eval f label body k m₁) (rounds env eval' f label body k' m₁)) :
    Same g m (rounds env eval f label body (k + 1) m)
      (rounds env eval' f label body (k' + 1) m) := by
  obtain ⟨heq, hmoves, hlasts, hspares⟩ := within_seq heval hf body m hlow hhigh
  unfold rounds
  rw [← heq]
  cases hr : seq eval f body m with
  | ok v m₁ =>
    rw [hr] at hmoves hlasts
    cases hlasts with
    | within hle =>
      obtain ⟨heq₁, hmoves₁, hlasts₁, hspares₁⟩ :=
        hrest v m₁ hr (Nat.le_trans hlow (g.le hmoves)) hle
      exact ⟨heq₁, g.trans hmoves hmoves₁, hlasts₁, hspares₁⟩
  | error s m₁ =>
    rw [hr] at hmoves hlasts hspares
    simp only
    split
    · rename_i hgoes
      refine ⟨rfl, hmoves, .within ?_, fun hcrash => absurd hcrash not_crashes_ok⟩
      cases hlasts with
      | within hle => exact hle
      | exhausted hsteps ht => cases hgoes
    · exact ⟨rfl, hmoves, hlasts, hspares⟩

theorem within_rounds {k k' : Nat} (label : Option Bytes) {body : List SourceForm}
    (hbody : body ≠ []) (hk : Rounds g eval k k') :
    Within g (rounds env eval f label body k) (rounds env eval' f label body k') := by
  rcases hk with rfl | ⟨hsteps, hlast, hlast'⟩
  · induction k with
    | zero => exact within_trap _ _
    | succ k ih => exact fun m hlow hhigh => same_round heval hf hlow hhigh fun _ m₁ _ => ih m₁
  · -- there are always more rounds left than steps
    have hmore : ∀ k k' m, g.low ≤ m.steps → m.steps ≤ g.budget → g.budget < k + m.steps →
        g.budget < k' + m.steps →
        Same g m (rounds env eval f label body k m) (rounds env eval' f label body k' m) := by
      intro k
      induction k with
      | zero =>
        intro _ m _ hhigh hlast _
        omega
      | succ k ih =>
        intro k' m hlow hhigh hlast hlast'
        cases k' with
        | zero => omega
        | succ k' =>
          refine same_round heval hf hlow hhigh fun v m₁ hr hlow₁ hhigh₁ => ?_
          have hstep := seq_steps heval hf hsteps hbody hlow hhigh
          rw [hr] at hstep
          have hstep : m.steps < m₁.steps := hstep
          exact ih k' m₁ hlow₁ hhigh₁ (by omega) (by omega)
    exact fun m hlow hhigh => hmore k k' m hlow hhigh (by omega) (by omega)

theorem within_loop {k k' : Nat} (forms : List SourceForm) (hk : Rounds g eval k k') :
    Within g (loop env eval k f forms) (loop env eval' k' f forms) := by
  unfold loop
  refine within_ite (fun _ => within_trap _ _) fun hbody => ?_
  refine within_rounds heval hf _ (fun hnil => hbody ?_) hk
  rw [hnil]
  rfl

/-- A form does nothing of its own that would count as a step. -/
theorem within_form {k k' : Nat} (hmod : env.module.Lacks → g.crash) (n : SourceForm)
    (hk : Rounds g eval k k') :
    Within g (form env eval k f n) (form env eval' k' f n) := by
  unfold form
  refine within_ite (fun _ => within_trap _ _) fun _ => ?_
  cases Opcode.ofName n.head with
  | nop => exact within_pure _
  | block => exact within_block heval hf _
  | loop => exact within_loop heval hf _ hk
  | ite => exact within_ite_ heval hf _
  | br =>
    cases n.args with
    | nil => exact within_trap _ _
    | cons label rest =>
      cases rest with
      | nil => exact within_throw nofun
      | cons => exact within_trap _ _
  | ret =>
    cases n.args with
    | nil => exact within_throw nofun
    | cons value rest => exact within_bind (heval f _ hf) fun _ => within_throw nofun
  | getLocal => exact within_getLocal _
  | setLocal => exact within_setLocal heval hf _
  | call => exact within_callForm heval hf _
  | callImport => exact within_callImport heval hf hmod _
  | invoke => exact within_invoke heval hf n
  | assertion expectedFirst =>
    exact within_bind (within_assertion heval hf expectedFirst n) fun _ => within_pure _
  | assertHeap => exact within_bind (within_assertHeap n) fun _ => within_pure _
  | assertHeapFile => exact within_bind (within_assertHeapFile n) fun _ => within_pure _
  | untranslatable => exact within_trap _ _
  | const kw =>
    cases n.args with
    | nil => exact within_trap _ _
    | cons value rest =>
      cases rest with
      | nil => exact within_lift _
      | cons => exact within_trap _ _
  | switch kw => exact within_switch heval hf kw _
  | load kw suffix => exact within_load heval hf kw suffix _
  | store kw suffix => exact within_store heval hf kw suffix _
  | operation kw name => exact within_operation heval hf kw name _ _
  | unknown => exact within_trap _ _

end

/-- A run in which something else happens where the fuel is used up, or where more calls are running
than there may be. -/
def runBeyond (env : MachineEnv) (beyond : Inner) : Nat → Inner
  | 0, f, n => beyond f n
  | fuel + 1, f, n =>
    if maxCallDepth < f.depth then beyond f n
    else do
      step env
      atLine n.line (form env (runBeyond env beyond fuel) (fuel + 1) f n)

theorem step_eq (env : MachineEnv) (m : Machine) :
    step env m = if env.maxSteps < m.steps + 1
      then .error (.trap { code := .stepLimit, message :=
        "step budget of " ++ Bytes.ofNat env.maxSteps ++ " exhausted" })
        { m with steps := m.steps + 1 }
      else .ok () { m with steps := m.steps + 1 } := by
  show (if env.maxSteps < m.steps + 1 then trap .stepLimit _ else pure () : Eval Unit) _ = _
  split <;> rfl

/-- Running a form takes its step first, and then does what the form does. -/
theorem same_run {env : MachineEnv} {act act' : Eval Value} {m : Machine} {low : Nat} {crash : Prop}
    (hlow : low ≤ m.steps) (hhigh : m.steps ≤ env.maxSteps)
    (h : Within (.rising env.maxSteps (low + 1) crash) act act') :
    Same (.rising env.maxSteps low crash) m ((step env >>= fun _ => act) m)
        ((step env >>= fun _ => act') m)
      ∧ m.steps < (after ((step env >>= fun _ => act) m)).steps := by
  have hrun : ∀ act : Eval Value, (step env >>= fun _ => act) m
      = if env.maxSteps < m.steps + 1
        then .error (.trap { code := .stepLimit, message :=
          "step budget of " ++ Bytes.ofNat env.maxSteps ++ " exhausted" })
          { m with steps := m.steps + 1 }
        else act { m with steps := m.steps + 1 } := by
    intro act
    show EStateM.bind (step env) (fun _ => act) m = _
    unfold EStateM.bind
    rw [step_eq]
    by_cases hlast : env.maxSteps < m.steps + 1
    · rw [if_pos hlast, if_pos hlast]
    · rw [if_neg hlast, if_neg hlast]
  rw [hrun, hrun]
  split
  · refine ⟨⟨rfl, Nat.le_succ _, .exhausted ?_ ⟨rfl, rfl⟩, fun hcrash =>
      nomatch crashes_error.mp hcrash⟩, Nat.lt_succ_self _⟩
    show m.steps + 1 = env.maxSteps + 1
    omega
  · rename_i hmore
    obtain ⟨heq, hmoves, hlasts, hspares⟩ :=
      h { m with steps := m.steps + 1 } (Nat.succ_le_succ hlow)
      (Nat.le_of_not_lt hmore)
    have hmoves : m.steps + 1 ≤ (after (act { m with steps := m.steps + 1 })).steps := hmoves
    exact ⟨⟨heq, Nat.le_of_succ_le hmoves, hlasts, hspares⟩, hmoves⟩

/-- A run does not depend on its fuel if there is more of it than steps, nor on what would happen
where calls are nested too deeply. It takes a step at least, and one more than the budget at most;
then the trap says so. -/
theorem within_run {env : MachineEnv} {crash : Prop} (hmod : env.module.Lacks → crash)
    (beyond : Inner) (fuel : Nat) :
    ∀ {fuel' low : Nat} {f : Frame} (n : SourceForm), f.depth ≤ maxCallDepth →
      env.maxSteps < fuel + low → env.maxSteps < fuel' + low →
      Within (.rising env.maxSteps low crash) (run env fuel f n) (runBeyond env beyond fuel' f n)
        ∧ ∀ m : Machine, low ≤ m.steps → m.steps ≤ env.maxSteps →
          m.steps < (after (run env fuel f n m)).steps := by
  induction fuel with
  | zero =>
    intro fuel' low f n _ hfuel _
    refine ⟨fun m hlow hhigh => ?_, fun m hlow hhigh => ?_⟩
    · have hhigh : m.steps ≤ env.maxSteps := hhigh
      have hlow : low ≤ m.steps := hlow
      omega
    · omega
  | succ fuel ih =>
    intro fuel' low f n hf hfuel hfuel'
    cases fuel' with
    | zero =>
      refine ⟨fun m hlow hhigh => ?_, fun m hlow hhigh => ?_⟩
      · have hhigh : m.steps ≤ env.maxSteps := hhigh
        have hlow : low ≤ m.steps := hlow
        omega
      · omega
    | succ fuel' =>
      have hinner : InnerWithin (.rising env.maxSteps (low + 1) crash) (run env fuel)
          (runBeyond env beyond fuel') :=
        fun f n hf => (@ih fuel' (low + 1) f n hf (by omega) (by omega)).1
      have hsteps : InnerSteps (.rising env.maxSteps (low + 1) crash) (run env fuel) :=
        fun f n m hf => (@ih fuel' (low + 1) f n hf (by omega) (by omega)).2 m
      have hform : Within (.rising env.maxSteps (low + 1) crash)
          (atLine n.line (form env (run env fuel) (fuel + 1) f n))
          (atLine n.line (form env (runBeyond env beyond fuel') (fuel' + 1) f n)) := by
        refine within_atLine _ (within_form hinner hf hmod n (.inr ⟨hsteps, ?_, ?_⟩))
        · show env.maxSteps < fuel + 1 + (low + 1)
          omega
        · show env.maxSteps < fuel' + 1 + (low + 1)
          omega
      have hbeyond : runBeyond env beyond (fuel' + 1) f n = (step env >>= fun _ =>
          atLine n.line (form env (runBeyond env beyond fuel') (fuel' + 1) f n)) := by
        rw [runBeyond, if_neg (Nat.not_lt.mpr hf)]
      rw [hbeyond]
      exact ⟨fun m hlow hhigh => (same_run hlow hhigh hform).1,
        fun m hlow hhigh => (same_run hlow hhigh hform).2⟩

/-- Only running a form counts as a step: a form whose inner forms count none counts none. -/
theorem steps_form {env : MachineEnv} {eval : Inner}
    (heval : ∀ f n m, (after (eval f n m)).steps = m.steps) {f : Frame}
    (hf : f.depth ≤ maxCallDepth) (fuel : Nat) (n : SourceForm) (m : Machine) :
    (after (form env eval fuel f n m)).steps = m.steps := by
  have hinner : InnerWithin (.still m.steps) eval eval := by
    intro f n _ m' _ hhigh
    refine ⟨rfl, (heval f n m').symm, .within ?_, fun _ => trivial⟩
    rw [heval]
    exact hhigh
  have hform : Within (.still m.steps) (form env eval fuel f n) (form env eval fuel f n) :=
    within_form hinner hf (fun _ => trivial) n (.inl rfl)
  exact (hform m (Nat.zero_le _) (Nat.le_refl _)).moves.symm

end Eval

namespace Machine

/-- The machine as a directive starts with it: no step is taken. -/
def fresh (m : Machine) : Machine := { m with steps := 0, pending := false }

/-- How the form of a directive ends. No call is running where it stands. -/
def ending (env : MachineEnv) (n : SourceForm) (m : Machine) : EStateM.Result Stop Machine Value :=
  Eval.run env (env.maxSteps + 1) {} n m.fresh

/-- The directives that run, each with the machine that it starts from. -/
def trail (env : MachineEnv) : List SourceForm → Machine → List (SourceForm × Machine)
  | [], _ => []
  | n :: rest, m =>
    (n, m) ::
      if (directive env n m).1 = .goOn then trail env rest (directive env n m).2 else []

/-- A directive ends within its budget. -/
structure EndsInTime (env : MachineEnv) (n : SourceForm) (m : Machine) : Prop where
  /-- With more fuel it ends in the same way, and so it does whatever would happen where the fuel is
  used up or calls are nested too deeply: neither place is ever reached. -/
  ends : ∀ beyond fuel, env.maxSteps < fuel →
    Eval.runBeyond env beyond fuel {} n m.fresh = ending env n m
  /-- At most one form more than the budget allows is looked at. -/
  steps : (Eval.after (ending env n m)).steps ≤ env.maxSteps + 1
  /-- If there was one too many, the directive traps and says so. -/
  exhausted : (Eval.after (ending env n m)).steps = env.maxSteps + 1 →
    ∃ t m' printed, ending env n m = .error (.trap t) m' ∧ t.Exhausts env.maxSteps
      ∧ directive env n m = (.goOn, { m' with
        traps := m'.traps + 1
        printed := ("-> trap: " ++ t.text ++ "\n") :: printed
        pending := false })
  /-- It ends the process only if an import of the module has fewer operands than it takes. -/
  spares : (directive env n m).1 = .crash → env.module.Lacks
  /-- Steps that were taken before do not count. -/
  full : ∀ s pending, directive env n { m with steps := s, pending := pending } = directive env n m

theorem directive_eq_crash {env : MachineEnv} {n : SourceForm} {m : Machine} :
    (directive env n m).1 = .crash ↔ Eval.Crashes (ending env n m) := by
  have hending : Eval.run env (env.maxSteps + 1) {} n { m with steps := 0, pending := false }
      = ending env n m := rfl
  unfold directive
  rw [hending]
  rcases ending env n m with ⟨v, m'⟩ | ⟨s, m'⟩
  · exact iff_of_false nofun Eval.not_crashes_ok
  · rw [Eval.crashes_error]
    cases s with
    | crash => exact iff_of_true rfl rfl
    | _ => exact iff_of_false nofun nofun

theorem endsInTime (env : MachineEnv) (n : SourceForm) (m : Machine) : EndsInTime env n m := by
  have hrun : ∀ beyond fuel, env.maxSteps < fuel →
      Eval.Same (.rising env.maxSteps 0 env.module.Lacks) m.fresh (ending env n m)
        (Eval.runBeyond env beyond fuel {} n m.fresh) :=
    fun beyond fuel hfuel => (@Eval.within_run env _ id beyond (env.maxSteps + 1) fuel 0 {} n
      (Nat.zero_le _) (Nat.lt_succ_self _) hfuel).1 m.fresh (Nat.zero_le _) (Nat.zero_le _)
  have hlasts := (hrun (Eval.run env 0) (env.maxSteps + 1) (Nat.lt_succ_self _)).lasts
  constructor
  case ends => exact fun beyond fuel hfuel => (hrun beyond fuel hfuel).eq.symm
  case steps =>
    generalize ending env n m = r at hlasts ⊢
    cases hlasts with
    | within hle => exact Nat.le_succ_of_le hle
    | exhausted hsteps _ => exact Nat.le_of_eq hsteps
  case exhausted =>
    intro hused
    generalize hr : ending env n m = r at hlasts hused ⊢
    cases hlasts with
    | within hle =>
      have hle : (Eval.after r).steps ≤ env.maxSteps := hle
      omega
    | exhausted hsteps ht =>
      rename_i t m'
      have hrun : Eval.run env (env.maxSteps + 1) {} n { m with steps := 0, pending := false }
          = .error (.trap t) m' := hr
      refine ⟨t, m', if m'.pending then m'.printed else ("(" ++ n.head ++ " ...)\n") :: m'.printed,
        rfl, ht, ?_⟩
      unfold directive
      rw [hrun]
      simp only
      split <;> rfl
  case spares =>
    exact fun hcrash => (hrun (Eval.run env 0) (env.maxSteps + 1) (Nat.lt_succ_self _)).spares
      (directive_eq_crash.mp hcrash)
  case full => exact fun _ _ => rfl

/-- A run does its directives one after the other. -/
theorem directives_eq_trail (env : MachineEnv) (ds : List SourceForm) (m : Machine) :
    directives env ds m = (trail env ds m).foldl (fun _ p => directive env p.1 p.2) (.goOn, m) := by
  induction ds generalizing m with
  | nil => rfl
  | cons n rest ih =>
    rw [directives, trail, List.foldl_cons]
    rcases hd : directive env n m with ⟨_ | _ | _, m'⟩
    · exact ih m'
    · rfl
    · rfl

/-- A run that ends the process does so in one of its directives. -/
theorem directives_eq_crash {env : MachineEnv} {ds : List SourceForm} {m : Machine}
    (h : (directives env ds m).1 = .crash) :
    ∃ p ∈ trail env ds m, (directive env p.1 p.2).1 = .crash := by
  induction ds generalizing m with
  | nil => cases h
  | cons n rest ih =>
    rw [directives] at h
    rw [trail]
    rcases hd : directive env n m with ⟨_ | _ | _, m'⟩
    · rw [hd] at h
      obtain ⟨p, hp, hcrash⟩ := ih h
      exact ⟨p, by simpa using .inr hp, hcrash⟩
    · rw [hd] at h
      cases h
    · exact ⟨(n, m), List.mem_cons_self, by rw [hd]⟩

end Machine

/-- An import whose operands are there ends the process just if it declares too few of them. -/
theorem Eval.crashes_harness_iff {imp : Script.Import} {vs : List Value} {m : Machine}
    (hvs : vs.length = imp.params) : Crashes (harness imp vs m) ↔ ¬imp.Suffices := by
  constructor
  · have hwithin : Within (.rising m.steps m.steps (¬imp.Suffices)) (harness imp vs)
        (harness imp vs) := within_harness hvs id
    exact (hwithin m (Nat.le_refl _) (Nat.le_refl _)).spares
  · intro himp
    have habsent : ∀ {i : Nat}, imp.params ≤ i → operand vs i = throw .crash := by
      intro i hi
      rw [operand, List.getElem?_eq_none (hvs ▸ hi)]
    obtain ⟨hmodule, hfew⟩ := Classical.not_imp.mp himp
    refine ⟨m, ?_⟩
    unfold harness
    rw [if_neg (not_not.mpr hmodule)]
    by_cases hopen : imp.field = "stdout_open"
    · have hnone : imp.params ≤ 0 := by
        by_contra hsome
        refine hfew ⟨fun _ => by omega, fun hwrite => ?_⟩
        exact absurd (hopen.symm.trans hwrite) (by decide)
      simp only [hopen, habsent hnone]
      rfl
    · have hwrite : imp.field = "stdout_write" := by
        by_contra hother
        exact hfew ⟨fun h => absurd h hopen, fun h => absurd h hother⟩
      have hone : imp.params ≤ 1 := by
        by_contra hmore
        exact hfew ⟨fun h => absurd h hopen, fun _ => by omega⟩
      simp only [hwrite, habsent hone]
      rfl

/-- Every run of a script ends within its budget: its directives run one after the other, and each
of them ends in time. A form counts as a step when it is run, and nothing else does. There is a
report unless one of the directives ended the process. None does so if every import declares the
operands that its operation takes; a call of an import that does not ends the process. -/
theorem run_ends_in_time {text : Bytes} {o : RunOptions} {forms ds : List SourceForm}
    {mod : Script.Module} {start : Machine} (hread : Script.read text = .ok forms)
    (hmod : Script.instantiate forms = .ok (mod, ds)) (hstart : Machine.start mod = .ok start)
    (hsteps : 1 ≤ o.maxSteps) :
    let env : MachineEnv := ⟨mod, o.maxSteps.toNat, o.readFile⟩
    let last := (Machine.trail env ds start).foldl (fun _ p => Machine.directive env p.1 p.2)
      (.goOn, start)
    (o.cancelled = false → (Script.execute text o).1
        = if last.1 = .crash then .error (.crash .absent) else .ok last.2.report)
      ∧ (∀ p ∈ Machine.trail env ds start, Machine.EndsInTime env p.1 p.2)
      ∧ (last.1 = .crash → mod.Lacks)
      ∧ (∀ imp vs m, vs.length = imp.params →
        (Eval.Crashes (Eval.harness imp vs m) ↔ ¬imp.Suffices))
      ∧ ∀ (eval : Eval.Inner), (∀ f n m, (Eval.after (eval f n m)).steps = m.steps) →
        ∀ (f : Frame) (fuel : Nat) (n : SourceForm) (m : Machine), f.depth ≤ maxCallDepth →
          (Eval.after (Eval.form env eval fuel f n m)).steps = m.steps := by
  intro env last
  have hlast : last = Machine.directives env ds start :=
    (Machine.directives_eq_trail env ds start).symm
  refine ⟨fun hgo => ?_, fun p _ => Machine.endsInTime env p.1 p.2, fun hcrash => ?_,
    fun _ _ _ => Eval.crashes_harness_iff,
    fun eval heval f fuel n m hf => Eval.steps_form heval hf fuel n m⟩
  · have henv : (⟨mod, o.steps, o.readFile⟩ : MachineEnv) = env := by
      have hsteps : ¬o.maxSteps ≤ 0 := by omega
      rw [RunOptions.steps, if_neg hsteps]
    unfold Script.execute
    rw [hread]
    simp only [hmod, hstart, hgo, Bool.false_and, Bool.false_eq_true, if_false, henv, ← hlast]
    rcases last with ⟨_ | _ | _, m⟩ <;> rfl
  · rw [hlast] at hcrash
    obtain ⟨p, -, hp⟩ := Machine.directives_eq_crash hcrash
    exact (Machine.endsInTime env p.1 p.2).spares hp

/-- A loop that nothing leaves runs into the end of its budget of three steps. -/
theorem run_ends_in_time_loop :
    let text : Bytes := "(module)(loop (nop))"
    let o : RunOptions := { maxSteps := 3 }
    ∃ forms mod ds start, Script.read text = .ok forms
      ∧ Script.instantiate forms = .ok (mod, ds) ∧ Machine.start mod = .ok start
      ∧ ∃ p ∈ Machine.trail ⟨mod, 3, o.readFile⟩ ds start,
        Machine.EndsInTime ⟨mod, 3, o.readFile⟩ p.1 p.2
          ∧ (Eval.after (Machine.ending ⟨mod, 3, o.readFile⟩ p.1 p.2)).steps = 4 := by
  intro text o
  have hread : Script.read text = .ok [.list 1 [.atom 1 "module"],
      .list 1 [.atom 1 "loop", .list 1 [.atom 1 "nop"]]] := rfl
  refine ⟨_, {}, [.list 1 [.atom 1 "loop", .list 1 [.atom 1 "nop"]]], {}, hread, rfl, rfl, ?_⟩
  obtain ⟨_, hends, _⟩ := run_ends_in_time (o := o) hread rfl rfl (by decide)
  exact ⟨_, List.mem_cons_self, hends _ List.mem_cons_self, rfl⟩

/-- A script that opens the output through an import without operands. -/
def shortImportScript : Bytes :=
  "(module (import $open \"harness\" \"stdout_open\"))(call_import $open)(nop)"

/-- The script is accepted. Its first directive ends the process: there is no report, and the second
one does not run. -/
theorem short_import_ends_process :
    (Script.read shortImportScript >>= Script.instantiate).toOption.isSome
      ∧ (Script.execute shortImportScript { maxSteps := 100 }).1 = .error (.crash .absent) :=
  ⟨rfl, rfl⟩

end WastForge
