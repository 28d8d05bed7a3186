import WastForge.Proofs.Machine.Independence
import WastForge.Proofs.Text.Decimal

/-!
# How forms end

What a form does, without the steps that it takes: how it ends from a machine if it is given a
budget that lasts. A run that is not stopped by its budget ends as it does with every larger one,
so the way in which a form ends is a matter of the form alone.
-/

namespace WastForge

/-- A machine without its count of steps. -/
def Machine.plain (m : Machine) : Machine := { m with steps := 0 }

/-- A machine with a value given to a local. -/
def Machine.set (m : Machine) (name : Bytes) (v : Value) : Machine :=
  { m with locals := m.locals.set name v }

/-- Why a form was left early, without the line of a trap. -/
def Stop.plain : Stop → Stop
  | .trap t => .trap t.plain
  | s => s

theorem Machine.visible_nil (m : Machine) : m.visible [] = m.plain := by
  simp [visible, plain]

theorem Machine.visible_plain (hidden : List Bytes) (m : Machine) :
    m.plain.visible hidden = m.visible hidden := rfl

theorem Machine.has_nil (m : Machine) : m.Has [] := fun _ h => absurd h List.not_mem_nil

namespace Eval

/-- The trap of a budget that is used up. -/
def Exhausted (budget : Nat) : Except Stop Value → Prop
  | .error (.trap t) => t.Exhausts budget
  | _ => False

/-- How an action ended, without the line of a trap. -/
def outcome : EStateM.Result Stop Machine Value → Except Stop Value
  | .ok v _ => .ok v
  | .error s _ => .error s.plain

/-- The machine that an action left behind. -/
def machineOf : EStateM.Result Stop Machine Value → Machine
  | .ok _ m => m
  | .error _ m => m

/-- From `start`, the action ends in `o` with the machine `m`, after at most `k` steps. -/
structure Settles (act : Eval Value) (start : Machine) (k : Nat) (o : Except Stop Value)
    (m : Machine) : Prop where
  outcome : outcome (act start) = o
  machine : (machineOf (act start)).plain = m
  steps : (machineOf (act start)).steps ≤ start.steps + k

section Settles

variable {act act' : Eval Value} {start start' x m : Machine} {k k' : Nat}
variable {o : Except Stop Value}

theorem Settles.ok {v : Value} (h : Settles act start k (.ok v) m) :
    ∃ x, act start = .ok v x ∧ x.plain = m ∧ x.steps ≤ start.steps + k := by
  obtain ⟨houtcome, hmachine, hsteps⟩ := h
  cases hrun : act start with
  | ok u x =>
    rw [hrun] at houtcome hmachine hsteps
    cases houtcome
    exact ⟨x, rfl, hmachine, hsteps⟩
  | error s x =>
    rw [hrun] at houtcome
    cases houtcome

theorem Settles.error {s : Stop} (h : Settles act start k (.error s) m) :
    ∃ s' x, act start = .error s' x ∧ s'.plain = s ∧ x.plain = m
      ∧ x.steps ≤ start.steps + k := by
  obtain ⟨houtcome, hmachine, hsteps⟩ := h
  cases hrun : act start with
  | ok u x =>
    rw [hrun] at houtcome
    cases houtcome
  | error s' x =>
    rw [hrun] at houtcome hmachine hsteps
    cases houtcome
    exact ⟨s', x, rfl, rfl, hmachine, hsteps⟩

theorem settles_ok {v : Value} (hrun : act start = .ok v x) (hsteps : x.steps ≤ start.steps + k) :
    Settles act start k (.ok v) x.plain := by
  refine ⟨?_, ?_, ?_⟩ <;> rw [hrun]
  · rfl
  · rfl
  · exact hsteps

theorem settles_error {s : Stop} (hrun : act start = .error s x)
    (hsteps : x.steps ≤ start.steps + k) : Settles act start k (.error s.plain) x.plain := by
  refine ⟨?_, ?_, ?_⟩ <;> rw [hrun]
  · rfl
  · rfl
  · exact hsteps

/-- An action that goes on as another one settles with it. -/
theorem settles_congr (hrun : act start = act' start')
    (hk : start'.steps + k' ≤ start.steps + k) (h : Settles act' start' k' o m) :
    Settles act start k o m := by
  obtain ⟨houtcome, hmachine, hsteps⟩ := h
  rw [← hrun] at houtcome hmachine hsteps
  exact ⟨houtcome, hmachine, by omega⟩

theorem settles_plain (h : Settles act start k o m) : m.plain = m := by
  rw [← h.machine]
  rfl

/-- An action that fails and goes on alike settles alike. -/
theorem settles_iff {g : Except Stop Value → Except Stop Value}
    (houtcome : outcome (act start) = g (outcome (act' start)))
    (hmachine : machineOf (act start) = machineOf (act' start)) :
    Settles act start k o m ↔ ∃ o', Settles act' start k o' m ∧ o = g o' := by
  constructor
  · rintro ⟨rfl, hm, hsteps⟩
    rw [hmachine] at hm hsteps
    exact ⟨_, ⟨rfl, hm, hsteps⟩, houtcome⟩
  · rintro ⟨_, ⟨rfl, hm, hsteps⟩, rfl⟩
    rw [← hmachine] at hm hsteps
    exact ⟨houtcome, hm, hsteps⟩

end Settles

theorem bind_of_ok {α β : Type} {act : Eval α} {next : α → Eval β} {a : α} {m x : Machine}
    (h : act m = .ok a x) : (act >>= next) m = next a x := by
  show EStateM.bind act next m = _
  simp only [EStateM.bind, h]

theorem bind_of_error {α β : Type} {act : Eval α} {next : α → Eval β} {s : Stop} {m x : Machine}
    (h : act m = .error s x) : (act >>= next) m = .error s x := by
  show EStateM.bind act next m = _
  simp only [EStateM.bind, h]

variable {w : Twins} {hidden : List Bytes} {bound : Bytes → Prop}

/-- An action that agrees with one that settles does so too. -/
theorem settles_of_sim {act₁ act₂ : Eval Value} {x₁ x₂ m₁ : Machine} {k : Nat}
    {o : Except Stop Value} (hsim : Sim w hidden bound act₁ act₂) (hx : Alike w hidden x₁ x₂)
    (h₁ : w.start₁ = x₁.steps) (h₂ : w.start₂ = x₂.steps)
    (h : Settles act₁ x₁ k o m₁) (ho : ¬Exhausted w.budget₁ o) :
    ∃ m₂, Settles act₂ x₂ k o m₂ ∧ m₁.visible hidden = m₂.visible hidden
      ∧ (w.absent ∨ m₁.Has hidden) ∧ (w.absent ∨ m₂.Has hidden)
      ∧ ∀ l, o = .error (.branch l) → bound l := by
  have hagree := hsim x₁ x₂ hx
  obtain ⟨rfl, rfl, hsteps⟩ := h
  generalize act₁ x₁ = r₁ at hagree hsteps ho
  generalize hrun₂ : act₂ x₂ = r₂ at hagree
  cases hagree with
  | ok hy =>
    have := hy.steps
    simp only [machineOf] at hsteps
    exact ⟨_, settles_ok hrun₂ (by omega), hy.visible, hy.has₁, hy.has₂, fun _ h => by cases h⟩
  | branch hl hy =>
    have := hy.steps
    simp only [machineOf] at hsteps
    refine ⟨_, settles_error hrun₂ (by omega), hy.visible, hy.has₁, hy.has₂, ?_⟩
    intro l h
    cases h
    exact hl
  | ret hy | crash hy =>
    have := hy.steps
    simp only [machineOf] at hsteps
    exact ⟨_, settles_error hrun₂ (by omega), hy.visible, hy.has₁, hy.has₂, fun _ h => by cases h⟩
  | @trap t u y₁ y₂ ht _ hy =>
    have := hy.steps
    simp only [machineOf] at hsteps
    have hsame : outcome (.error (.trap t) y₁) = .error (Stop.trap u).plain :=
      congrArg (fun t => Except.error (Stop.trap t)) ht
    rw [hsame]
    exact ⟨_, settles_error hrun₂ (by omega), hy.visible, hy.has₁, hy.has₂, fun _ h => by cases h⟩
  | exhausted ht => exact absurd ht ho

/-- An action for every budget and every fuel of the forms inside. -/
abbrev Proc := MachineEnv → Nat → Eval Value

namespace Proc

variable {env : MachineEnv} {p q : Proc} {m m' : Machine} {o : Except Stop Value}

/-- With a budget that lasts, the action ends in `o` with the machine `m'`. -/
def Ends (env : MachineEnv) (p : Proc) (m : Machine) (o : Except Stop Value) (m' : Machine) :
    Prop :=
  ∃ budget fuel start k, start.plain = m
    ∧ Settles (p (env.within budget) fuel) start k o m' ∧ ¬Exhausted budget o

/-- Two actions agree, whatever the budget is. -/
def Agrees (hidden : List Bytes) (bound : Bytes → Prop) (p q : Proc) : Prop :=
  ∀ (w : Twins) (fuel₁ fuel₂ : Nat), fuel₁ ≤ fuel₂ →
    Sim w hidden bound (p w.env₁ fuel₁) (q w.env₂ fuel₂)

/-- How an action ends does not depend on the budget. -/
def Stable (p : Proc) : Prop := Agrees [] (fun _ => True) p p

/-- From some budget on, actions that agree end in the same way. -/
theorem Ends.eventually (h : Ends env p m o m') (hpq : Agrees [] (fun _ => True) p q) :
    ∃ k, ∀ budget fuel start, start.plain = m → k ≤ fuel → start.steps + k ≤ budget →
      Settles (q (env.within budget) fuel) start k o m' := by
  obtain ⟨budget₁, fuel₁, start₁, k, hstart₁, hsettles, hlasts⟩ := h
  refine ⟨budget₁ + fuel₁ + k, ?_⟩
  intro budget fuel start hstart hfuel hbudget
  let w : Twins := ⟨env, False, budget₁, budget, start₁.steps, start.steps, by omega⟩
  have halike : Alike w [] start₁ start := by
    refine ⟨?_, Nat.add_comm _ _, .inr start₁.has_nil, .inr start.has_nil⟩
    rw [Machine.visible_nil, Machine.visible_nil, hstart₁, hstart]
  obtain ⟨m₂, hm₂, hvisible, -⟩ :=
    settles_of_sim (hpq w fuel₁ fuel (by omega)) halike rfl rfl hsettles hlasts
  rw [Machine.visible_nil, Machine.visible_nil, settles_plain hsettles,
    settles_plain hm₂] at hvisible
  subst hvisible
  exact settles_congr rfl (by omega) hm₂

/-- A trap is that of a used up budget for one budget at most. -/
theorem exists_lasting (o : Except Stop Value) (k : Nat) :
    ∃ budget, k ≤ budget ∧ ¬Exhausted budget o := by
  by_cases h : Exhausted k o
  · refine ⟨k + 1, Nat.le_succ k, fun h' => ?_⟩
    match o, h, h' with
    | .error (.trap t), h, h' =>
      have hmessage := h.2.symm.trans h'.2
      have htext := List.append_cancel_left (List.append_cancel_right hmessage)
      have := Bytes.ofNat_injective htext
      omega
  · exact ⟨k, Nat.le_refl k, h⟩

theorem ends_of_eventually (hm : m.plain = m)
    (h : ∃ k, ∀ budget fuel start, start.plain = m → k ≤ fuel → start.steps + k ≤ budget →
      Settles (p (env.within budget) fuel) start k o m') : Ends env p m o m' := by
  obtain ⟨k, hk⟩ := h
  obtain ⟨budget, hbudget, hlasts⟩ := exists_lasting o k
  have hsteps : m.steps = 0 := by
    rw [← hm]
    rfl
  exact ⟨budget, k, m, k, hm, hk budget k m hm (Nat.le_refl k) (by omega), hlasts⟩

theorem Ends.plain (h : Ends env p m o m') : m.plain = m ∧ m'.plain = m' := by
  obtain ⟨_, _, start, k, rfl, hsettles, _⟩ := h
  exact ⟨rfl, settles_plain hsettles⟩

/-- Actions that agree end alike. -/
theorem Ends.of_agrees (h : Ends env p m o m') (hpq : Agrees [] (fun _ => True) p q) :
    Ends env q m o m' :=
  ends_of_eventually h.plain.1 (h.eventually hpq)

/-- An action ends in one way only. -/
theorem Ends.unique {o₁ o₂ : Except Stop Value} {m₁ m₂ : Machine} (hp : Stable p)
    (h₁ : Ends env p m o₁ m₁) (h₂ : Ends env p m o₂ m₂) : o₁ = o₂ ∧ m₁ = m₂ := by
  have hm := h₁.plain.1
  obtain ⟨k₁, hk₁⟩ := h₁.eventually hp
  obtain ⟨k₂, hk₂⟩ := h₂.eventually hp
  have hsteps : m.steps = 0 := by
    rw [← hm]
    rfl
  have hset₁ := hk₁ (k₁ + k₂) (k₁ + k₂) m hm (by omega) (by omega)
  have hset₂ := hk₂ (k₁ + k₂) (k₁ + k₂) m hm (by omega) (by omega)
  exact ⟨hset₁.outcome.symm.trans hset₂.outcome, hset₁.machine.symm.trans hset₂.machine⟩

/-- From machines that differ in hidden locals only, actions that do not name them end alike. -/
theorem Ends.transfer {n : Machine} {absent : Prop} (h : Ends env p m o m')
    (hpq : Agrees hidden bound p q) (hvisible : m.visible hidden = n.visible hidden)
    (hm : absent ∨ m.Has hidden) (hn : absent ∨ n.Has hidden) (hplain : n.plain = n) :
    ∃ n', Ends env q n o n' ∧ m'.visible hidden = n'.visible hidden
      ∧ (absent ∨ m'.Has hidden) ∧ (absent ∨ n'.Has hidden)
      ∧ ∀ l, o = .error (.branch l) → bound l := by
  obtain ⟨budget₁, fuel₁, start₁, k, rfl, hsettles, hlasts⟩ := h
  have hsteps : n.steps = 0 := by
    rw [← hplain]
    rfl
  obtain ⟨budget, hbudget, hlasts₂⟩ := exists_lasting o budget₁
  let w : Twins := ⟨env, absent, budget₁, budget, start₁.steps, n.steps, by omega⟩
  have halike : Alike w hidden start₁ n :=
    ⟨hvisible, Nat.add_comm _ _, hm, hn⟩
  obtain ⟨n', hn', hv, h₁, h₂, hl⟩ :=
    settles_of_sim (hpq w fuel₁ fuel₁ (Nat.le_refl _)) halike rfl rfl hsettles hlasts
  exact ⟨n', ⟨budget, fuel₁, n, k, hplain, hn', hlasts₂⟩, hv, h₁, h₂, hl⟩

theorem ends_pure (v : Value) :
    Ends env (fun _ _ => pure v) m o m' ↔ m.plain = m ∧ o = .ok v ∧ m' = m := by
  constructor
  · rintro ⟨_, _, start, _, rfl, ⟨rfl, rfl, _⟩, _⟩
    exact ⟨rfl, rfl, rfl⟩
  · rintro ⟨hm, rfl, rfl⟩
    exact ⟨0, 0, m', 0, hm, ⟨rfl, hm, Nat.le_refl _⟩, fun h => h⟩

theorem ends_throw (s : Stop) :
    Ends env (fun _ _ => throw s) m o m' ↔ m.plain = m ∧ o = .error s.plain ∧ m' = m := by
  constructor
  · rintro ⟨_, _, start, _, rfl, ⟨rfl, rfl, _⟩, _⟩
    exact ⟨rfl, rfl, rfl⟩
  · rintro ⟨hm, rfl, rfl⟩
    obtain ⟨budget, _, hlasts⟩ := exists_lasting (.error s.plain) 0
    exact ⟨budget, 0, m', 0, hm, ⟨rfl, hm, Nat.le_refl _⟩, hlasts⟩

/-- One action after another: the second one goes on where the first one ended, unless that was
left early. -/
theorem ends_bind {q : Value → Proc} (hp : Stable p) (hq : ∀ v, Stable (q v)) :
    Ends env (fun e k => p e k >>= fun v => q v e k) m o m' ↔
      (∃ v m₁, Ends env p m (.ok v) m₁ ∧ Ends env (q v) m₁ o m')
        ∨ ∃ s, o = .error s ∧ Ends env p m (.error s) m' := by
  constructor
  · rintro ⟨budget, fuel, start, k, hstart, hsettles, hlasts⟩
    cases hrun : p (env.within budget) fuel start with
    | ok v x =>
      have hgo : (p (env.within budget) fuel >>= fun v => q v (env.within budget) fuel) start
          = q v (env.within budget) fuel x := bind_of_ok hrun
      refine .inl ⟨v, x.plain, ⟨budget, fuel, start, x.steps, hstart, ?_, fun h => h⟩, ?_⟩
      · exact settles_ok hrun (Nat.le_add_left _ _)
      · refine ⟨budget, fuel, x, start.steps + k, rfl, ?_, hlasts⟩
        exact settles_congr hgo.symm (by omega) hsettles
    | error s x =>
      have hgo : (p (env.within budget) fuel >>= fun v => q v (env.within budget) fuel) start
          = p (env.within budget) fuel start := (bind_of_error hrun).trans hrun.symm
      have hfirst := settles_congr hgo.symm (Nat.le_refl _) hsettles
      obtain rfl : .error s.plain = o := by
        rw [← hfirst.outcome, hrun]
        rfl
      exact .inr ⟨_, rfl, budget, fuel, start, k, hstart, hfirst, hlasts⟩
  · rintro (⟨v, m₁, hfirst, hsecond⟩ | ⟨s, rfl, hfirst⟩)
    · obtain ⟨k₁, hk₁⟩ := hfirst.eventually hp
      obtain ⟨k₂, hk₂⟩ := hsecond.eventually (hq v)
      refine ends_of_eventually hfirst.plain.1 ⟨k₁ + k₂, ?_⟩
      intro budget fuel start hstart hfuel hbudget
      obtain ⟨x, hrun, hx, hsteps⟩ := (hk₁ budget fuel start hstart (by omega) (by omega)).ok
      have hset := hk₂ budget fuel x hx (by omega) (by omega)
      exact settles_congr (bind_of_ok hrun) (by omega) hset
    · obtain ⟨k₁, hk₁⟩ := hfirst.eventually hp
      refine ends_of_eventually hfirst.plain.1 ⟨k₁, ?_⟩
      intro budget fuel start hstart hfuel hbudget
      have hset := hk₁ budget fuel start hstart hfuel hbudget
      obtain ⟨s', x, hrun, _⟩ := hset.error
      exact settles_congr ((bind_of_error hrun).trans hrun.symm) (Nat.le_refl _) hset

theorem stable_bind {q : Value → Proc} (hp : Stable p) (hq : ∀ v, Stable (q v)) :
    Stable fun e k => p e k >>= fun v => q v e k :=
  fun w fuel₁ fuel₂ hfuel =>
    sim_bind (hp w fuel₁ fuel₂ hfuel) fun v => hq v w fuel₁ fuel₂ hfuel

theorem stable_pure (v : Value) : Stable fun _ _ => pure v :=
  fun _ _ _ _ => sim_pure v

theorem stable_run (f : Frame) (n : SourceForm) : Stable fun e k => run e k f n :=
  fun w _ _ hfuel => innerSim_run w hfuel [] _ f n n rfl (Form.safe_free n.form)

theorem stable_form (f : Frame) (n : SourceForm) :
    Stable fun e k => form e (run e k) (k + 1) f n :=
  fun w _ _ hfuel =>
    sim_form (innerSim_run w hfuel) f rfl (Form.safe_free n.form) (Nat.succ_le_succ hfuel)

/-- The line of a trap does not count. -/
theorem settles_atLine {act : Eval Value} {line : UInt32} {start : Machine} {k : Nat} :
    Settles (atLine line act) start k o m' ↔ Settles act start k o m' := by
  have hsame : outcome (atLine line act start) = outcome (act start)
      ∧ machineOf (atLine line act start) = machineOf (act start) := by
    unfold atLine
    cases act start with
    | ok v x => exact ⟨rfl, rfl⟩
    | error s x =>
      cases s with
      | trap t =>
        exact ⟨congrArg (fun t => Except.error (Stop.trap t)) (plain_atLine t line), rfl⟩
      | branch l => exact ⟨rfl, rfl⟩
      | ret v => exact ⟨rfl, rfl⟩
      | crash => exact ⟨rfl, rfl⟩
  rw [settles_iff (g := fun o => o) hsame.1 hsame.2]
  simp

/-- A form is evaluated in a step of its own. -/
theorem ends_run (f : Frame) (n : SourceForm) :
    Ends env (fun e k => run e k f n) m o m'
      ↔ Ends env (fun e k => form e (run e k) (k + 1) f n) m o m' := by
  constructor
  · rintro ⟨budget, fuel, start, k, hstart, hsettles, hlasts⟩
    have hexhausted : ∀ x : Machine, run (env.within budget) fuel f n start
        ≠ .error (.trap ⟨.stepLimit, "step budget of " ++ Bytes.ofNat budget ++ " exhausted",
          0, []⟩) x := by
      intro x hrun
      have hend : outcome (run (env.within budget) fuel f n start) = o := hsettles.outcome
      rw [hrun] at hend
      rw [← hend] at hlasts
      exact hlasts ⟨rfl, rfl⟩
    cases fuel with
    | zero => exact absurd rfl (hexhausted start)
    | succ fuel =>
      by_cases hused : budget < start.steps + 1
      · refine absurd ?_ (hexhausted { start with steps := start.steps + 1 })
        refine bind_of_error ?_
        show (if budget < start.steps + 1 then trap .stepLimit _ else pure ()) _ = _
        rw [if_pos hused]
        rfl
      · have hstep : step (env.within budget) start
            = .ok () { start with steps := start.steps + 1 } := by
          show (if budget < start.steps + 1 then trap .stepLimit _ else pure ()) _ = _
          rw [if_neg hused]
          rfl
        refine ⟨budget, fuel, { start with steps := start.steps + 1 }, k, hstart, ?_, hlasts⟩
        have hgo : run (env.within budget) (fuel + 1) f n start
            = atLine n.line (form (env.within budget) (run (env.within budget) fuel) (fuel + 1) f n)
              { start with steps := start.steps + 1 } := bind_of_ok hstep
        exact settles_atLine.mp (settles_congr hgo.symm (by simp) hsettles)
  · intro h
    obtain ⟨k, hk⟩ := h.eventually (stable_form f n)
    refine ends_of_eventually h.plain.1 ⟨k + 1, ?_⟩
    intro budget fuel start hstart hfuel hbudget
    obtain ⟨fuel, rfl⟩ : ∃ j, fuel = j + 1 := ⟨fuel - 1, by omega⟩
    have hstep : step (env.within budget) start
        = .ok () { start with steps := start.steps + 1 } := by
      show (if budget < start.steps + 1 then trap .stepLimit _ else pure ()) _ = _
      rw [if_neg (by omega)]
      rfl
    have hset := hk budget fuel { start with steps := start.steps + 1 } hstart (by omega)
      (by simp; omega)
    exact settles_congr (bind_of_ok hstep) (by simp; omega) (settles_atLine.mpr hset)

end Proc

end Eval

end WastForge
