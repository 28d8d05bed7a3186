import WastForge.Proofs.Machine.Ends

/-!
# What the constructs of the machine do

How sequences, blocks, loops, conditions, branches and returns end, in terms of how the forms
inside of them end.
-/

namespace WastForge.Eval

/-- Evaluate forms in order; without any form, the value is the one before them. -/
def seqFrom (eval : Inner) (f : Frame) : Value → List SourceForm → Eval Value
  | v, [] => pure v
  | _, n :: rest => do
    let v ← eval f n
    seqFrom eval f v rest

theorem seqFrom_single (eval : Inner) (f : Frame) (v : Value) (n : SourceForm) :
    seqFrom eval f v [n] = eval f n := by
  funext m
  show EStateM.bind (eval f n) pure m = _
  simp only [EStateM.bind]
  cases eval f n m <;> rfl

theorem seq_eq_seqFrom (eval : Inner) (f : Frame) (ns : List SourceForm) :
    seq eval f ns = seqFrom eval f .void ns := by
  induction ns with
  | nil => rfl
  | cons n rest ih =>
    cases rest with
    | nil => exact (seqFrom_single eval f .void n).symm
    | cons c rest =>
      show (eval f n >>= fun _ => seq eval f (c :: rest)) = _
      rw [ih]
      rfl

theorem sim_seqFrom {w : Twins} {hidden : List Bytes} {bound : Bytes → Prop}
    {eval₁ eval₂ : Inner} (heval : InnerSim w eval₁ eval₂) (f : Frame) (v : Value)
    {ns₁ ns₂ : List SourceForm} (hns : SourceForm.forms ns₁ = SourceForm.forms ns₂)
    (hsafe : Form.SafeAll hidden bound (SourceForm.forms ns₁)) :
    Sim w hidden bound (seqFrom eval₁ f v ns₁) (seqFrom eval₂ f v ns₂) := by
  induction ns₁ generalizing ns₂ v with
  | nil =>
    rw [SourceForm.forms_nil_eq hns]
    exact sim_pure _
  | cons a rest ih =>
    obtain ⟨b, rest', rfl, hab, hrest⟩ := SourceForm.forms_cons_eq hns
    exact sim_bind (heval hidden bound f a b hab hsafe.1) fun v => ih v hrest hsafe.2

/-- The forms end in `o`, where what ran before them left the value `v`. -/
def SeqEnds (env : MachineEnv) (f : Frame) (fs : List Form) (v : Value) (m : Machine)
    (o : Except Stop Value) (m' : Machine) : Prop :=
  ∃ ns, SourceForm.forms ns = fs ∧ Proc.Ends env (fun e k => seqFrom (run e k) f v ns) m o m'

/-- The form ends in `o`. -/
def FormEnds (env : MachineEnv) (f : Frame) (g : Form) (m : Machine) (o : Except Stop Value)
    (m' : Machine) : Prop :=
  ∃ n, n.form = g ∧ Proc.Ends env (fun e k => run e k f n) m o m'

variable {env : MachineEnv} {f : Frame} {fs gs : List Form} {g : Form} {v : Value}
variable {m m' : Machine} {o : Except Stop Value}

theorem agrees_seqFrom {hidden : List Bytes} {bound : Bytes → Prop} {ns₁ ns₂ : List SourceForm}
    (v : Value) (hns : SourceForm.forms ns₁ = SourceForm.forms ns₂)
    (hsafe : Form.SafeAll hidden bound (SourceForm.forms ns₁)) :
    Proc.Agrees hidden bound (fun e k => seqFrom (run e k) f v ns₁)
      (fun e k => seqFrom (run e k) f v ns₂) :=
  fun w _ _ hfuel => sim_seqFrom (innerSim_run w hfuel) f v hns hsafe

theorem stable_seqFrom (v : Value) (ns : List SourceForm) :
    Proc.Stable fun e k => seqFrom (run e k) f v ns :=
  agrees_seqFrom v rfl (Form.safeAll_free _)

/-- Forms end alike on all lines. -/
theorem seqEnds_forms (ns : List SourceForm) (hns : SourceForm.forms ns = fs) :
    SeqEnds env f fs v m o m' ↔ Proc.Ends env (fun e k => seqFrom (run e k) f v ns) m o m' := by
  constructor
  · rintro ⟨ns', hns', h⟩
    exact h.of_agrees (agrees_seqFrom v (hns'.trans hns.symm) (Form.safeAll_free _))
  · intro h
    exact ⟨ns, hns, h⟩

theorem formEnds_form (n : SourceForm) (hn : n.form = g) :
    FormEnds env f g m o m' ↔ Proc.Ends env (fun e k => run e k f n) m o m' := by
  constructor
  · rintro ⟨n', hn', h⟩
    refine h.of_agrees fun w _ _ hfuel => ?_
    exact innerSim_run w hfuel [] _ f n' n (hn'.trans hn.symm) (Form.safe_free _)
  · intro h
    exact ⟨n, hn, h⟩

mutual

/-- A form on some line. -/
def sourceOf : Form → SourceForm
  | .atom w => .atom 0 w
  | .text t => .text 0 t
  | .list items => .list 0 (sourcesOf items)

/-- Forms on some line. -/
def sourcesOf : List Form → List SourceForm
  | [] => []
  | f :: rest => sourceOf f :: sourcesOf rest

end

mutual

@[simp] theorem form_sourceOf : ∀ g : Form, (sourceOf g).form = g
  | .atom _ => rfl
  | .text _ => rfl
  | .list items => by rw [sourceOf, SourceForm.form, forms_sourcesOf items]

@[simp] theorem forms_sourcesOf : ∀ fs : List Form, SourceForm.forms (sourcesOf fs) = fs
  | [] => rfl
  | f :: rest => by rw [sourcesOf, SourceForm.forms, form_sourceOf f, forms_sourcesOf rest]

end

theorem SeqEnds.plain (h : SeqEnds env f fs v m o m') : m.plain = m ∧ m'.plain = m' := by
  obtain ⟨_, _, h⟩ := h
  exact h.plain

theorem FormEnds.plain (h : FormEnds env f g m o m') : m.plain = m ∧ m'.plain = m' := by
  obtain ⟨_, _, h⟩ := h
  exact h.plain

theorem seqEnds_nil : SeqEnds env f [] v m o m' ↔ m.plain = m ∧ o = .ok v ∧ m' = m :=
  (seqEnds_forms [] rfl).trans (Proc.ends_pure v)

theorem seqEnds_cons :
    SeqEnds env f (g :: fs) v m o m' ↔
      (∃ u m₁, FormEnds env f g m (.ok u) m₁ ∧ SeqEnds env f fs u m₁ o m')
        ∨ ∃ s, o = .error s ∧ FormEnds env f g m (.error s) m' := by
  have hform : ∀ {o m'}, FormEnds env f g m o m'
      ↔ Proc.Ends env (fun e k => run e k f (sourceOf g)) m o m' :=
    formEnds_form _ (form_sourceOf g)
  have hseq : ∀ {u m o m'}, SeqEnds env f fs u m o m'
      ↔ Proc.Ends env (fun e k => seqFrom (run e k) f u (sourcesOf fs)) m o m' :=
    seqEnds_forms _ (forms_sourcesOf fs)
  rw [seqEnds_forms _ (forms_sourcesOf (g :: fs))]
  simp only [hform, hseq]
  exact Proc.ends_bind (Proc.stable_run f _) fun u => stable_seqFrom u _

theorem seqEnds_single : SeqEnds env f [g] v m o m' ↔ FormEnds env f g m o m' := by
  rw [seqEnds_forms [sourceOf g] (by simp [SourceForm.forms]),
    formEnds_form _ (form_sourceOf g)]
  simp only [seqFrom_single]

/-- Forms one after the other. -/
theorem seqEnds_append :
    SeqEnds env f (fs ++ gs) v m o m' ↔
      (∃ u m₁, SeqEnds env f fs v m (.ok u) m₁ ∧ SeqEnds env f gs u m₁ o m')
        ∨ ∃ s, o = .error s ∧ SeqEnds env f fs v m (.error s) m' := by
  induction fs generalizing v m with
  | nil =>
    constructor
    · intro h
      exact .inl ⟨v, m, seqEnds_nil.mpr ⟨h.plain.1, rfl, rfl⟩, h⟩
    · rintro (⟨u, m₁, hnil, h⟩ | ⟨s, rfl, hnil⟩)
      · obtain ⟨_, hu, rfl⟩ := seqEnds_nil.mp hnil
        cases hu
        exact h
      · obtain ⟨_, hs, _⟩ := seqEnds_nil.mp hnil
        cases hs
  | cons g fs ih =>
    rw [List.cons_append, seqEnds_cons]
    constructor
    · rintro (⟨u, m₁, hg, hrest⟩ | ⟨s, rfl, hg⟩)
      · rcases ih.mp hrest with ⟨u', m₂, hfs, hgs⟩ | ⟨s, rfl, hfs⟩
        · exact .inl ⟨u', m₂, seqEnds_cons.mpr (.inl ⟨u, m₁, hg, hfs⟩), hgs⟩
        · exact .inr ⟨s, rfl, seqEnds_cons.mpr (.inl ⟨u, m₁, hg, hfs⟩)⟩
      · exact .inr ⟨s, rfl, seqEnds_cons.mpr (.inr ⟨s, rfl, hg⟩)⟩
    · rintro (⟨u, m₁, hfs, hgs⟩ | ⟨s, rfl, hfs⟩)
      · rcases seqEnds_cons.mp hfs with ⟨u', m₂, hg, hfs⟩ | ⟨s, hs, _⟩
        · exact .inl ⟨u', m₂, hg, ih.mpr (.inl ⟨u, m₁, hfs, hgs⟩)⟩
        · cases hs
      · rcases seqEnds_cons.mp hfs with ⟨u', m₂, hg, hfs⟩ | ⟨s', hs, hg⟩
        · exact .inl ⟨u', m₂, hg, ih.mpr (.inr ⟨s, rfl, hfs⟩)⟩
        · cases hs
          exact .inr ⟨s, rfl, hg⟩

/-- What a block with a label makes of the way its body ends. -/
def taken (label : Option Bytes) : Except Stop Value → Except Stop Value
  | .error s => if goesTo label s then .ok .void else .error s
  | .ok v => .ok v

theorem goesTo_plain (label : Option Bytes) (s : Stop) : goesTo label s.plain = goesTo label s := by
  cases s <;> rfl

theorem settles_caught {label : Option Bytes} {act : Eval Value} {start : Machine} {k : Nat} :
    Settles (fun m => caught label (act m)) start k o m'
      ↔ ∃ o', Settles act start k o' m' ∧ o = taken label o' := by
  have hsame : ∀ r, outcome (caught label r) = taken label (outcome r)
      ∧ machineOf (caught label r) = machineOf r := by
    intro r
    cases r with
    | ok v x => exact ⟨rfl, rfl⟩
    | error s x =>
      simp only [caught, outcome, taken, goesTo_plain]
      cases goesTo label s <;> exact ⟨rfl, rfl⟩
  exact settles_iff (hsame _).1 (hsame _).2

theorem exhausted_taken {budget : Nat} {label : Option Bytes} :
    Exhausted budget (taken label o) ↔ Exhausted budget o := by
  cases o with
  | ok v => exact Iff.rfl
  | error s =>
    cases s with
    | branch l =>
      simp only [taken]
      split <;> exact Iff.rfl
    | ret _ | trap _ | crash => exact Iff.rfl

theorem ends_caught {label : Option Bytes} {p : Proc} :
    Proc.Ends env (fun e k m => caught label (p e k m)) m o m'
      ↔ ∃ o', Proc.Ends env p m o' m' ∧ o = taken label o' := by
  constructor
  · rintro ⟨budget, fuel, start, k, hstart, hsettles, hlasts⟩
    obtain ⟨o', h, rfl⟩ := settles_caught.mp hsettles
    exact ⟨o', ⟨budget, fuel, start, k, hstart, h, fun h => hlasts (exhausted_taken.mpr h)⟩, rfl⟩
  · rintro ⟨o', ⟨budget, fuel, start, k, hstart, h, hlasts⟩, rfl⟩
    exact ⟨budget, fuel, start, k, hstart, settles_caught.mpr ⟨o', h, rfl⟩,
      fun h => hlasts (exhausted_taken.mp h)⟩

/-- What the machine does with a list follows from its first word. -/
theorem form_list (e : MachineEnv) (eval : Inner) (k : Nat) (head : Bytes)
    (ns : List SourceForm) :
    form e eval k f (.list 0 (.atom 0 head :: ns)) =
      match Opcode.ofName head with
      | .nop => pure .void
      | .block => block eval f ns
      | .loop => loop e eval k f ns
      | .ite => ite eval f ns
      | .br =>
        match ns with
        | [label] => throw (.branch label.word)
        | _ => trap .badOperand "malformed br"
      | .ret =>
        match ns with
        | [] => throw (.ret .void)
        | value :: _ => do throw (.ret (← eval f value))
      | .setLocal => setLocal eval f ns
      | .switch kw => switch eval kw f ns
      | _ => form e eval k f (.list 0 (.atom 0 head :: ns)) := by
  cases hop : Opcode.ofName head with
  | nop | block | loop | ite | br | ret | setLocal | switch =>
    simp only [form, SourceForm.isList, SourceForm.head, SourceForm.args, SourceForm.word, hop]
    rfl
  | _ => rfl

/-- How a list ends is what the machine does with its first word. -/
theorem formEnds_list (head : Bytes) (p : Proc)
    (hp : ∀ e k, form e (run e k) (k + 1) f (.list 0 (.atom 0 head :: sourcesOf fs)) = p e k) :
    FormEnds env f (.list (.atom head :: fs)) m o m' ↔ Proc.Ends env p m o m' := by
  have hform : (SourceForm.list 0 (.atom 0 head :: sourcesOf fs)).form
      = .list (.atom head :: fs) := by
    simp [SourceForm.form, SourceForm.forms]
  rw [formEnds_form _ hform, Proc.ends_run]
  simp only [hp]

/-- A block with a label is left by a branch to it. -/
theorem formEnds_block_label {l : Bytes} (hl : Form.isLabel l) :
    FormEnds env f (.list (.atom "block" :: .atom l :: fs)) m o m'
      ↔ ∃ o', SeqEnds env f fs .void m o' m' ∧ o = taken (some l) o' := by
  have hhead : Opcode.ofName "block" = .block := by decide
  have hsplit : splitLabel (.atom 0 l :: sourcesOf fs) = (some l, sourcesOf fs) := by
    simp only [splitLabel, of_decide_eq_true hl, if_true]
  rw [formEnds_list "block"
    (fun e k m => caught (some l) (seqFrom (run e k) f .void (sourcesOf fs) m)), ends_caught]
  · simp only [seqEnds_forms _ (forms_sourcesOf fs)]
  · intro e k
    funext m
    show form e (run e k) (k + 1) f (.list 0 (.atom 0 "block" :: .atom 0 l :: sourcesOf fs)) m = _
    rw [form_list, hhead]
    simp only [block_eq, hsplit, seq_eq_seqFrom]

theorem taken_none (o : Except Stop Value) : taken none o = o := by
  cases o with
  | ok v => rfl
  | error s => cases s <;> rfl

/-- A block without a label does what its body does. -/
theorem formEnds_block (hfs : ∀ l rest, fs = .atom l :: rest → ¬Form.isLabel l) :
    FormEnds env f (.list (.atom "block" :: fs)) m o m' ↔ SeqEnds env f fs .void m o m' := by
  have hhead : Opcode.ofName "block" = .block := by decide
  have hsplit : splitLabel (sourcesOf fs) = (none, sourcesOf fs) := by
    cases fs with
    | nil => rfl
    | cons g rest =>
      cases g with
      | atom l =>
        have hl := hfs l rest rfl
        simp only [Form.isLabel, decide_eq_true_eq] at hl
        simp only [sourcesOf, sourceOf, splitLabel, hl, if_false]
      | text t => rfl
      | list items => rfl
  rw [formEnds_list "block"
    (fun e k m => caught none (seqFrom (run e k) f .void (sourcesOf fs) m)), ends_caught]
  · simp only [seqEnds_forms _ (forms_sourcesOf fs), taken_none, exists_eq_right']
  · intro e k
    funext m
    rw [form_list, hhead]
    simp only [block_eq, hsplit, seq_eq_seqFrom]

/-- The rounds of a loop whose body has these forms. -/
inductive LoopEnds (env : MachineEnv) (f : Frame) (l : Bytes) (fs : List Form) :
    Machine → Except Stop Value → Machine → Prop where
  /-- A branch to the label leaves the loop. -/
  | leave {m m' : Machine} (h : SeqEnds env f fs .void m (.error (.branch l)) m') :
    LoopEnds env f l fs m (.ok .void) m'
  | stop {m m' : Machine} {s : Stop} (h : SeqEnds env f fs .void m (.error s) m')
    (hs : s ≠ .branch l) : LoopEnds env f l fs m (.error s) m'
  /-- A body that ends goes round again. -/
  | again {m m₁ m' : Machine} {v : Value} {o : Except Stop Value}
    (h : SeqEnds env f fs .void m (.ok v) m₁) (hrest : LoopEnds env f l fs m₁ o m') :
    LoopEnds env f l fs m o m'

theorem goesTo_some {l : Bytes} {s : Stop} : goesTo (some l) s = true ↔ s = .branch l := by
  cases s with
  | branch k => simp [goesTo, eq_comm]
  | ret _ | trap _ | crash => simp [goesTo]

theorem loopEnds_of_rounds {l : Bytes} {ns : List SourceForm} (hns : SourceForm.forms ns = fs)
    {budget fuel : Nat} (hlasts : ¬Exhausted budget o) (n : Nat) {start : Machine} {k : Nat}
    (h : Settles (rounds (env.within budget) (run (env.within budget) fuel) f (some l) ns n)
      start k o m') : LoopEnds env f l fs start.plain o m' := by
  induction n generalizing start k with
  | zero =>
    refine absurd ?_ hlasts
    rw [← h.outcome]
    exact ⟨rfl, rfl⟩
  | succ n ih =>
    have hbody : ∀ {o x}, outcome (seq (run (env.within budget) fuel) f ns start) = o →
        machineOf (seq (run (env.within budget) fuel) f ns start) = x → ¬Exhausted budget o →
        SeqEnds env f fs .void start.plain o x.plain := by
      rintro o x rfl rfl hlasts
      rw [seq_eq_seqFrom] at hlasts ⊢
      exact ⟨ns, hns, budget, fuel, start, _, rfl, ⟨rfl, rfl, Nat.le_add_left _ _⟩, hlasts⟩
    cases hrun : seq (run (env.within budget) fuel) f ns start with
    | ok v x =>
      rw [hrun] at hbody
      have hgo : rounds (env.within budget) (run (env.within budget) fuel) f (some l) ns (n + 1)
          start = rounds (env.within budget) (run (env.within budget) fuel) f (some l) ns n x := by
        simp only [rounds, hrun]
      exact .again (hbody rfl rfl fun h => h)
        (ih (settles_congr hgo.symm (Nat.le_add_left _ x.steps) h))
    | error s x =>
      rw [hrun] at hbody
      obtain ⟨houtcome, rfl, _⟩ := h
      simp only [rounds, hrun] at houtcome ⊢
      by_cases hs : s = .branch l
      · subst hs
        rw [if_pos (goesTo_some.mpr rfl)] at houtcome ⊢
        subst houtcome
        exact .leave (hbody rfl rfl fun h => h)
      · have hgoes : ¬goesTo (some l) s = true := fun h => hs (goesTo_some.mp h)
        rw [if_neg hgoes] at houtcome ⊢
        subst houtcome
        refine .stop (hbody rfl rfl hlasts) fun h => hs ?_
        cases s <;> simp_all [Stop.plain]

theorem rounds_of_loopEnds {l : Bytes} {ns : List SourceForm} (hns : SourceForm.forms ns = fs)
    (h : LoopEnds env f l fs m o m') :
    ∃ k, ∀ budget fuel n start, start.plain = m → k ≤ fuel → k ≤ n → start.steps + k ≤ budget →
      Settles (rounds (env.within budget) (run (env.within budget) fuel) f (some l) ns n)
        start k o m' := by
  have hbody : ∀ {m o m'}, SeqEnds env f fs .void m o m' →
      ∃ k, ∀ budget fuel start, start.plain = m → k ≤ fuel → start.steps + k ≤ budget →
        Settles (seq (run (env.within budget) fuel) f ns) start k o m' := by
    intro m o m' h
    simp only [seq_eq_seqFrom]
    exact ((seqEnds_forms ns hns).mp h).eventually (stable_seqFrom _ _)
  induction h with
  | leave h =>
    obtain ⟨k, hk⟩ := hbody h
    refine ⟨k + 1, fun budget fuel n start hstart hfuel hn hbudget => ?_⟩
    obtain ⟨s, x, hrun, hs, rfl, hsteps⟩ :=
      (hk budget fuel start hstart (by omega) (by omega)).error
    obtain ⟨n, rfl⟩ : ∃ j, n = j + 1 := ⟨n - 1, by omega⟩
    have hs : s = .branch l := by
      cases s <;> simp_all [Stop.plain]
    subst hs
    refine settles_ok (x := x) ?_ (by omega)
    simp only [rounds, hrun]
    rw [if_pos (goesTo_some.mpr rfl)]
  | stop h hs =>
    obtain ⟨k, hk⟩ := hbody h
    refine ⟨k + 1, fun budget fuel n start hstart hfuel hn hbudget => ?_⟩
    obtain ⟨s, x, hrun, rfl, rfl, hsteps⟩ :=
      (hk budget fuel start hstart (by omega) (by omega)).error
    obtain ⟨n, rfl⟩ : ∃ j, n = j + 1 := ⟨n - 1, by omega⟩
    refine settles_error (x := x) ?_ (by omega)
    simp only [rounds, hrun]
    rw [if_neg fun h => hs (by rw [goesTo_some.mp h]; rfl)]
  | again h _ ih =>
    obtain ⟨k₁, hk₁⟩ := hbody h
    obtain ⟨k₂, hk₂⟩ := ih
    refine ⟨k₁ + k₂ + 1, fun budget fuel n start hstart hfuel hn hbudget => ?_⟩
    obtain ⟨x, hrun, hx, hsteps⟩ := (hk₁ budget fuel start hstart (by omega) (by omega)).ok
    obtain ⟨n, rfl⟩ : ∃ j, n = j + 1 := ⟨n - 1, by omega⟩
    have hrest := hk₂ budget fuel n x hx (by omega) (by omega) (by omega)
    refine settles_congr ?_ (by omega) hrest
    simp only [rounds, hrun]

theorem LoopEnds.plain {l : Bytes} (h : LoopEnds env f l fs m o m') : m.plain = m := by
  cases h with
  | leave h => exact h.plain.1
  | stop h _ => exact h.plain.1
  | again h _ => exact h.plain.1

/-- A loop with a label and a body goes round until it is left. -/
theorem formEnds_loop {l : Bytes} (hl : Form.isLabel l) (hfs : fs ≠ []) :
    FormEnds env f (.list (.atom "loop" :: .atom l :: fs)) m o m' ↔ LoopEnds env f l fs m o m' := by
  have hhead : Opcode.ofName "loop" = .loop := by decide
  have hsplit : splitLabel (.atom 0 l :: sourcesOf fs) = (some l, sourcesOf fs) := by
    simp only [splitLabel, of_decide_eq_true hl, if_true]
  have hempty : (sourcesOf fs).isEmpty = false := by
    cases fs with
    | nil => exact absurd rfl hfs
    | cons g rest => rfl
  rw [formEnds_list "loop"
    (fun e k => rounds e (run e k) f (some l) (sourcesOf fs) (k + 1))]
  · constructor
    · rintro ⟨budget, fuel, start, k, rfl, hsettles, hlasts⟩
      exact loopEnds_of_rounds (forms_sourcesOf fs) hlasts _ hsettles
    · intro h
      obtain ⟨k, hk⟩ := rounds_of_loopEnds (forms_sourcesOf fs) h
      refine Proc.ends_of_eventually h.plain ⟨k, ?_⟩
      intro budget fuel start hstart hfuel hbudget
      exact hk budget fuel (fuel + 1) start hstart hfuel (by omega) hbudget
  · intro e k
    show form e (run e k) (k + 1) f (.list 0 (.atom 0 "loop" :: .atom 0 l :: sourcesOf fs)) = _
    rw [form_list, hhead]
    simp only [loop, hsplit, hempty]
    rfl

theorem formEnds_nop :
    FormEnds env f (.list [.atom "nop"]) m o m' ↔ m.plain = m ∧ o = .ok .void ∧ m' = m := by
  have hhead : Opcode.ofName "nop" = .nop := by decide
  rw [formEnds_list "nop" (fun _ _ => pure .void)]
  · exact Proc.ends_pure _
  · intro e k
    rw [form_list, hhead]

theorem formEnds_br {l : Bytes} :
    FormEnds env f (.list [.atom "br", .atom l]) m o m'
      ↔ m.plain = m ∧ o = .error (.branch l) ∧ m' = m := by
  have hhead : Opcode.ofName "br" = .br := by decide
  rw [formEnds_list "br" (fun _ _ => throw (.branch l))]
  · exact Proc.ends_throw _
  · intro e k
    rw [form_list, hhead]
    rfl

theorem formEnds_return_nil :
    FormEnds env f (.list [.atom "return"]) m o m'
      ↔ m.plain = m ∧ o = .error (.ret .void) ∧ m' = m := by
  have hhead : Opcode.ofName "return" = .ret := by decide
  rw [formEnds_list "return" (fun _ _ => throw (.ret .void))]
  · exact Proc.ends_throw _
  · intro e k
    rw [form_list, hhead]
    rfl

/-- A return of a value: the value is evaluated first. -/
theorem formEnds_return :
    FormEnds env f (.list [.atom "return", g]) m o m' ↔
      (∃ v, o = .error (.ret v) ∧ FormEnds env f g m (.ok v) m')
        ∨ ∃ s, o = .error s ∧ FormEnds env f g m (.error s) m' := by
  have hhead : Opcode.ofName "return" = .ret := by decide
  rw [formEnds_list "return" (fun e k => run e k f (sourceOf g) >>= fun v => throw (.ret v))]
  · have hstable : ∀ v : Value, Proc.Stable fun _ _ => throw (.ret v) :=
      fun v _ _ _ _ => sim_throw_ret v
    rw [Proc.ends_bind (q := fun v _ _ => throw (.ret v)) (Proc.stable_run f _) hstable]
    simp only [formEnds_form _ (form_sourceOf g), Proc.ends_throw, Stop.plain]
    constructor
    · rintro (⟨v, m₁, hv, _, rfl, rfl⟩ | h)
      · exact .inl ⟨v, rfl, hv⟩
      · exact .inr h
    · rintro (⟨v, rfl, hv⟩ | h)
      · exact .inl ⟨v, m', hv, hv.plain.2, rfl, rfl⟩
      · exact .inr h
  · intro e k
    rw [form_list, hhead]
    rfl

theorem formEnds_if {c a : Form} :
    FormEnds env f (.list [.atom "if", c, a]) m o m' ↔
      (∃ v m₁, FormEnds env f c m (.ok v) m₁
        ∧ if v.isTrue then FormEnds env f a m₁ o m' else o = .ok .void ∧ m' = m₁)
        ∨ ∃ s, o = .error s ∧ FormEnds env f c m (.error s) m' := by
  have hhead : Opcode.ofName "if" = .ite := by decide
  let rest : Value → Proc := fun v e k =>
    if v.isTrue then run e k f (sourceOf a) else pure .void
  have hrest : ∀ v m o m', m.plain = m → (Proc.Ends env (rest v) m o m'
      ↔ if v.isTrue then FormEnds env f a m o m' else o = .ok .void ∧ m' = m) := by
    intro v m o m' hm
    simp only [formEnds_form _ (form_sourceOf a), rest]
    cases v.isTrue with
    | true => rfl
    | false => exact (Proc.ends_pure _).trans (and_iff_right hm)
  have hstable : ∀ v, Proc.Stable (rest v) := by
    intro v
    simp only [rest]
    cases v.isTrue with
    | true => exact Proc.stable_run f _
    | false => exact Proc.stable_pure _
  rw [formEnds_list "if" (fun e k => run e k f (sourceOf c) >>= fun v => rest v e k)]
  · rw [Proc.ends_bind (Proc.stable_run f _) hstable]
    simp only [formEnds_form _ (form_sourceOf c)]
    refine or_congr_left (exists_congr fun v => exists_congr fun m₁ => ?_)
    exact and_congr_right fun hc => hrest v m₁ o m' hc.plain.2
  · intro e k
    rw [form_list, hhead]
    rfl

theorem formEnds_ite {c a b : Form} :
    FormEnds env f (.list [.atom "if", c, a, b]) m o m' ↔
      (∃ v m₁, FormEnds env f c m (.ok v) m₁
        ∧ if v.isTrue then FormEnds env f a m₁ o m' else FormEnds env f b m₁ o m')
        ∨ ∃ s, o = .error s ∧ FormEnds env f c m (.error s) m' := by
  have hhead : Opcode.ofName "if" = .ite := by decide
  let rest : Value → Proc := fun v e k =>
    if v.isTrue then run e k f (sourceOf a) else run e k f (sourceOf b)
  have hrest : ∀ v m o m', Proc.Ends env (rest v) m o m'
      ↔ if v.isTrue then FormEnds env f a m o m' else FormEnds env f b m o m' := by
    intro v m o m'
    simp only [formEnds_form _ (form_sourceOf a), formEnds_form _ (form_sourceOf b), rest]
    cases v.isTrue <;> rfl
  have hstable : ∀ v, Proc.Stable (rest v) := by
    intro v
    simp only [rest]
    cases v.isTrue <;> exact Proc.stable_run f _
  rw [formEnds_list "if" (fun e k => run e k f (sourceOf c) >>= fun v => rest v e k)]
  · rw [Proc.ends_bind (Proc.stable_run f _) hstable]
    simp only [formEnds_form _ (form_sourceOf c), hrest]
  · intro e k
    rw [form_list, hhead]
    rfl

theorem formEnds_if_one {a : Form} :
    FormEnds env f (.list [.atom "if", a]) m o m' ↔ m.plain = m
      ∧ o = .error (.trap { code := .badOperand, message := "malformed if with 1 operands" })
      ∧ m' = m := by
  have hhead : Opcode.ofName "if" = .ite := by decide
  have hmessage : ("malformed if with " ++ Bytes.ofNat 1 ++ " operands" : Bytes)
      = "malformed if with 1 operands" := by decide
  rw [formEnds_list "if" (fun _ _ => trap .badOperand "malformed if with 1 operands")]
  · exact Proc.ends_throw _
  · intro e k
    rw [form_list, hhead, ← hmessage]
    rfl

/-- A word that is no instruction. -/
theorem formEnds_unknown {head : Bytes} (hhead : Opcode.ofName head = .unknown) :
    FormEnds env f (.list (.atom head :: fs)) m o m' ↔ m.plain = m
      ∧ o = .error (.trap { code := .unknownName
                            message := "unknown instruction " ++ Quoted.text head })
      ∧ m' = m := by
  rw [formEnds_list head
    (fun _ _ => trap .unknownName ("unknown instruction " ++ Quoted.text head))]
  · exact Proc.ends_throw _
  · intro e k
    simp only [form, SourceForm.isList, SourceForm.head, SourceForm.word, hhead]
    rfl

/-- A construct without code is a trap. -/
theorem formEnds_untranslatable {head : Bytes} (hhead : Opcode.ofName head = .untranslatable) :
    FormEnds env f (.list (.atom head :: fs)) m o m' ↔ m.plain = m
      ∧ o = .error (.trap { code := .untranslatable, message := "reached " ++ head })
      ∧ m' = m := by
  rw [formEnds_list head (fun _ _ => trap .untranslatable ("reached " ++ head))]
  · exact Proc.ends_throw _
  · intro e k
    simp only [form, SourceForm.isList, SourceForm.head, SourceForm.word, hhead]
    rfl

/-- A switch without anything in it. -/
theorem formEnds_switch_nil {head : Bytes} {kw : Keyword}
    (hhead : Opcode.ofName head = .switch kw) :
    FormEnds env f (.list [.atom head]) m o m' ↔ m.plain = m
      ∧ o = .error (.trap { code := .badOperand, message := "switch without a key" })
      ∧ m' = m := by
  rw [formEnds_list head (fun _ _ => trap .badOperand "switch without a key")]
  · exact Proc.ends_throw _
  · intro e k
    rw [form_list, hhead]
    rfl

/-- Actions that do the same from a machine end alike from it. -/
theorem ends_congr {p q : Proc}
    (h : ∀ e k start, start.plain = m → p e k start = q e k start) :
    Proc.Ends env p m o m' ↔ Proc.Ends env q m o m' := by
  constructor
  · rintro ⟨budget, fuel, start, k, hstart, hsettles, hlasts⟩
    exact ⟨budget, fuel, start, k, hstart,
      settles_congr (h _ _ _ hstart).symm (Nat.le_refl _) hsettles, hlasts⟩
  · rintro ⟨budget, fuel, start, k, hstart, hsettles, hlasts⟩
    exact ⟨budget, fuel, start, k, hstart,
      settles_congr (h _ _ _ hstart) (Nat.le_refl _) hsettles, hlasts⟩

/-- A local that is there, or any one of directives, is written without a check. -/
theorem setLocal_of_there (eval : Inner) {line : UInt32} {name : Bytes} {n : SourceForm}
    (h : f.func = none ∨ (m.locals.lookup name).isSome) :
    setLocal eval f [.atom line name, n] m = (do
      let v ← eval f n
      modify fun m => m.set name v
      return v : Eval Value) m := by
  simp only [setLocal, SourceForm.word, bind, EStateM.bind, get, getThe, MonadStateOf.get]
  rw [show (EStateM.get m : EStateM.Result Stop Machine Machine) = .ok m m from rfl]
  cases hfunc : f.func with
  | none => rfl
  | some func =>
    obtain ⟨old, hold⟩ := Option.isSome_iff_exists.mp
      (h.resolve_left (by rw [hfunc]; exact Option.some_ne_none func))
    simp only [hold]
    rfl

/-- Writing a local of a function that has it, or any local of directives. -/
theorem formEnds_setLocal {name : Bytes}
    (hname : f.func = none ∨ (m.locals.lookup name).isSome) :
    FormEnds env f (.list [.atom "set_local", .atom name, g]) m o m' ↔
      (∃ v m₁, FormEnds env f g m (.ok v) m₁ ∧ o = .ok v ∧ m' = m₁.set name v)
        ∨ ∃ s, o = .error s ∧ FormEnds env f g m (.error s) m' := by
  have hhead : Opcode.ofName "set_local" = .setLocal := by decide
  let write : Value → Proc := fun v _ _ => do
    modify fun m => m.set name v
    return v
  have hwrite : ∀ v m₁ o m', m₁.plain = m₁ →
      (Proc.Ends env (write v) m₁ o m' ↔ o = .ok v ∧ m' = m₁.set name v) := by
    intro v m₁ o m' hm
    constructor
    · rintro ⟨_, _, start, _, rfl, ⟨rfl, rfl, _⟩, _⟩
      exact ⟨rfl, rfl⟩
    · rintro ⟨rfl, rfl⟩
      refine ⟨0, 0, m₁, 0, hm, ⟨rfl, ?_, Nat.le_refl _⟩, fun h => h⟩
      show (m₁.set name v).plain = m₁.set name v
      have hplain : (m₁.set name v).plain = m₁.plain.set name v := rfl
      rw [hplain, hm]
  have hstable : ∀ v, Proc.Stable (write v) := by
    intro v _ _ _ _
    refine sim_bind (sim_modify fun _ _ hx => ?_) fun _ => sim_pure v
    exact hx.set List.not_mem_nil v
  rw [formEnds_list "set_local" (fun e k => setLocal (run e k) f [.atom 0 name, sourceOf g]),
    ends_congr (q := fun e k => run e k f (sourceOf g) >>= fun v => write v e k),
    Proc.ends_bind (Proc.stable_run f _) hstable]
  · simp only [formEnds_form _ (form_sourceOf g)]
    refine or_congr_left (exists_congr fun v => exists_congr fun m₁ => ?_)
    exact and_congr_right fun hg => hwrite v m₁ o m' hg.plain.2
  · intro e k start hstart
    have hlocals : start.locals = m.locals := by
      rw [← hstart]
      rfl
    rw [setLocal_of_there _ (hlocals ▸ hname)]
  · intro e k
    rw [form_list, hhead]
    rfl

/-- A form without effect ends in its value. -/
theorem formEnds_of_answers (hm : m.plain = m)
    (h : ∀ budget, Answers (env.within budget) f m.locals g (.ok v)) :
    FormEnds env f g m o m' ↔ o = .ok v ∧ m' = m := by
  have hends : FormEnds env f g m (.ok v) m := by
    refine ⟨sourceOf g, form_sourceOf g, Proc.ends_of_eventually hm ⟨g.size, ?_⟩⟩
    intro budget fuel start hstart hfuel hbudget
    have hlocals : start.locals = m.locals := by
      rw [← hstart]
      rfl
    obtain ⟨s, _, hhi, hrun⟩ :=
      h budget fuel (sourceOf g) (form_sourceOf g) hfuel start hlocals hbudget
    rw [← hstart]
    exact settles_ok (x := { start with steps := s }) hrun hhi
  constructor
  · intro h'
    rw [formEnds_form _ (form_sourceOf g)] at h' hends
    exact h'.unique (Proc.stable_run f _) hends
  · rintro ⟨rfl, rfl⟩
    exact hends

/-- An arm of a switch: a value, or none for the default arm, and what it does, if anything. -/
structure Arm (β : Type) where
  value : Option Bytes
  body : Option β

namespace Arm

variable {β : Type}

/-- The arms from the one on whose value equals the key. -/
def matching (kw : Keyword) (key : UInt64) :
    List (Arm β) → Except Trap (Option (List (Arm β)))
  | [] => .ok none
  | arm :: rest =>
    match arm.value with
    | none => matching kw key rest
    | some w => do
      let v ← Value.ofConstant kw w
      if v.bits = key then return some (arm :: rest) else matching kw key rest

/-- What a switch does: the first arm that does anything, from the one that matches the key on, or
from the default arm on. -/
def select (kw : Keyword) (key : UInt64) (arms : List (Arm β)) : Except Trap (Option β) := do
  let chosen ← matching kw key arms
  return (chosen.getD (arms.dropWhile (·.value.isSome))).findSome? (·.body)

/-- The form of an arm whose body is made of forms. -/
def form (a : Arm (List Form)) : Form :=
  match a.value with
  | some w => .list (.atom "case" :: .atom w :: a.body.getD [])
  | none => .list (.atom "default" :: a.body.getD [])

end Arm

theorem matching_arms (kw : Keyword) (key : UInt64) (arms : List (Arm (List Form))) :
    matching kw key (sourcesOf (arms.map Arm.form))
      = (Arm.matching kw key arms).map (Option.map fun l => sourcesOf (l.map Arm.form)) := by
  have hcase : (("case" : Bytes) == "case") = true := by decide
  have hdefault : (("default" : Bytes) == "case") = false := by decide
  induction arms with
  | nil => rfl
  | cons a rest ih =>
    obtain ⟨value, body⟩ := a
    cases value with
    | none =>
      simp only [List.map_cons, Arm.form, sourcesOf, sourceOf, matching, SourceForm.head,
        SourceForm.word, hdefault, Arm.matching]
      exact ih
    | some w =>
      simp only [List.map_cons, Arm.form, sourcesOf, sourceOf, matching, SourceForm.head,
        SourceForm.args, SourceForm.word, hcase, Arm.matching]
      cases Value.ofConstant kw w with
      | error t => rfl
      | ok v =>
        simp only [bind, Except.bind]
        split
        · rfl
        · exact ih

theorem fromDefault_arms (arms : List (Arm (List Form))) :
    fromDefault (sourcesOf (arms.map Arm.form))
      = sourcesOf ((arms.dropWhile (·.value.isSome)).map Arm.form) := by
  have hcase : (("case" : Bytes) != "default") = true := by decide
  have hdefault : (("default" : Bytes) != "default") = false := by decide
  induction arms with
  | nil => rfl
  | cons a rest ih =>
    obtain ⟨value, body⟩ := a
    cases value with
    | none =>
      simp only [List.map_cons, Arm.form, sourcesOf, sourceOf, fromDefault, List.dropWhile_cons,
        SourceForm.head, SourceForm.word, hdefault, Option.isSome]
      rfl
    | some w =>
      simp only [List.map_cons, Arm.form, sourcesOf, sourceOf, fromDefault, List.dropWhile_cons,
        SourceForm.head, SourceForm.word, hcase, Option.isSome, if_true]
      exact ih

/-- The body that a switch takes from arms. -/
theorem firstBody_arms (arms : List (Arm (List Form))) (harms : ∀ a ∈ arms, a.body ≠ some []) :
    firstBody (sourcesOf (arms.map Arm.form)) = (arms.findSome? (·.body)).map sourcesOf := by
  have hcase : (("case" : Bytes) == "case") = true := by decide
  have hdefault : (("default" : Bytes) == "case") = false := by decide
  induction arms with
  | nil => rfl
  | cons a rest ih =>
    obtain ⟨value, body⟩ := a
    have hbody : armBody (sourceOf (Arm.form ⟨value, body⟩)) = sourcesOf (body.getD []) := by
      cases value with
      | none =>
        simp only [Arm.form, sourceOf, sourcesOf, armBody, SourceForm.head, SourceForm.args,
          SourceForm.word, hdefault]
        rfl
      | some w =>
        simp only [Arm.form, sourceOf, sourcesOf, armBody, SourceForm.head, SourceForm.args,
          SourceForm.word, hcase, if_true]
        rfl
    have hrest := ih fun a ha => harms a (List.mem_cons_of_mem _ ha)
    simp only [List.map_cons, sourcesOf, firstBody, List.find?_cons, hbody, List.findSome?_cons]
    cases body with
    | none => exact hrest
    | some fs =>
      cases fs with
      | nil => exact absurd rfl (harms _ List.mem_cons_self)
      | cons g gs => rfl

theorem mem_of_matching {β : Type} {kw : Keyword} {key : UInt64} {arms chosen : List (Arm β)}
    (h : Arm.matching kw key arms = .ok (some chosen)) : ∀ a ∈ chosen, a ∈ arms := by
  induction arms with
  | nil => cases h
  | cons a rest ih =>
    have hrest : Arm.matching kw key rest = .ok (some chosen) → ∀ b ∈ chosen, b ∈ a :: rest :=
      fun h b hb => List.mem_cons_of_mem _ (ih h b hb)
    unfold Arm.matching at h
    split at h
    · exact hrest h
    · rename_i w _
      cases hw : Value.ofConstant kw w with
      | error t =>
        rw [hw] at h
        cases h
      | ok v =>
        simp only [hw, bind, Except.bind] at h
        split at h
        · cases h
          exact fun b hb => hb
        · exact hrest h

/-- What a switch does after its key. -/
def switchRest (kw : Keyword) (f : Frame) (arms : List (Arm (List Form))) (v : Value) : Proc :=
  fun e k =>
    match Arm.select kw v.bits arms with
    | .error t => throw (.trap t)
    | .ok none => pure .void
    | .ok (some body) => do
      let _ ← seqFrom (run e k) f .void (sourcesOf body)
      return .void

theorem switch_eq (kw : Keyword) (e : MachineEnv) (k : Nat) (key : SourceForm)
    (arms : List (Arm (List Form))) (harms : ∀ a ∈ arms, a.body ≠ some []) :
    switch (run e k) kw f (key :: sourcesOf (arms.map Arm.form))
      = run e k f key >>= fun v => switchRest kw f arms v e k := by
  refine congrArg (run e k f key >>= ·) (funext fun v => ?_)
  show (lift (matching kw v.bits (sourcesOf (arms.map Arm.form))) >>= fun chosen =>
    switchBody (run e k) f
      (firstBody (chosen.getD (fromDefault (sourcesOf (arms.map Arm.form)))))) = _
  rw [matching_arms, fromDefault_arms]
  unfold switchRest Arm.select
  cases hmatching : Arm.matching kw v.bits arms with
  | error t => rfl
  | ok chosen =>
    -- the arms from which a body is taken
    have hfrom : ∀ from_ : List (Arm (List Form)), (∀ a ∈ from_, a.body ≠ some []) →
        switchBody (run e k) f (firstBody (sourcesOf (from_.map Arm.form)))
          = (from_.findSome? (·.body)).elim (pure .void) fun body => do
            let _ ← seqFrom (run e k) f .void (sourcesOf body)
            return .void := by
      intro from_ hfrom
      rw [firstBody_arms from_ hfrom]
      cases from_.findSome? (·.body) with
      | none => rfl
      | some body => simp only [switchBody, Option.map, Option.elim, seq_eq_seqFrom]
    cases chosen with
    | none =>
      refine (hfrom _ fun a ha => harms a ?_).trans ?_
      · exact (List.dropWhile_suffix _).subset ha
      · simp only [bind, Except.bind, pure, Except.pure, Option.getD]
        cases (arms.dropWhile (·.value.isSome)).findSome? (·.body) <;> rfl
    | some chosen =>
      refine (hfrom chosen fun a ha => harms a (mem_of_matching hmatching a ha)).trans ?_
      simp only [bind, Except.bind, pure, Except.pure, Option.getD]
      cases chosen.findSome? (·.body) <;> rfl

/-- How the part of a switch after its key ends. -/
def SwitchEnds (env : MachineEnv) (f : Frame) (kw : Keyword) (arms : List (Arm (List Form)))
    (v : Value) (m : Machine) (o : Except Stop Value) (m' : Machine) : Prop :=
  match Arm.select kw v.bits arms with
  | .error t => o = .error (.trap t.plain) ∧ m' = m
  | .ok none => o = .ok .void ∧ m' = m
  | .ok (some body) => ∃ o', SeqEnds env f body .void m o' m' ∧ o = o'.map fun _ => .void

theorem code_select {kw : Keyword} {key : UInt64} {arms : List (Arm (List Form))} {t : Trap}
    (h : Arm.select kw key arms = .error t) : ¬t.IsStray := by
  intro hstray
  have hmatching : Arm.matching kw key arms = .error t := by
    unfold Arm.select at h
    cases hm : Arm.matching kw key arms with
    | error u =>
      rw [hm] at h
      cases h
      rfl
    | ok chosen =>
      rw [hm] at h
      cases h
  have hforms := matching_arms kw key arms
  rw [hmatching] at hforms
  exact code_matching hforms hstray.1

theorem ends_switchRest {kw : Keyword} {arms : List (Arm (List Form))} (hm : m.plain = m) :
    Proc.Ends env (switchRest kw f arms v) m o m' ↔ SwitchEnds env f kw arms v m o m' := by
  unfold switchRest SwitchEnds
  cases Arm.select kw v.bits arms with
  | error t => exact (Proc.ends_throw _).trans (and_iff_right hm)
  | ok chosen =>
    cases chosen with
    | none => exact (Proc.ends_pure _).trans (and_iff_right hm)
    | some body =>
      simp only
      rw [Proc.ends_bind (q := fun _ _ _ => pure Value.void) (stable_seqFrom _ _)
        (fun _ => Proc.stable_pure _)]
      simp only [seqEnds_forms _ (forms_sourcesOf body), Proc.ends_pure]
      constructor
      · rintro (⟨u, m₁, hbody, _, rfl, rfl⟩ | ⟨s, rfl, hbody⟩)
        · exact ⟨_, hbody, rfl⟩
        · exact ⟨_, hbody, rfl⟩
      · rintro ⟨o', hbody, rfl⟩
        cases o' with
        | ok u => exact .inl ⟨u, m', hbody, hbody.plain.2, rfl, rfl⟩
        | error s => exact .inr ⟨s, rfl, hbody⟩

theorem stable_switchRest (kw : Keyword) (arms : List (Arm (List Form))) (v : Value) :
    Proc.Stable (switchRest kw f arms v) := by
  unfold switchRest
  cases hselect : Arm.select kw v.bits arms with
  | error t => exact fun _ _ _ _ => sim_throw_trap (code_select hselect)
  | ok chosen =>
    cases chosen with
    | none => exact Proc.stable_pure _
    | some body => exact Proc.stable_bind (stable_seqFrom _ _) fun _ => Proc.stable_pure _

/-- A switch evaluates its key, and then what it selects by the key. -/
theorem formEnds_switch {head : Bytes} {kw : Keyword} {key : Form}
    {arms : List (Arm (List Form))} (hhead : Opcode.ofName head = .switch kw)
    (harms : ∀ a ∈ arms, a.body ≠ some []) :
    FormEnds env f (.list (.atom head :: key :: arms.map Arm.form)) m o m' ↔
      (∃ v m₁, FormEnds env f key m (.ok v) m₁ ∧ SwitchEnds env f kw arms v m₁ o m')
        ∨ ∃ s, o = .error s ∧ FormEnds env f key m (.error s) m' := by
  rw [formEnds_list head
    (fun e k => run e k f (sourceOf key) >>= fun v => switchRest kw f arms v e k)]
  · rw [Proc.ends_bind (Proc.stable_run f _) (stable_switchRest kw arms)]
    simp only [formEnds_form _ (form_sourceOf key)]
    refine or_congr_left (exists_congr fun v => exists_congr fun m₁ => ?_)
    exact and_congr_right fun hkey => ends_switchRest hkey.plain.2
  · intro e k
    rw [form_list, hhead]
    exact switch_eq kw e k (sourceOf key) arms harms

end WastForge.Eval
