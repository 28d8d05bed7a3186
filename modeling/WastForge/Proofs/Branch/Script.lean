import WastForge.Machine.Run
import WastForge.Proofs.Emit.ExprCode
import WastForge.Proofs.Machine.Ends

/-!
# Scripts that lose no branch

A script whose branches all go to a block or loop around them, in the same function or directive,
has a module that is closed and directives that are safe. No run of such a script ends in a branch
that no block takes.
-/

namespace WastForge

namespace Form

/-- A form around others that the machine does not look into. -/
theorem safe_list {bound : Bytes → Prop} {head : Bytes} {fs : List Form}
    (hhead : Opcode.ofName head = .unknown) :
    Safe [] bound (.list (.atom head :: fs)) ↔ SafeAll [] bound fs := by
  simp only [Safe, SafeItems, word, hhead]

theorem safeAll_append {bound : Bytes → Prop} {fs gs : List Form} :
    SafeAll [] bound (fs ++ gs) ↔ SafeAll [] bound fs ∧ SafeAll [] bound gs := by
  simp only [safeAll_iff, List.mem_append, or_imp, forall_and]

end Form

namespace Script

/-- Forms whose branches all go to a label around them. -/
abbrev Kept (ns : List SourceForm) : Prop := Form.SafeAll [] (fun _ => False) (SourceForm.forms ns)

theorem kept_args {n : SourceForm} (hhead : Opcode.ofName n.head = .unknown)
    (h : n.form.Safe [] (fun _ => False)) : Kept n.args := by
  have hargs := Eval.safeItems_args h
  rw [hhead] at hargs
  exact hargs

theorem kept_functionFrom {fn fn' : Function} {ns : List SourceForm}
    (hfn : Kept fn.body) (hns : Kept ns) (h : functionFrom fn ns = .ok fn') : Kept fn'.body := by
  induction ns generalizing fn with
  | nil =>
    cases h
    exact hfn
  | cons item rest ih =>
    unfold functionFrom at h
    simp only at h
    split at h
    · split at h
      · refine ih ?_ hns.2 h
        exact hfn
      · cases h
    split at h
    · split at h
      · refine ih ?_ hns.2 h
        exact hfn
      · cases h
    split at h
    · split at h
      · refine ih ?_ hns.2 h
        exact hfn
      · cases h
    · cases h
      exact hns

theorem kept_function {n : SourceForm} {fn : Function} (hn : Kept n.args)
    (h : function n = .ok fn) : Kept fn.body := by
  unfold function at h
  split at h
  · rename_i name rest hargs
    rw [hargs] at hn
    split at h
    · cases h
    · refine kept_functionFrom ?_ hn.2 h
      trivial
  · cases h

/-- All functions of a module keep their branches. -/
def KeptFuncs (m : Module) : Prop := ∀ fn ∈ m.funcs, Kept fn.body

theorem ok_of_bind {α β : Type} {x : Result α} {f : α → Result β} {b : β}
    (h : x >>= f = .ok b) : ∃ a, x = .ok a ∧ f a = .ok b := by
  cases x with
  | error e => cases h
  | ok a => exact ⟨a, rfl, h⟩

theorem keptFuncs_addItems {m m' : Module} {pending pending' : List PendingExport}
    {ns : List SourceForm} (hm : KeptFuncs m) (hempty : m.exports = []) (hns : Kept ns)
    (h : addItems m pending ns = .ok (m', pending')) : KeptFuncs m' ∧ m'.exports = [] := by
  induction ns generalizing m pending with
  | nil =>
    cases h
    exact ⟨hm, hempty⟩
  | cons item rest ih =>
    unfold addItems at h
    simp only at h
    split at h
    · rename_i hfunc
      have hargs : Kept item.args := by
        refine kept_args ?_ hns.1
        rw [beq_iff_eq.mp hfunc]
        decide
      obtain ⟨fn, hfn, h⟩ := ok_of_bind h
      split at h
      · cases h
      · refine ih ?_ ?_ hns.2 h
        · intro g hg
          rcases List.mem_append.mp hg with hg | hg
          · exact hm g hg
          · rw [List.mem_singleton.mp hg]
            exact kept_function hargs hfn
        · exact hempty
    split at h
    · split at h
      · exact ih hm hempty hns.2 h
      · cases h
    split at h
    · obtain ⟨imp, _, h⟩ := ok_of_bind h
      refine ih ?_ ?_ hns.2 h
      · exact hm
      · exact hempty
    split at h
    · obtain ⟨⟨size, segs⟩, _, h⟩ := ok_of_bind h
      refine ih ?_ ?_ hns.2 h
      · exact hm
      · exact hempty
    · cases h

/-- Exports are functions of the module. -/
theorem closed_resolveExports {m m' : Module} {pending : List PendingExport} (hm : KeptFuncs m)
    (hexports : ∀ p ∈ m.exports, Kept p.2.body) (h : resolveExports m pending = .ok m') :
    m'.Closed := by
  induction pending generalizing m with
  | nil =>
    cases h
    rintro name fn (hfunc | hexport)
    · exact hm fn (List.mem_of_find?_eq_some hfunc)
    · obtain ⟨before, after, hsplit, _⟩ := List.lookup_eq_some_iff.mp hexport
      refine hexports (name, fn) (List.mem_reverse.mp ?_)
      rw [hsplit]
      exact List.mem_append_right _ List.mem_cons_self
  | cons e rest ih =>
    unfold resolveExports at h
    split at h
    · cases h
    · rename_i fn hfn
      refine ih ?_ ?_ h
      · exact hm
      · intro p hp
        rcases List.mem_append.mp hp with hp | hp
        · exact hexports p hp
        · rw [List.mem_singleton.mp hp]
          exact hm fn (List.mem_of_find?_eq_some hfn)

theorem closed_moduleOf {n : SourceForm} {m : Module} (hn : Kept n.args)
    (h : moduleOf n = .ok m) : m.Closed := by
  obtain ⟨⟨m₁, pending⟩, hitems, h⟩ := ok_of_bind h
  obtain ⟨hfuncs, hempty⟩ :=
    keptFuncs_addItems (fun _ hfn => by cases hfn) rfl hn hitems
  refine closed_resolveExports hfuncs (fun p hp => ?_) h
  rw [hempty] at hp
  cases hp

theorem closed_instantiateFrom {found : Option Module} {rev ns ds : List SourceForm} {m : Module}
    (hfound : ∀ m, found = some m → m.Closed)
    (hrev : ∀ n ∈ rev, n.form.Safe [] (fun _ => False)) (hns : Kept ns)
    (h : instantiateFrom found rev ns = .ok (m, ds)) :
    m.Closed ∧ ∀ n ∈ ds, n.form.Safe [] (fun _ => False) := by
  induction ns generalizing found rev with
  | nil =>
    unfold instantiateFrom at h
    split at h
    · cases h
      exact ⟨hfound _ rfl, fun n hn => hrev n (List.mem_reverse.mp hn)⟩
    · cases h
  | cons n rest ih =>
    unfold instantiateFrom at h
    split at h
    · refine ih hfound (fun x hx => ?_) hns.2 h
      rcases List.mem_cons.mp hx with rfl | hx
      · exact hns.1
      · exact hrev x hx
    · rename_i hmodule
      split at h
      · cases h
      · obtain ⟨m₁, hm₁, h⟩ := ok_of_bind h
        have hhead : n.head = "module" := by simpa using hmodule
        have hargs : Kept n.args := by
          refine kept_args ?_ hns.1
          rw [hhead]
          decide
        refine ih (fun m hm => ?_) hrev hns.2 h
        cases hm
        exact closed_moduleOf hargs hm₁

/-- The module of a script that keeps its branches is closed, and its directives are safe. -/
theorem closed_instantiate {ns ds : List SourceForm} {m : Module} (hns : Kept ns)
    (h : instantiate ns = .ok (m, ds)) :
    m.Closed ∧ ∀ n ∈ ds, n.form.Safe [] (fun _ => False) :=
  closed_instantiateFrom (fun _ h => by cases h) (fun _ h => by cases h) hns h

end Script

namespace Eval

/-- A branch was lost: no block or loop took it. -/
def Lost {α : Type} : EStateM.Result Stop Machine α → Prop
  | .error (.branch _) _ => True
  | .error (.trap t) _ => t.IsStray
  | _ => False

theorem not_lost_of_agree {α : Type} {w : Twins} {r r' : EStateM.Result Stop Machine α}
    (hclosed : w.env.module.Closed) (h : Agree w [] (fun _ => False) r r') : ¬Lost r := by
  intro hlost
  cases h with
  | ok | ret | crash => exact hlost
  | branch hl => exact hl
  | trap _ hstray => exact hstray hclosed hlost
  | exhausted ht =>
    have hcode := ht.1.symm.trans hlost.1
    cases hcode

/-- No run of a safe form against a closed module loses a branch. -/
theorem not_lost_run {env : MachineEnv} (hclosed : env.module.Closed) {n : SourceForm}
    (hn : n.form.Safe [] (fun _ => False)) (fuel : Nat) (f : Frame) (m : Machine) :
    ¬Lost (run env fuel f n m) := by
  let w : Twins := ⟨env, False, env.maxSteps, env.maxSteps, 0, 0, Nat.le_refl _⟩
  have halike : Alike w [] m m := ⟨rfl, rfl, .inr m.has_nil, .inr m.has_nil⟩
  have hagree := innerSim_run w (Nat.le_refl fuel) [] _ f n n rfl hn m m halike
  exact not_lost_of_agree hclosed hagree

end Eval

end WastForge
