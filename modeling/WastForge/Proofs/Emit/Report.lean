import WastForge.Emit.Module
import WastForge.Proofs.Emit.Emits
import WastForge.Proofs.Program.Each
import WastForge.Proofs.Support.Failure

/-!
# What is reported

Work writes warnings to its journal and may fail. Which warnings come up, and which codes failures
have, is settled step by step: what comes up in the journal is no more than a warning, and what
stops the work is an error.
-/

namespace WastForge

namespace Work

variable {α β : Type} {W : Diagnostic → Prop} {c : Code}

/-- Whatever the journal holds, the work comes to the same and adds the same to it, among that only
warnings of which `W` holds, and it only fails with errors, none of them with the code `c`. -/
structure Reports (W : Diagnostic → Prop) (c : Code) (act : Work α) : Prop where
  runs : ∃ r new, ∀ j, act.run j = (r, new ++ j)
  warns : ∀ j, ∃ new, (act.run j).2 = new ++ j
    ∧ ∀ d, .warning d ∈ new → W d ∧ d.severity = .warning
  fails : ∀ j f, (act.run j).1 = .error f → f.IsError c

theorem reports_pure (a : α) : Reports W c (pure a) :=
  ⟨⟨_, [], fun _ => rfl⟩, fun _ => ⟨[], rfl, fun _ h => nomatch h⟩, fun _ _ h => nomatch h⟩

theorem reports_throw {f : Failure} (h : f.IsError c) : Reports W c (throw f : Work α) where
  runs := ⟨_, [], fun _ => rfl⟩
  warns := fun _ => ⟨[], rfl, fun _ h => nomatch h⟩
  fails := fun j f' hf => by
    obtain rfl := Except.error.inj hf
    exact h

theorem reports_problem {code : Code} (h : code ≠ c) (span : Span) (message : Bytes) :
    Reports W c (problem code span message : Work α) :=
  reports_throw (.of_code h span message)

theorem reports_need (h : .unknown ≠ c) (how : Crash) (x : Option α) :
    Reports W c (need how x) := by
  cases x with
  | none => exact reports_throw (.of_crash h how)
  | some a => exact reports_pure a

theorem reports_result {r : Result α} (h : ∀ f, r = .error f → f.IsError c) :
    Reports W c (liftM r : Work α) :=
  ⟨⟨_, [], fun _ => rfl⟩, fun _ => ⟨[], rfl, fun _ h => nomatch h⟩, fun _ f hf => h f hf⟩

theorem reports_warn {d : Diagnostic} (h : W d) (hsev : d.severity = .warning) :
    Reports W c (warn d) where
  runs := ⟨_, [.warning d], fun _ => rfl⟩
  warns := fun _ => ⟨[.warning d], rfl, fun d' hd' => by
    cases List.mem_singleton.mp hd'
    exact ⟨h, hsev⟩⟩
  fails := fun _ _ h => nomatch h

theorem reports_point (scope : Scope) (name detail : Bytes) :
    Reports W c (note (.point scope name detail)) where
  runs := ⟨_, [.point scope name detail], fun _ => rfl⟩
  warns := fun _ => ⟨[_], rfl, fun _ hd => nomatch List.mem_singleton.mp hd⟩
  fails := fun _ _ h => nomatch h

/-- Of the steps that follow, only those count that can come. -/
theorem reports_bind_of_comes {act : Work α} {next : α → Work β} (hact : Reports W c act)
    (hnext : ∀ a, Comes act a → Reports W c (next a)) : Reports W c (act >>= next) := by
  constructor
  · obtain ⟨r, new, hr⟩ := hact.runs
    cases r with
    | error e => exact ⟨.error e, new, fun j => by rw [run_bind_eq, hr]⟩
    | ok a =>
      obtain ⟨r', more, hr'⟩ := (hnext a ⟨[], _, hr []⟩).runs
      refine ⟨r', more ++ new, fun j => ?_⟩
      rw [run_bind_eq, hr, List.append_assoc]
      exact hr' (new ++ j)
  · intro j
    obtain ⟨new, hnew, hW⟩ := hact.warns j
    rw [run_bind_eq]
    rcases hrun : act.run j with ⟨e | a, j₁⟩
    · rw [hrun] at hnew
      exact ⟨new, hnew, hW⟩
    · rw [hrun] at hnew
      obtain ⟨more, hmore, hmoreW⟩ := (hnext a ⟨j, j₁, hrun⟩).warns j₁
      refine ⟨more ++ new, ?_, fun d hd => ?_⟩
      · rw [List.append_assoc, ← hnew]
        exact hmore
      · exact (List.mem_append.mp hd).elim (hmoreW d) (hW d)
  · intro j f
    have hfails := hact.fails j
    rw [run_bind_eq]
    rcases hrun : act.run j with ⟨e | a, j₁⟩
    · intro hf
      obtain rfl : e = f := Except.error.inj hf
      rw [hrun] at hfails
      exact hfails e rfl
    · exact (hnext a ⟨j, j₁, hrun⟩).fails j₁ f

theorem reports_bind {act : Work α} {next : α → Work β} (hact : Reports W c act)
    (hnext : ∀ a, Reports W c (next a)) : Reports W c (act >>= next) :=
  reports_bind_of_comes hact fun a _ => hnext a

theorem reports_ite {p : Prop} [Decidable p] {act act' : Work α} (h : p → Reports W c act)
    (h' : ¬p → Reports W c act') : Reports W c (if p then act else act') := by
  split
  · exact h ‹_›
  · exact h' ‹_›

theorem reports_within {scope : Scope} {name : Bytes} {act : Work α} (h : Reports W c act) :
    Reports W c (within scope name act) where
  runs := by
    obtain ⟨r, new, hr⟩ := h.runs
    refine ⟨r, .leave [] [] :: new ++ [.enter scope name], fun j => ?_⟩
    have hact := hr (.enter scope name :: j)
    have hrun : (within scope name act).run j = ((act.run (.enter scope name :: j)).1,
      .leave [] [] :: (act.run (.enter scope name :: j)).2) := rfl
    rw [hrun, hact, List.append_assoc]
    rfl
  warns := fun j => by
    obtain ⟨new, hnew, hW⟩ := h.warns (.enter scope name :: j)
    refine ⟨.leave [] [] :: new ++ [.enter scope name], ?_, fun d hd => ?_⟩
    · show JournalEntry.leave [] [] :: (act.run _).2 = _
      rw [hnew, List.append_assoc]
      rfl
    · simp only [List.cons_append, List.mem_cons, reduceCtorEq, List.mem_append, List.not_mem_nil,
        or_false, false_or] at hd
      exact hW d hd
  fails := fun j f hf => h.fails _ f hf

theorem reports_inMember {member : Bytes} {act : Work α} (h : Reports W c act) :
    Reports W c (inMember member act) := by
  constructor
  · obtain ⟨r, new, hr⟩ := h.runs
    refine ⟨(inMember member act []).1, new, fun j => ?_⟩
    show inMember member act j = _
    unfold inMember
    rw [hr, hr]
    cases r with
    | error f => cases f <;> rfl
    | ok a => rfl
  · intro j
    obtain ⟨new, hnew, hW⟩ := h.warns j
    refine ⟨new, ?_, hW⟩
    rw [← hnew]
    show (inMember member act j).2 = _
    unfold inMember
    rcases act.run j with ⟨f | a, j'⟩
    · cases f <;> rfl
    · rfl
  · intro j f hf
    have hfails := h.fails j
    have hrun : (inMember member act j).1 = .error f := hf
    unfold inMember at hrun
    rcases hact : act.run j with ⟨e | a, j'⟩ <;> rw [hact] at hrun hfails
    · have he := hfails e rfl
      cases e with
      | problem d =>
        obtain rfl := Except.error.inj hrun
        exact he.inMember member
      | _ =>
        obtain rfl := Except.error.inj hrun
        exact he.during member
    · cases hrun

end Work

namespace Emit

open Work

variable {α β : Type} {W : Diagnostic → Prop} {c : Code}

theorem reports_lookAt (h : .unknown ≠ c) (e : Expr) : Reports W c (lookAt e) :=
  reports_ite (fun _ => reports_throw (.of_crash h _)) fun _ => reports_pure _

theorem reports_lookAtIf (h : .unknown ≠ c) (matters : Bool) (e : Expr) :
    Reports W c (lookAtIf matters e) :=
  reports_ite (fun _ => reports_lookAt h e) fun _ => reports_pure _

/-- The same of writing statements, whatever the indices are. -/
def Tells (W : Diagnostic → Prop) (c : Code) (act : StmtM α) : Prop :=
  ∀ n, Reports W c (act.run n)

theorem tells_pure (a : α) : Tells W c (pure a) := fun _ => reports_pure _

theorem tells_throw {f : Failure} (h : f.IsError c) : Tells W c (throw f : StmtM α) :=
  fun _ => reports_throw h

theorem tells_bind {act : StmtM α} {next : α → StmtM β} (hact : Tells W c act)
    (hnext : ∀ a, Tells W c (next a)) : Tells W c (act >>= next) :=
  fun n => reports_bind (hact n) fun a => hnext a.1 a.2

theorem tells_work {act : Work α} (h : Reports W c act) : Tells W c (liftM act : StmtM α) :=
  fun _ => reports_bind h fun _ => reports_pure _

theorem tells_ite {p : Prop} [Decidable p] {act act' : StmtM α} (h : p → Tells W c act)
    (h' : ¬p → Tells W c act') : Tells W c (if p then act else act') := by
  split
  · exact h ‹_›
  · exact h' ‹_›

theorem tells_indexOf (m : Mark) (own : LoopIndex) : Tells W c (indexOf m own) := by
  unfold indexOf
  refine tells_ite (fun _ => tells_pure _) fun _ => ?_
  refine tells_bind (fun _ => reports_pure _) fun numbers => ?_
  split
  · exact tells_pure _
  · exact tells_bind (fun _ => reports_pure _) fun _ => tells_pure _

end Emit

end WastForge
