import WastForge.Emit.Module
import WastForge.Emit.Stmt
import WastForge.Trace.Journal

/-!
# Code that is written

Work only writes to its journal and never reads it, so it always comes to the same. What it comes
to is described by a property of its results. Writing statements also chooses indices for loops. Of
code that was written, only what came out and the indices that were chosen matter.

A program is written once its support calls are expanded and its memory is laid out. What comes out
is put together from the code of its functions and of its entry point.
-/

namespace WastForge

namespace Work

variable {α β : Type}

/-- The work comes to the same whatever the journal holds, and if it does not fail, to something of
which `P` holds. -/
def Makes (P : α → Prop) (act : Work α) : Prop :=
  ∃ r : Except Failure α, (∀ j, (act.run j).1 = r) ∧ ∀ a, r = .ok a → P a

variable {P Q : α → Prop} {R : β → Prop}

theorem makes_pure {a : α} (ha : P a) : Makes P (pure a) := by
  refine ⟨.ok a, fun _ => rfl, ?_⟩
  intro b hb
  cases hb
  exact ha

theorem makes_throw (e : Failure) : Makes P (throw e) :=
  ⟨.error e, fun _ => rfl, fun _ h => by cases h⟩

theorem makes_problem (code : Code) (span : Span) (message : Bytes) :
    Makes P (problem code span message) :=
  makes_throw _

theorem makes_need (how : Crash) (x : Option α) : Makes (fun a => x = some a) (need how x) := by
  cases x with
  | none => exact makes_throw _
  | some a => exact makes_pure rfl

theorem makes_note (e : JournalEntry) : Makes (fun _ => True) (note e) :=
  ⟨.ok (), fun _ => rfl, fun _ _ => trivial⟩

theorem Makes.mono {act : Work α} (h : Makes P act) (hPQ : ∀ a, P a → Q a) : Makes Q act := by
  obtain ⟨r, hr, hP⟩ := h
  exact ⟨r, hr, fun a ha => hPQ a (hP a ha)⟩

theorem run_bind_eq (act : Work α) (next : α → Work β) (j : Journal) :
    (act >>= next).run j =
      match act.run j with
      | (.ok a, j') => (next a).run j'
      | (.error e, j') => (.error e, j') := by
  show (act.run >>= ExceptT.bindCont next) j = _
  show (let p := act.run j; ExceptT.bindCont next p.1 p.2) = _
  cases hrun : act.run j with
  | mk r j' => cases r <;> rfl

/-- The work comes to `a`. -/
def Comes (act : Work α) (a : α) : Prop := ∃ j j', act.run j = (.ok a, j')

/-- What follows may also rely on what the work came to. -/
theorem makes_bind_comes {act : Work α} {next : α → Work β} (hact : Makes P act)
    (hnext : ∀ a, Comes act a → P a → Makes R (next a)) : Makes R (act >>= next) := by
  obtain ⟨r, hr, hP⟩ := hact
  cases r with
  | error e =>
    refine ⟨.error e, fun j => ?_, fun _ h => by cases h⟩
    have hj := hr j
    rw [run_bind_eq]
    cases hrun : act.run j with
    | mk r' j' =>
      rw [hrun] at hj
      cases hj
      rfl
  | ok a =>
    obtain ⟨r', hr', hR⟩ := hnext a ⟨[], _, Prod.ext (hr []) rfl⟩ (hP a rfl)
    refine ⟨r', fun j => ?_, hR⟩
    have hj := hr j
    rw [run_bind_eq]
    cases hrun : act.run j with
    | mk r'' j' =>
      rw [hrun] at hj
      cases hj
      exact hr' j'

theorem makes_bind {act : Work α} {next : α → Work β} (hact : Makes P act)
    (hnext : ∀ a, P a → Makes R (next a)) : Makes R (act >>= next) :=
  makes_bind_comes hact fun a _ => hnext a

theorem makes_ite {c : Prop} [Decidable c] {act act' : Work α} (h : c → Makes P act)
    (h' : ¬c → Makes P act') : Makes P (if c then act else act') := by
  split
  · exact h ‹_›
  · exact h' ‹_›

/-- What the work comes to, if it does not fail. -/
def result? (act : Work α) : Option α := (act.run []).1.toOption

/-- What work comes to from some journal is its result. -/
theorem Makes.result? {act : Work α} {a : α} {j j' : Journal} (h : Makes P act)
    (hrun : act.run j = (.ok a, j')) : act.result? = some a ∧ P a := by
  obtain ⟨r, hr, hP⟩ := h
  have hj := hr j
  rw [hrun] at hj
  have hnil := hr []
  rw [← hj] at hnil
  refine ⟨?_, hP a hj.symm⟩
  rw [Work.result?, hnil]
  rfl

theorem comes_pure {a b : α} (h : Comes (pure a) b) : b = a := by
  obtain ⟨j, j', h⟩ := h
  cases h
  rfl

theorem not_comes_throw {e : Failure} {a : α} : ¬Comes (throw e : Work α) a := by
  rintro ⟨j, j', h⟩
  cases h

theorem not_comes_problem {code : Code} {span : Span} {message : Bytes} {a : α} :
    ¬Comes (problem code span message : Work α) a :=
  not_comes_throw

theorem comes_need {how : Crash} {x : Option α} {a : α} (h : Comes (need how x) a) :
    x = some a := by
  cases x with
  | none => exact absurd h not_comes_throw
  | some b => rw [comes_pure h]

theorem comes_bind {act : Work α} {next : α → Work β} {b : β} (h : Comes (act >>= next) b) :
    ∃ a, Comes act a ∧ Comes (next a) b := by
  obtain ⟨j, j', h⟩ := h
  rw [run_bind_eq] at h
  cases hrun : act.run j with
  | mk r j₁ =>
    rw [hrun] at h
    cases r with
    | error e => cases h
    | ok a => exact ⟨a, ⟨j, j₁, hrun⟩, ⟨j₁, j', h⟩⟩

theorem comes_within {scope : Scope} {name : Bytes} {act : Work α} {a : α}
    (h : Comes (within scope name act) a) : Comes act a := by
  obtain ⟨j, j', h⟩ := h
  exact ⟨_, _, Prod.ext (Prod.mk.inj h).1 rfl⟩

theorem comes_inMember {member : Bytes} {act : Work α} {a : α}
    (h : Comes (inMember member act) a) : Comes act a := by
  obtain ⟨j, j', h⟩ := h
  have hrun : inMember member act j = (.ok a, j') := h
  unfold inMember at hrun
  cases hact : act.run j with
  | mk r j₁ =>
    rw [hact] at hrun
    cases r with
    | error f => cases f <;> cases hrun
    | ok b =>
      cases hrun
      exact ⟨j, j', hact⟩

theorem comes_result {r : Result α} {a : α} (h : Comes (liftM r) a) : r = .ok a := by
  obtain ⟨j, j', h⟩ := h
  exact (Prod.mk.inj h).1

theorem comes_of_result? {act : Work α} {a : α} (h : act.result? = some a) : Comes act a := by
  unfold Work.result? at h
  cases hrun : act.run [] with
  | mk r j =>
    rw [hrun] at h
    cases r with
    | error e => cases h
    | ok b =>
      obtain rfl := Option.some.inj h
      exact ⟨[], j, hrun⟩

theorem exists_comes {act : Work α} (h : act.result?.isSome) : ∃ a, Comes act a := by
  obtain ⟨a, ha⟩ := Option.isSome_iff_exists.mp h
  exact ⟨a, comes_of_result? ha⟩

/-- Work that comes to something has it as its result. -/
theorem Comes.result? {P : α → Prop} {act : Work α} {a : α} (h : Comes act a)
    (hmakes : Makes P act) : act.result? = some a ∧ P a := by
  obtain ⟨j, j', hrun⟩ := h
  exact hmakes.result? hrun

end Work

namespace Emit

theorem makes_lookAt (e : Expr) : Work.Makes (fun _ => e.isMissing = false) (lookAt e) := by
  rw [lookAt]
  cases e.isMissing with
  | false => exact Work.makes_pure rfl
  | true => exact Work.makes_throw _

theorem makes_lookAtIf (matters : Bool) (e : Expr) :
    Work.Makes (fun _ => matters = true → e.isMissing = false) (lookAtIf matters e) :=
  Work.makes_ite (fun _ => (makes_lookAt e).mono fun _ h _ => h) fun h =>
    Work.makes_pure fun hmatters => absurd hmatters h

variable {α β : Type}

/-- From the indices `n`, writing comes to `a` with the indices `n'`. -/
def Emits (act : StmtM α) (n : LoopNumbers) (a : α) (n' : LoopNumbers) : Prop :=
  Work.Comes (act.run n) (a, n')

variable {n n' : LoopNumbers}

theorem emits_pure {a b : α} (h : Emits (pure a) n b n') : b = a ∧ n' = n := by
  have hpair := Work.comes_pure h
  exact Prod.mk.inj hpair

theorem emits_bind {act : StmtM α} {next : α → StmtM β} {b : β}
    (h : Emits (act >>= next) n b n') :
    ∃ a n₁, Emits act n a n₁ ∧ Emits (next a) n₁ b n' := by
  obtain ⟨⟨a, n₁⟩, hact, hnext⟩ := Work.comes_bind h
  exact ⟨a, n₁, hact, hnext⟩

theorem emits_work {act : Work α} {a : α} (h : Emits (liftM act) n a n') :
    Work.Comes act a ∧ n' = n := by
  obtain ⟨b, hact, hpure⟩ := Work.comes_bind h
  obtain ⟨rfl, rfl⟩ := Prod.mk.inj (Work.comes_pure hpure)
  exact ⟨hact, rfl⟩

theorem emits_bind_work {act : Work α} {next : α → StmtM β} {b : β}
    (h : Emits (liftM act >>= next) n b n') : ∃ a, Work.Comes act a ∧ Emits (next a) n b n' := by
  obtain ⟨a, n₁, hact, hnext⟩ := emits_bind h
  obtain ⟨hcomes, rfl⟩ := emits_work hact
  exact ⟨a, hcomes, hnext⟩

theorem emits_result {r : Result α} {a : α} (h : Emits (liftM r) n a n') :
    r = .ok a ∧ n' = n := by
  have hwork : Emits (liftM (ExceptT.mk (pure r) : Work α)) n a n' := h
  obtain ⟨⟨j, j', hact⟩, hn⟩ := emits_work hwork
  exact ⟨(Prod.mk.inj hact).1, hn⟩

theorem not_emits_throw {e : Failure} {a : α} : ¬Emits (throw e) n a n' := by
  rintro ⟨j, j', h⟩
  cases h

/-- Indices that were chosen stay. -/
def LoopNumbers.Extends (n n' : LoopNumbers) : Prop :=
  ∀ id i, n.chosen.lookup id = some i → n'.chosen.lookup id = some i

theorem LoopNumbers.Extends.refl (n : LoopNumbers) : n.Extends n := fun _ _ h => h

theorem LoopNumbers.Extends.trans {n₁ n₂ n₃ : LoopNumbers} (h : n₁.Extends n₂)
    (h' : n₂.Extends n₃) : n₁.Extends n₃ :=
  fun id i hi => h' id i (h id i hi)

/-- Writing keeps the indices that were chosen. -/
def Grows (act : StmtM α) : Prop := ∀ n a n', Emits act n a n' → n.Extends n'

theorem grows_pure (a : α) : Grows (pure a : StmtM α) := by
  intro n b n' h
  obtain ⟨_, rfl⟩ := emits_pure h
  exact .refl _

theorem grows_throw (e : Failure) : Grows (throw e : StmtM α) :=
  fun _ _ _ h => absurd h not_emits_throw

theorem grows_bind {act : StmtM α} {next : α → StmtM β} (hact : Grows act)
    (hnext : ∀ a, Grows (next a)) : Grows (act >>= next) := by
  intro n b n' h
  obtain ⟨a, n₁, h₁, h₂⟩ := emits_bind h
  exact (hact _ _ _ h₁).trans (hnext a _ _ _ h₂)

theorem grows_work (act : Work α) : Grows (liftM act : StmtM α) := by
  intro n a n' h
  obtain ⟨_, rfl⟩ := emits_work h
  exact .refl _

theorem grows_ite {c : Prop} [Decidable c] {act act' : StmtM α} (h : Grows act)
    (h' : Grows act') : Grows (if c then act else act') := by
  split
  · exact h
  · exact h'

/-- The index of a loop or switch is its own one, or the one that stands for its statement from
then on. -/
theorem emits_indexOf {m : Mark} {own i : LoopIndex} (h : Emits (indexOf m own) n i n') :
    n.Extends n' ∧ (own.isValid = true → i = own)
      ∧ (own.isValid = false → n'.chosen.lookup m.id = some i) := by
  unfold indexOf at h
  cases hvalid : own.isValid with
  | true =>
    rw [hvalid] at h
    obtain ⟨rfl, rfl⟩ := emits_pure h
    exact ⟨.refl _, fun _ => rfl, fun h => by cases h⟩
  | false =>
    rw [hvalid, if_neg Bool.false_ne_true] at h
    obtain ⟨numbers, n₁, hget, hgo⟩ := emits_bind h
    obtain ⟨hnumbers, hn₁⟩ : numbers = n ∧ n₁ = n := emits_pure hget
    subst hn₁
    subst hnumbers
    cases hchosen : numbers.chosen.lookup m.id with
    | some j =>
      rw [hchosen] at hgo
      obtain ⟨rfl, rfl⟩ := emits_pure hgo
      exact ⟨.refl _, fun h => by (cases h), fun _ => hchosen⟩
    | none =>
      rw [hchosen] at hgo
      obtain ⟨_, n₂, hset, hpure⟩ := emits_bind hgo
      obtain ⟨rfl, rfl⟩ := emits_pure hpure
      obtain rfl : n' = { next := numbers.next + 1
                          chosen := (m.id, numbers.next) :: numbers.chosen } :=
        (Prod.mk.inj (Work.comes_pure hset)).2
      refine ⟨fun id i hi => ?_, fun h => by (cases h), fun _ => by simp⟩
      by_cases hid : id = m.id
      · subst hid
        rw [hchosen] at hi
        cases hi
      · rwa [List.lookup_cons, beq_eq_false_iff_ne.mpr hid]

theorem grows_indexOf (m : Mark) (own : LoopIndex) : Grows (indexOf m own) :=
  fun _ _ _ h => (emits_indexOf h).1

variable (env : Env) (labels : LabelTable)

mutual

theorem grows_stmt (nest : Nest) (shape : Shape) : ∀ s, Grows (stmt env labels nest shape s)
  | .missing => grows_pure _
  | .block _ rows => grows_blockRows nest shape rows
  | .expr _ e => by
    unfold stmt
    refine grows_bind (grows_work _) fun _ => ?_
    refine grows_bind (grows_work _) fun x => ?_
    cases x <;> exact grows_pure _
  | .ite _ cond yes no => by
    unfold stmt
    refine grows_bind (grows_work _) fun _ => ?_
    refine grows_bind (grows_stmt nest .arm yes) fun _ => ?_
    refine grows_ite ?_ ?_
    · exact grows_bind (grows_pure _) fun _ => grows_pure _
    · exact grows_bind (grows_stmt nest .arm no) fun _ => grows_pure _
  | .forLoop m own init cond post body => by
    unfold stmt
    refine grows_bind (grows_stmtRows nest init) fun _ => ?_
    refine grows_bind (grows_indexOf m own) fun index => ?_
    refine grows_bind (grows_work _) fun _ => ?_
    refine grows_bind (grows_stmt _ .body body) fun _ => ?_
    exact grows_bind (grows_work _) fun _ => grows_pure _
  | .whileLoop m testLast own cond body => by
    unfold stmt
    refine grows_bind (grows_indexOf m own) fun index => ?_
    refine grows_ite ?_ ?_
    · refine grows_bind (grows_stmt _ .body body) fun _ => ?_
      exact grows_bind (grows_work _) fun _ => grows_pure _
    · refine grows_bind (grows_work _) fun _ => ?_
      exact grows_bind (grows_stmt _ .body body) fun _ => grows_pure _
  | .labelGroup m rows => by
    unfold stmt
    split
    · exact grows_throw _
    · refine grows_ite (grows_pure _) ?_
      refine grows_bind (grows_work _) fun _ => ?_
      exact grows_bind (grows_sectionRows _ _ rows) fun _ => grows_pure _
  | .goto m label => grows_work _
  | .branch m isContinue target => grows_work _
  | .ret _ value => by
    unfold stmt
    refine grows_ite (grows_pure _) ?_
    exact grows_bind (grows_work _) fun _ => grows_pure _
  | .switch m own key cases => by
    unfold stmt
    refine grows_bind (grows_work _) fun _ => ?_
    refine grows_bind (grows_work _) fun _ => ?_
    split
    · exact grows_bind (grows_work _) fun _ => grows_throw _
    · refine grows_bind (grows_indexOf m own) fun index => ?_
      refine grows_bind (grows_caseRows _ _ false cases) fun _ => ?_
      exact grows_bind (grows_caseRows _ _ true cases) fun _ => grows_pure _
  | .varDecl _ vars => by
    unfold stmt
    exact grows_bind (grows_work _) fun _ => grows_pure _
  | .bare m kind => by
    unfold stmt
    exact grows_bind (grows_work _) fun _ => grows_pure _

theorem grows_blockRows (nest : Nest) (shape : Shape) :
    ∀ rows, Grows (blockRows env labels nest shape rows)
  | none => grows_pure _
  | some l => grows_blockItems nest shape l

theorem grows_blockItems (nest : Nest) (shape : Shape) :
    ∀ l, Grows (blockItems env labels nest shape l)
  | [] => grows_pure _
  | s :: rest => by
    unfold blockItems
    refine grows_ite (grows_stmt nest shape s) ?_
    refine grows_bind (grows_stmt nest .plain s) fun _ => ?_
    exact grows_bind (grows_stmts nest rest) fun _ => grows_pure _

theorem grows_stmtRows (nest : Nest) : ∀ rows, Grows (stmtRows env labels nest rows)
  | none => grows_pure _
  | some l => grows_stmts nest l

theorem grows_stmts (nest : Nest) : ∀ l, Grows (stmts env labels nest l)
  | [] => grows_pure _
  | s :: rest => by
    unfold stmts
    refine grows_bind (grows_stmt nest .plain s) fun _ => ?_
    exact grows_bind (grows_stmts nest rest) fun _ => grows_pure _

theorem grows_sectionRows (nest : Nest) (group : Nat) :
    ∀ rows, Grows (sectionRows env labels nest group rows)
  | none => grows_pure _
  | some l => grows_sections nest group 0 l

theorem grows_sections (nest : Nest) (group index : Nat) :
    ∀ l, Grows (sections env labels nest group index l)
  | [] => grows_pure _
  | .mk _ body :: rest => by
    unfold sections
    refine grows_bind (grows_stmtRows nest body) fun _ => ?_
    exact grows_bind (grows_sections nest group (index + 1) rest) fun _ => grows_pure _

theorem grows_caseRows (nest : Nest) (span : Span) (wanted : Bool) :
    ∀ rows, Grows (caseRows env labels nest span wanted rows)
  | none => grows_pure _
  | some l => grows_cases nest span wanted l

theorem grows_cases (nest : Nest) (span : Span) (wanted : Bool) :
    ∀ l, Grows (cases env labels nest span wanted l)
  | [] => grows_pure _
  | .mk values isDefault body :: rest => by
    unfold cases
    refine grows_ite ?_ (grows_cases nest span wanted rest)
    refine grows_ite (grows_throw _) ?_
    refine grows_bind (grows_work _) fun _ => ?_
    refine grows_bind (grows_stmtRows nest body) fun _ => ?_
    exact grows_bind (grows_cases nest span wanted rest) fun _ => grows_pure _

end

/-! ## What lines are made of

One lemma for each kind of statement: where its lines come from, and with which indices. Whatever is
proved of written statements goes by these.
-/

section inversion

variable {env : Env} {labels : LabelTable} {nest : Nest} {shape : Shape} {m : Mark}
  {lines : List Line}

theorem emits_expr {e : Expr} (h : Emits (stmt env labels nest shape (.expr m e)) n lines n') :
    n' = n ∧ ∃ x, Work.Comes (expr env false e) x
      ∧ lines = x.elim shape.nothing fun f => [.form f] := by
  unfold stmt at h
  obtain ⟨_, -, h⟩ := emits_bind_work h
  obtain ⟨x, hx, h⟩ := emits_bind_work h
  cases x with
  | none =>
    obtain ⟨rfl, rfl⟩ := emits_pure h
    exact ⟨rfl, none, hx, rfl⟩
  | some f =>
    obtain ⟨rfl, rfl⟩ := emits_pure h
    exact ⟨rfl, some f, hx, rfl⟩

/-- A condition is written before its arms, and of these only the first one may not be missing. -/
theorem emits_ite {cond : Expr} {yes no : Stmt}
    (h : Emits (stmt env labels nest shape (.ite m cond yes no)) n lines n') :
    ∃ x ys n₁ zs, Work.Comes (expr env true cond) x
      ∧ Emits (stmt env labels nest .arm yes) n ys n₁
      ∧ (no.isMissing = true ∧ zs = [] ∧ n' = n₁
        ∨ no.isMissing = false ∧ Emits (stmt env labels nest .arm no) n₁ zs n')
      ∧ lines = [.group [some (.atom "if"), x] (ys ++ zs)] := by
  unfold stmt at h
  obtain ⟨x, hx, h⟩ := emits_bind_work h
  obtain ⟨ys, n₁, hys, h⟩ := emits_bind h
  simp only at h
  refine ⟨x, ys, n₁, ?_⟩
  cases hmissing : no.isMissing with
  | true =>
    rw [hmissing, if_pos rfl] at h
    obtain ⟨zs, n₂, hzs, hpure⟩ := emits_bind h
    obtain ⟨rfl, rfl⟩ := emits_pure hzs
    obtain ⟨rfl, rfl⟩ := emits_pure hpure
    exact ⟨[], hx, hys, .inl ⟨rfl, rfl, rfl⟩, rfl⟩
  | false =>
    rw [hmissing, if_neg Bool.false_ne_true] at h
    obtain ⟨zs, n₂, hzs, hpure⟩ := emits_bind h
    obtain ⟨rfl, rfl⟩ := emits_pure hpure
    exact ⟨zs, hx, hys, .inr ⟨rfl, hzs⟩, rfl⟩

theorem emits_forLoop {own : LoopIndex} {init : Rows Stmt} {cond : Expr} {post : Rows Expr}
    {body : Stmt}
    (h : Emits (stmt env labels nest shape (.forLoop m own init cond post body)) n lines n') :
    ∃ init' n₁ i n₂ test body' post', Emits (stmtRows env labels nest init) n init' n₁
      ∧ Emits (indexOf m own) n₁ i n₂ ∧ Work.Comes (guard env cond i) test
      ∧ Emits (stmt env labels (nest.within false i) .body body) n₂ body' n'
      ∧ Work.Comes (effects env (Rows.items post)) post'
      ∧ lines = shape.several (init' ++ [.group (labelled "loop" (Name.loop i))
        (test ++ [.group (labelled "block" (Name.continue_ i)) body'] ++ post')]) := by
  unfold stmt at h
  obtain ⟨init', n₁, hinit, h⟩ := emits_bind h
  obtain ⟨i, n₂, hi, h⟩ := emits_bind h
  obtain ⟨test, htest, h⟩ := emits_bind_work h
  obtain ⟨body', n₃, hbody, h⟩ := emits_bind h
  obtain ⟨post', hpost, h⟩ := emits_bind_work h
  obtain ⟨rfl, rfl⟩ := emits_pure h
  exact ⟨init', n₁, i, n₂, test, body', post', hinit, hi, htest, hbody, hpost, rfl⟩

/-- The condition of a loop is written on the side of the body that it is tested on. -/
theorem emits_whileLoop {testLast : Bool} {own : LoopIndex} {cond : Expr} {body : Stmt}
    (h : Emits (stmt env labels nest shape (.whileLoop m testLast own cond body)) n lines n') :
    ∃ i n₁ test body', Emits (indexOf m own) n i n₁ ∧ Work.Comes (guard env cond i) test
      ∧ Emits (stmt env labels (nest.within false i) .body body) n₁ body' n'
      ∧ lines = [.group (labelled "loop" (Name.loop i))
        (if testLast then [.group (labelled "block" (Name.continue_ i)) body'] ++ test
          else test ++ [.group (labelled "block" (Name.continue_ i)) body'])] := by
  unfold stmt at h
  obtain ⟨i, n₁, hi, h⟩ := emits_bind h
  refine ⟨i, n₁, ?_⟩
  cases testLast with
  | true =>
    rw [if_pos rfl] at h
    obtain ⟨body', n₂, hbody, h⟩ := emits_bind h
    obtain ⟨test, htest, h⟩ := emits_bind_work h
    obtain ⟨rfl, rfl⟩ := emits_pure h
    exact ⟨test, body', hi, htest, hbody, rfl⟩
  | false =>
    rw [if_neg Bool.false_ne_true] at h
    obtain ⟨test, htest, h⟩ := emits_bind_work h
    obtain ⟨body', n₂, hbody, h⟩ := emits_bind h
    obtain ⟨rfl, rfl⟩ := emits_pure h
    exact ⟨test, body', hi, htest, hbody, rfl⟩

/-- A label group has a number. One without labels leaves nothing, and another one has its labels
where the table has them. -/
theorem emits_labelGroup {rows : Rows Label}
    (h : Emits (stmt env labels nest shape (.labelGroup m rows)) n lines n') :
    ∃ g, labels.group? m.id = some g
      ∧ (Rows.items rows = [] ∧ n' = n ∧ lines = shape.several []
        ∨ Rows.items rows ≠ [] ∧ checkLabels labels m.span g 0 (Rows.items rows) = .ok ()
          ∧ ∃ sections, Emits (sectionRows env labels (nest.withinGroup g) g rows) n sections n'
            ∧ lines = shape.several (groupLines g sections)) := by
  unfold stmt at h
  cases hgroup : labels.group? m.id with
  | none =>
    rw [hgroup] at h
    exact absurd h not_emits_throw
  | some g =>
    rw [hgroup] at h
    simp only at h
    refine ⟨g, rfl, ?_⟩
    cases hempty : (Rows.items rows).isEmpty with
    | true =>
      rw [hempty, if_pos rfl] at h
      obtain ⟨rfl, rfl⟩ := emits_pure h
      exact .inl ⟨List.isEmpty_iff.mp hempty, rfl, rfl⟩
    | false =>
      rw [hempty, if_neg Bool.false_ne_true] at h
      obtain ⟨_, n₁, hcheck, h⟩ := emits_bind h
      obtain ⟨sections, n₂, hsections, h⟩ := emits_bind h
      obtain ⟨rfl, rfl⟩ := emits_pure h
      obtain ⟨hchecked, rfl⟩ := emits_result hcheck
      exact .inr ⟨List.isEmpty_eq_false_iff.mp hempty, hchecked, sections, hsections, rfl⟩

theorem emits_ret {value : Expr}
    (h : Emits (stmt env labels nest shape (.ret m value)) n lines n') :
    n' = n ∧ (value.isMissing = true
        ∧ lines = (if env.isTopLevel then [] else [.form (.words ["return"])])
      ∨ value.isMissing = false ∧ ∃ x, Work.Comes (expr env true value) x
        ∧ lines = [.form (.app "return" [x])]) := by
  unfold stmt at h
  cases hmissing : value.isMissing with
  | true =>
    rw [hmissing, if_pos rfl] at h
    obtain ⟨rfl, rfl⟩ := emits_pure h
    exact ⟨rfl, .inl ⟨rfl, rfl⟩⟩
  | false =>
    rw [hmissing, if_neg Bool.false_ne_true] at h
    obtain ⟨x, hx, h⟩ := emits_bind_work h
    obtain ⟨rfl, rfl⟩ := emits_pure h
    exact ⟨rfl, .inr ⟨rfl, x, hx, rfl⟩⟩

/-- The key of a switch is an integer, and its default arms stand behind the others. -/
theorem emits_switch {own : LoopIndex} {key : Expr} {arms : Rows Case}
    (h : Emits (stmt env labels nest shape (.switch m own key arms)) n lines n') :
    ∃ x kw i n₁ named n₂ default, Work.Comes (expr env true key) x
      ∧ (env.types.valueKeyword? key.type).filter (!·.isFloat) = some kw
      ∧ Emits (indexOf m own) n i n₁
      ∧ Emits (caseRows env labels (nest.within true i) m.span false arms) n₁ named n₂
      ∧ Emits (caseRows env labels (nest.within true i) m.span true arms) n₂ default n'
      ∧ lines = [.group (labelled "block" (Name.switch i))
        [.group [some (.atom (kw.text ++ ".switch")), x] (named ++ default)]] := by
  unfold stmt at h
  obtain ⟨x, hx, h⟩ := emits_bind_work h
  obtain ⟨_, -, h⟩ := emits_bind_work h
  cases hkw : (env.types.valueKeyword? key.type).filter (!·.isFloat) with
  | none =>
    rw [hkw] at h
    obtain ⟨_, -, h⟩ := emits_bind_work h
    exact absurd h not_emits_throw
  | some kw =>
    rw [hkw] at h
    obtain ⟨i, n₁, hi, h⟩ := emits_bind h
    obtain ⟨named, n₂, hnamed, h⟩ := emits_bind h
    obtain ⟨default, n₃, hdefault, h⟩ := emits_bind h
    obtain ⟨rfl, rfl⟩ := emits_pure h
    exact ⟨x, kw, i, n₁, named, n₂, default, hx, rfl, hi, hnamed, hdefault, rfl⟩

theorem emits_varDecl {vars : Rows VarInit}
    (h : Emits (stmt env labels nest shape (.varDecl m vars)) n lines n') :
    n' = n ∧ ∃ inits, Work.Comes (varInits env (Rows.items vars)) inits
      ∧ lines = shape.several inits := by
  unfold stmt at h
  obtain ⟨inits, hinits, h⟩ := emits_bind_work h
  obtain ⟨rfl, rfl⟩ := emits_pure h
  exact ⟨rfl, inits, hinits, rfl⟩

theorem emits_bare {kind : UInt8}
    (h : Emits (stmt env labels nest shape (.bare m kind)) n lines n') :
    n' = n ∧ lines = [.form (.words ["untranslatable." ++ Stmt.kindName kind])] := by
  unfold stmt at h
  obtain ⟨_, _, h⟩ := emits_bind_work h
  obtain ⟨rfl, rfl⟩ := emits_pure h
  exact ⟨rfl, rfl⟩

theorem emits_blockItems {s : Stmt} {rest : List Stmt}
    (h : Emits (blockItems env labels nest shape (s :: rest)) n lines n') :
    (rest.isEmpty && collapses s) = true ∧ Emits (stmt env labels nest shape s) n lines n'
      ∨ (rest.isEmpty && collapses s) = false ∧ ∃ first n₁ more,
        Emits (stmt env labels nest .plain s) n first n₁
        ∧ Emits (stmts env labels nest rest) n₁ more n'
        ∧ lines = shape.ofBlock false (first ++ more) := by
  unfold blockItems at h
  cases hcollapse : rest.isEmpty && collapses s with
  | true =>
    rw [hcollapse, if_pos rfl] at h
    exact .inl ⟨rfl, h⟩
  | false =>
    rw [hcollapse, if_neg Bool.false_ne_true] at h
    obtain ⟨first, n₁, hfirst, h⟩ := emits_bind h
    obtain ⟨more, n₂, hmore, h⟩ := emits_bind h
    obtain ⟨rfl, rfl⟩ := emits_pure h
    exact .inr ⟨rfl, first, n₁, more, hfirst, hmore, rfl⟩

theorem emits_stmts {s : Stmt} {rest : List Stmt}
    (h : Emits (stmts env labels nest (s :: rest)) n lines n') :
    ∃ first n₁ more, Emits (stmt env labels nest .plain s) n first n₁
      ∧ Emits (stmts env labels nest rest) n₁ more n' ∧ lines = first ++ more := by
  unfold stmts at h
  obtain ⟨first, n₁, hfirst, h⟩ := emits_bind h
  obtain ⟨more, n₂, hmore, h⟩ := emits_bind h
  obtain ⟨rfl, rfl⟩ := emits_pure h
  exact ⟨first, n₁, more, hfirst, hmore, rfl⟩

theorem emits_sections {g index : Nat} {name : Bytes} {body : Rows Stmt} {rest : List Label}
    (h : Emits (sections env labels nest g index (.mk name body :: rest)) n lines n') :
    ∃ first n₁ more, Emits (stmtRows env labels nest body) n first n₁
      ∧ Emits (sections env labels nest g (index + 1) rest) n₁ more n'
      ∧ lines = section_ ⟨g, index⟩ (first ++ (if rest.isEmpty || Stmt.rowsTerminal body then []
        else [.form (gotoForm ⟨g, index + 1⟩)])) :: more := by
  unfold sections at h
  obtain ⟨first, n₁, hfirst, h⟩ := emits_bind h
  simp only at h
  obtain ⟨more, n₂, hmore, h⟩ := emits_bind h
  obtain ⟨rfl, rfl⟩ := emits_pure h
  exact ⟨first, n₁, more, hfirst, hmore, rfl⟩

/-- An arm is written if it is one of those that are wanted. It has a value unless it is the default
arm. -/
theorem emits_cases {span : Span} {wanted isDefault : Bool} {values : Rows Expr}
    {body : Rows Stmt} {rest : List Case}
    (h : Emits (cases env labels nest span wanted (.mk values isDefault body :: rest)) n lines n') :
    (isDefault == wanted) = false ∧ Emits (cases env labels nest span wanted rest) n lines n'
      ∨ (isDefault == wanted) = true ∧ (isDefault = false → Rows.items values ≠ [])
        ∧ ∃ texts first n₁ more, Work.Comes (caseValues (Rows.items values)) texts
          ∧ Emits (stmtRows env labels nest body) n first n₁
          ∧ Emits (cases env labels nest span wanted rest) n₁ more n'
          ∧ lines = caseLines isDefault texts first ++ more := by
  unfold cases at h
  cases hwanted : isDefault == wanted with
  | false =>
    rw [hwanted, if_neg Bool.false_ne_true] at h
    exact .inl ⟨rfl, h⟩
  | true =>
    rw [hwanted, if_pos rfl] at h
    split at h
    · exact absurd h not_emits_throw
    · next hvalues =>
      obtain ⟨texts, htexts, h⟩ := emits_bind_work h
      obtain ⟨first, n₁, hfirst, h⟩ := emits_bind h
      obtain ⟨more, n₂, hmore, h⟩ := emits_bind h
      obtain ⟨rfl, rfl⟩ := emits_pure h
      refine .inr ⟨rfl, fun hdefault hnil => hvalues ?_,
        texts, first, n₁, more, htexts, hfirst, hmore, rfl⟩
      rw [hdefault, hnil]
      rfl

end inversion

end Emit

open Emit

/-- The functions that are left out of the module. -/
def Program.leftOut (p : Program) : List FuncId :=
  (p.bodies.filter fun b => p.entryPoint?.map (·.id) ≠ some b.id
    && (unsupportedSignature? p.types b.func).isSome).map (·.id)

/-- A program with its expansion and its memory. -/
structure Emission where
  program : Program
  expanded : Expanded
  arena : Arena

namespace Emission

variable (e : Emission)

/-- The function that runs at top level. -/
def entry : Option Body := e.program.entryPoint?

/-- What its code is written against. -/
def env : Env where
  program := e.program
  arena := e.arena
  skipped := e.program.leftOut
  entry := e.entry.map (·.id)

/-- What code is written against that stands somewhere in the program. -/
def envAt (member : Bytes) (locals : Option (List (Bytes × TypeId))) : Env :=
  { e.env with member := member, locals := locals }

/-- The static constructors that are part of the module. -/
def ctors : List Body := staticCtors e.program e.program.leftOut

/-- The functions that are part of the module. -/
def written : List Body :=
  e.expanded.bodies.filter fun b =>
    e.entry.map (·.id) ≠ some b.id && !e.program.leftOut.contains b.id

/-- The functions that are exported. -/
def exported : List Body := e.written.filter (·.func.isExported)

/-- What the entry point does. -/
def entryRoot (b : Body) : Stmt := ((e.expanded.body? b.id).map (·.root)).getD .missing

/-- The code of the entry point. -/
def entryCode (next : LoopIndex) : Work (List Line) :=
  e.entry.elim (pure []) fun b =>
    entryLines e.env next (!e.ctors.isEmpty) b (e.entryRoot b)

variable {e} in
theorem entryCode_none {next : LoopIndex} (h : e.entry = none) : e.entryCode next = pure [] := by
  rw [entryCode, h]
  rfl

variable {e} in
theorem entryCode_some {next : LoopIndex} {b : Body} (h : e.entry = some b) :
    e.entryCode next = entryLines e.env next (!e.ctors.isEmpty) b (e.entryRoot b) := by
  rw [entryCode, h]
  rfl

/-- The lines of the module. -/
def moduleLines (funcs : List Line) : List Line :=
  Emit.moduleLines e.expanded e.arena e.ctors e.exported funcs

/-- The lines of the whole text. -/
def lines (funcs directives : List Line) : List Line :=
  [.comment e.program.name, .blank, .group [some (.atom "module")] (e.moduleLines funcs)]
    ++ directives

/-- The names of the exports. -/
def exportNames : List Bytes :=
  (if e.ctors.isEmpty then [] else [Name.staticInitExport])
    ++ e.exported.map fun b => b.func.publicName

/-- What comes out. -/
def output (funcs directives : List Line) : ModuleOutput where
  text := Line.renderAll 0 (e.lines funcs directives)
  heapSize := e.arena.heapSize
  memorySize := e.arena.total.toUInt32
  exports := e.exportNames
  imports := e.expanded.use.imports
  skipped := (e.program.bodies.filter fun b => e.program.leftOut.contains b.id).map fun b =>
    b.func.qualifiedName

/-- The module is what comes out when the program is written. -/
structure Writes (out : ModuleOutput) (funcs directives : List Line) : Prop where
  expanded : Support.expand e.program = .ok e.expanded
  arena : Work.Comes
    (Arena.ofProgram e.program (e.expanded.heapSize e.entry) e.expanded.bodies) e.arena
  code : ∃ next, Work.Comes (funcsLines e.env ({} : LoopNumbers).next e.written) (funcs, next)
    ∧ Work.Comes (e.entryCode next) directives
  output : out = e.output funcs directives

end Emission

theorem Emit.comes_findSkipped {p : Program} {entry : Option FuncId} {bodies : List Body}
    {skipped : List FuncId} (h : Work.Comes (findSkipped p entry bodies) skipped) :
    skipped = (bodies.filter fun b => entry ≠ some b.id
      && (unsupportedSignature? p.types b.func).isSome).map (·.id) := by
  induction bodies generalizing skipped with
  | nil => exact Work.comes_pure h
  | cons b rest ih =>
    unfold findSkipped at h
    by_cases hentry : entry = some b.id
    · rw [if_pos hentry] at h
      simpa [hentry] using ih h
    · rw [if_neg hentry] at h
      cases hwhy : unsupportedSignature? p.types b.func with
      | none =>
        rw [hwhy] at h
        simpa [hentry, hwhy] using ih h
      | some why =>
        rw [hwhy] at h
        obtain ⟨_, -, h⟩ := Work.comes_bind h
        obtain ⟨_, -, h⟩ := Work.comes_bind h
        obtain ⟨more, hmore, h⟩ := Work.comes_bind h
        rw [Work.comes_pure h, ih hmore]
        simp [hentry, hwhy]

/-- Whatever is written has an emission. -/
theorem Program.writes_of_emit {p : Program} {out : ModuleOutput} (h : Work.Comes p.emit out) :
    ∃ (e : Emission) (funcs directives : List Line),
      e.program = p ∧ e.Writes out funcs directives := by
  obtain ⟨x, hx, h⟩ := Work.comes_bind (Work.comes_within h)
  obtain ⟨a, ha, h⟩ := Work.comes_bind h
  obtain ⟨y, hy, hx⟩ := Work.comes_bind (Work.comes_within hx)
  obtain ⟨_, _, hx⟩ := Work.comes_bind hx
  obtain rfl := Work.comes_pure hx
  obtain ⟨skipped, hskipped, h⟩ := Work.comes_bind (Work.comes_within h)
  obtain rfl := comes_findSkipped hskipped
  obtain ⟨⟨funcs, next⟩, hfuncs, h⟩ := Work.comes_bind h
  let e : Emission := ⟨p, x, a⟩
  have hcode : Work.Comes (e.entryCode next >>= fun ds => pure (e.output funcs ds)) out := by
    simp only at h
    split at h
    · rename_i hentry
      rw [Emission.entryCode_none (e := e) hentry]
      exact h
    · rename_i b hentry
      rw [Emission.entryCode_some (e := e) hentry]
      exact h
  obtain ⟨directives, hdirectives, hout⟩ := Work.comes_bind hcode
  exact ⟨e, funcs, directives, rfl,
    { expanded := Work.comes_result hy
      arena := ha
      code := ⟨next, hfuncs, hdirectives⟩
      output := Work.comes_pure hout }⟩

end WastForge
