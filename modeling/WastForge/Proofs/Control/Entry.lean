import WastForge.Proofs.Control.Correct
import WastForge.Proofs.Emit.Instance
import WastForge.Proofs.Machine.Budget

/-!
# Returns of the entry point

The statements of the entry point run as directives, one after the other: most of them as a single
one, but a loop has one more for every statement before its first round, and a label group one that
makes its first label the current one. A return with a value ends the run from wherever it stands in
a statement: nothing behind it is evaluated, and no directive follows. A return without a value
leaves no code at top level, so what stands behind it runs as if it were not there.
-/

namespace WastForge

namespace Machine

variable {env : MachineEnv} {d d' : SourceForm} {ds : List SourceForm} {m m' x start : Machine}

theorem getElem?_of_trail {i : Nat} (h : (trail env ds start)[i]? = some (d, m)) :
    ds[i]? = some d := by
  induction ds generalizing start i with
  | nil => cases h
  | cons n rest ih =>
    rw [trail] at h
    cases i with
    | zero =>
      cases h
      rfl
    | succ i =>
      rw [List.getElem?_cons_succ] at h ⊢
      split at h
      · exact ih h
      · cases h

/-- A directive starts from the machine that the one before it left. -/
theorem trail_pred {i : Nat} (h : (trail env ds start)[i + 1]? = some (d, m)) :
    ∃ d₀ m₀, ds[i]? = some d₀ ∧ directive env d₀ m₀ = (.goOn, m) := by
  induction ds generalizing start i with
  | nil => cases h
  | cons n rest ih =>
    rw [trail, List.getElem?_cons_succ] at h
    split at h
    · rename_i hgo
      cases i with
      | zero =>
        refine ⟨n, start, rfl, Prod.ext hgo ?_⟩
        cases rest with
        | nil => cases h
        | cons n' rest =>
          rw [trail, List.getElem?_cons_zero] at h
          exact (Prod.mk.inj (Option.some.inj h)).2
      | succ i => exact ih h
    · cases h

/-- A directive that returns is the last one of its run. -/
theorem last_of_trail {i : Nat} (hreturns : directive env d m = (.over, x))
    (h : (trail env ds start)[i]? = some (d, m)) :
    (trail env ds start).length = i + 1 ∧ directives env ds start = (.over, x) := by
  induction ds generalizing start i with
  | nil => cases h
  | cons n rest ih =>
    rw [trail] at h ⊢
    rw [directives]
    cases i with
    | zero =>
      cases h
      rw [hreturns]
      exact ⟨rfl, rfl⟩
    | succ i =>
      rw [List.getElem?_cons_succ] at h
      rcases hd : directive env n start with ⟨_ | _ | _, m₁⟩
      · rw [hd] at h
        obtain ⟨hlength, hends⟩ := ih h
        exact ⟨congrArg (· + 1) hlength, hends⟩
      · rw [hd] at h
        cases h
      · rw [hd] at h
        cases h

/-- A directive returns just when its form ends in a return. -/
theorem directive_eq_over :
    directive env d m = (.over, x) ↔ ∃ v, ending env d m = .error (.ret v) x := by
  have hrun : Eval.run env (env.maxSteps + 1) {} d { m with steps := 0, pending := false }
      = ending env d m := rfl
  unfold directive
  rw [hrun]
  cases ending env d m with
  | ok v y => simp
  | error s y => cases s <;> simp

end Machine

namespace Control

open Eval Emit

variable {c : Setting} {labels : LabelTable} {s : Stmt} {n n' : LoopNumbers} {lines : List Line}

theorem Tells.eq_return {goals : Targets} {e : Ending} {v : Value} {x : Machine}
    (h : Tells labels goals e (.error (.ret v)) x) : e = .stop (.ret v) := by
  cases e with
  | done u => cases h
  | leave t | again t =>
    obtain ⟨_, _, h⟩ := h
    cases h
  | goto name =>
    obtain ⟨_, _, _, h, _⟩ := h
    cases h
  | stop s =>
    obtain ⟨h, -⟩ := h
    cases h
    rfl

/-- A run with the outcome of a return is a return. -/
theorem ret_of_outcome {r : EStateM.Result Stop Machine Value} {v : Value} {x : Machine}
    (houtcome : outcome r = .error (.ret v)) (hmachine : (machineOf r).plain = x) :
    ∃ y, r = .error (.ret v) y ∧ y.plain = x := by
  cases r with
  | ok u y => cases houtcome
  | error s y =>
    refine ⟨y, ?_, hmachine⟩
    cases s with
    | ret u =>
      cases houtcome
      rfl
    | branch l => cases houtcome
    | trap t => cases houtcome
    | crash => cases houtcome

/-! ## Directives and parts -/

/-- From a machine, a form does what is meant. -/
structure Does (labels : LabelTable) (world : MachineEnv) (frame : Frame) (f : Form)
    (b : Behaviour) (m : Machine) : Prop where
  sound : ∀ {o x}, SeqEnds world frame [f] .void m o x →
    ∃ e m', b .void m e m' ∧ Twin labels frame x m' ∧ Tells labels (targets {}) e o x
  complete : ∀ {e m'}, b .void m e m' →
    ∃ o x, SeqEnds world frame [f] .void m o x ∧ Twin labels frame x m'
      ∧ Tells labels (targets {}) e o x

/-- Directives that do what the parts of statements mean, one by one. The loop of a label group does
so behind the directive that makes its first label the current one. -/
inductive Plays (labels : LabelTable) (world : MachineEnv) (frame : Frame) :
    List Form → List Behaviour → Prop where
  | nil : Plays labels world frame [] []
  | cons {f : Form} {b : Behaviour} {fs : List Form} {bs : List Behaviour}
    (h : Realizes labels frame (targets {}) (SeqEnds world frame [f] .void) (b .void))
    (hrest : Plays labels world frame fs bs) : Plays labels world frame (f :: fs) (b :: bs)
  | group {g : Nat} {sections : List (Bytes × Behaviour)} {bodies : List (List Form)}
    {fs : List Form} {bs : List Behaviour} (h : GroupCode labels {} world frame g sections bodies)
    (hne : sections ≠ []) (hrest : Plays labels world frame fs bs) :
    Plays labels world frame (enterForm g :: groupForm g bodies :: fs)
      (.ends (.done (position 0)) :: .group sections :: bs)

namespace Plays

variable {world : MachineEnv} {frame : Frame} {fs gs : List Form} {as bs : List Behaviour}

theorem append (h : Plays labels world frame fs as) (h' : Plays labels world frame gs bs) :
    Plays labels world frame (fs ++ gs) (as ++ bs) := by
  induction h with
  | nil => exact h'
  | cons h _ ih => exact .cons h ih
  | group h hne _ ih => exact .group h hne ih

theorem length_eq (h : Plays labels world frame fs bs) : fs.length = bs.length := by
  induction h with
  | nil => rfl
  | cons _ _ ih => exact congrArg (· + 1) ih
  | group _ _ _ ih => exact congrArg (· + 2) ih

theorem single {f : Form} {b : Behaviour}
    (h : Realizes labels frame (targets {}) (SeqEnds world frame [f] .void) (b .void)) :
    Plays labels world frame [f] [b] := .cons h .nil

/-- Every directive does what its part means from any machine, or it is the loop of a label group
behind the directive that sets the local of the group. -/
theorem does (h : Plays labels world frame fs bs) (hframe : frame.func = none) {i : Nat} {f : Form}
    {b : Behaviour} (hf : fs[i]? = some f) (hb : bs[i]? = some b) :
    (∀ m : Machine, m.plain = m → Does labels world frame f b m)
      ∨ ∃ g j, i = j + 1 ∧ fs[j]? = some (enterForm g)
        ∧ ∀ m : Machine, m.plain = m → m.locals.lookup (Name.currentLabel g) = some (position 0) →
          Does labels world frame f b m := by
  have htwin : ∀ {m : Machine}, m.plain = m → Twin labels frame m m :=
    fun hm => ⟨rfl, .inl hframe, .inl hframe, hm, hm⟩
  induction h generalizing i with
  | nil => cases hf
  | cons h _ ih =>
    cases i with
    | zero =>
      cases hf
      cases hb
      exact .inl fun m hm => ⟨h.sound (htwin hm), h.complete (htwin hm)⟩
    | succ i =>
      rcases ih hf hb with hdoes | ⟨g, j, rfl, hj, hdoes⟩
      · exact .inl hdoes
      · exact .inr ⟨g, j + 1, rfl, hj, hdoes⟩
  | @group g sections bodies _ _ h hne _ ih =>
    match i with
    | 0 =>
      cases hf
      cases hb
      have henter : ∀ {m o x}, m.plain = m → (SeqEnds world frame [enterForm g] .void m o x
          ↔ o = .ok (position 0) ∧ x = m.set (Name.currentLabel g) (position 0)) :=
        fun hm => seqEnds_single.trans (formEnds_enter h.group hm (.inl hframe))
      refine .inl fun m hm => ⟨fun {o x} hends => ?_, fun {e m'} hb => ?_⟩
      · obtain ⟨rfl, rfl⟩ := (henter hm).mp hends
        exact ⟨_, m, ⟨rfl, rfl⟩, (htwin hm).set h.group _, rfl⟩
      · obtain ⟨rfl, rfl⟩ := hb
        exact ⟨_, _, (henter hm).mpr ⟨rfl, rfl⟩, (htwin hm).set h.group _, rfl⟩
    | 1 =>
      cases hf
      cases hb
      refine .inr ⟨g, 0, rfl, rfl, fun m hm hlocal => ⟨fun {o x} hends => ?_, fun {e m'} hb => ?_⟩⟩
      · exact h.sound (htwin hm) (List.length_pos_iff.mpr hne) hlocal
          (formEnds_group.mp (seqEnds_single.mp hends))
      · obtain ⟨o, x, hloop, rest⟩ := h.complete (htwin hm) hlocal hb
        exact ⟨o, x, seqEnds_single.mpr (formEnds_group.mpr hloop), rest⟩
    | i + 2 =>
      rcases ih hf hb with hdoes | ⟨g, j, rfl, hj, hdoes⟩
      · exact .inl hdoes
      · exact .inr ⟨g, j + 2, rfl, hj, hdoes⟩

end Plays

/-- Whether a statement is always written as one form. -/
def isOneForm : Stmt → Bool
  | .ite .. | .whileLoop .. | .goto .. | .branch .. | .ret .. | .switch .. | .bare .. => true
  | _ => false

theorem parts_eq_single (h : isOneForm s = true) : parts c s = [behave c s] := by
  cases s with
  | missing | block | expr | forLoop | labelGroup | varDecl => cases h
  | _ => rfl

/-- Such a statement is written alike in all places. -/
theorem stmt_arm_of_isOneForm {env : Env} {nest : Nest} (h : isOneForm s = true) :
    stmt env labels nest .plain s = stmt env labels nest .arm s := by
  cases s with
  | missing | block | expr | forLoop | labelGroup | varDecl => cases h
  | _ => rfl

theorem plays_oneForm (h : Hosts labels) (hone : isOneForm s = true)
    (he : Emits (stmt c.env labels {} .plain s) n lines n') (hn : n'.Extends c.numbers)
    (hfit : s.Each (NodeFits c.env labels)) :
    Plays labels c.world c.frame (Line.formsAll lines) (parts c s) := by
  rw [stmt_arm_of_isOneForm hone] at he
  have hrender := renders_stmt h {} .arm s he hn hfit
  obtain ⟨f, hf⟩ := hrender.single rfl
  have hreal := hrender.void
  rw [hf] at hreal ⊢
  rw [parts_eq_single hone]
  exact .single hreal

/-- Code of expressions, one form after the other. -/
theorem plays_codes {fs : List Form} (hfs : ∀ f ∈ fs, IsCode labels f) :
    Plays labels c.world c.frame fs (fs.map fun f => c.code [f]) := by
  induction fs with
  | nil => exact .nil
  | cons f rest ih =>
    rw [List.forall_mem_cons] at hfs
    exact .cons (realizes_code c (List.forall_mem_singleton.mpr hfs.1) .void) (ih hfs.2)

mutual

/-- The directives of a statement do what its parts mean. -/
theorem plays_stmt (h : Hosts labels) : ∀ (s : Stmt) {n n' : LoopNumbers} {lines : List Line},
    Emits (stmt c.env labels {} .plain s) n lines n' → n'.Extends c.numbers →
    s.Each (NodeFits c.env labels) →
    Plays labels c.world c.frame (Line.formsAll lines) (parts c s)
  | .missing, n, n', lines, he, _, _ => by
    obtain ⟨rfl, rfl⟩ := emits_pure he
    exact .nil
  | .block m rows, n, n', lines, he, hn, hfit =>
    plays_blockRows h rows he hn (Stmt.each_block.mp hfit).2
  | .expr m e, n, n', lines, he, _, hfit => by
    have hfit := (Stmt.each_expr.mp hfit).2
    obtain ⟨-, x, hx, rfl⟩ := emits_expr he
    have hrender : Renders c labels {} .plain _ _ _ := renders_expr hfit hx
    unfold parts
    rw [(comes_expr hfit hx).1]
    cases x with
    | none => exact .nil
    | some f => exact .single hrender.void
  | .forLoop m own init cond post body, n, n', lines, he, hn, hfit => by
    obtain ⟨-, hfitInit, hfitCond, hfitBody, hfitPost⟩ := Stmt.each_forLoop.mp hfit
    obtain ⟨init', n₁, index, n₂, test, body', post', hinit, hindex, htest, hbody, hpost, rfl⟩ :=
      emits_forLoop he
    have hn₂ := (grows_stmt _ _ _ _ _ _ _ _ hbody).trans hn
    have hn₁ := (grows_indexOf _ _ _ _ _ hindex).trans hn₂
    have hloop := realizes_forLoop hfitCond hfitPost htest
      (renders_stmt h _ .body body hbody hn hfitBody) hpost .void
    have hforms := forms_loop index test body' post'
    unfold parts
    rw [indexOf_eq hindex hn₂]
    rw [hforms] at hloop
    show Plays labels c.world c.frame (Line.formsAll (init' ++ _)) _
    rw [Line.formsAll_append, hforms]
    exact (plays_rows h init hinit hn₁ hfitInit).append (.single hloop)
  | .labelGroup m rows, n, n', lines, he, hn, hfit => by
    obtain ⟨hnode, hfitRows⟩ := Stmt.each_labelGroup.mp hfit
    obtain ⟨g, -, ⟨hnil, rfl, rfl⟩ | ⟨hne, hchecked, sections, hsections, rfl⟩⟩ :=
      emits_labelGroup he
    · unfold parts
      rw [hnil]
      exact .nil
    · obtain ⟨hnumbers, hlength⟩ := hnode hne g hchecked
      obtain ⟨bodies, hcode⟩ :=
        renders_sectionRows h (({} : Nest).withinGroup g) g rows hsections hn hfitRows
          List.mem_cons_self hnumbers
      unfold parts
      rw [List.isEmpty_eq_false_iff.mpr hne]
      cases rows with
      | none => exact absurd rfl hne
      | some l =>
        show Plays labels c.world c.frame (Line.formsAll (groupLines g sections)) _
        rw [forms_group hcode]
        exact .group (groupCode_behaveLabels hnumbers hlength hcode)
          (behaveLabels_ne_nil hne) .nil
  | .varDecl m vars, n, n', lines, he, _, hfit => by
    obtain ⟨hnames, hinit⟩ := Stmt.each_varDecl.mp hfit
    obtain ⟨-, inits, hinits, rfl⟩ := emits_varDecl he
    obtain ⟨hresult, hcode, -⟩ :=
      hinits.result? (makes_varInits fun v hv => ⟨hnames v hv, hinit v hv⟩)
    unfold parts
    rw [hresult]
    exact plays_codes hcode
  | .ite .., n, n', lines, he, hn, hfit | .whileLoop .., n, n', lines, he, hn, hfit
  | .goto .., n, n', lines, he, hn, hfit | .branch .., n, n', lines, he, hn, hfit
  | .ret .., n, n', lines, he, hn, hfit | .switch .., n, n', lines, he, hn, hfit
  | .bare .., n, n', lines, he, hn, hfit => plays_oneForm h rfl he hn hfit

theorem plays_blockRows (h : Hosts labels) :
    ∀ (rows : Option (List Stmt)) {n n' : LoopNumbers} {lines : List Line},
      Emits (blockRows c.env labels {} .plain rows) n lines n' → n'.Extends c.numbers →
      Stmt.EachRow (NodeFits c.env labels) rows →
      Plays labels c.world c.frame (Line.formsAll lines) (blockParts c rows)
  | none, n, n', lines, he, _, _ => by
    obtain ⟨rfl, rfl⟩ := emits_pure he
    exact .nil
  | some l, n, n', lines, he, hn, hfit => plays_blockItems h l he hn hfit

theorem plays_blockItems (h : Hosts labels) :
    ∀ (l : List Stmt) {n n' : LoopNumbers} {lines : List Line},
      Emits (blockItems c.env labels {} .plain l) n lines n' → n'.Extends c.numbers →
      Stmt.EachOf (NodeFits c.env labels) l →
      Plays labels c.world c.frame (Line.formsAll lines) (itemParts c l)
  | [], n, n', lines, he, _, _ => by
    obtain ⟨rfl, rfl⟩ := emits_pure he
    exact .nil
  | s :: rest, n, n', lines, he, hn, hfit => by
    have hblock := renders_blockItems h {} .plain (s :: rest) he hn hfit
    unfold itemParts
    rcases emits_blockItems he with ⟨hcollapse, he⟩ | ⟨hcollapse, first, n₁, more, -, -, rfl⟩
    · rw [hcollapse]
      exact plays_stmt h s he hn (Stmt.eachOf_cons.mp hfit).1
    · rw [hcollapse]
      exact .single hblock.void

theorem plays_rows (h : Hosts labels) :
    ∀ (rows : Option (List Stmt)) {n n' : LoopNumbers} {lines : List Line},
      Emits (stmtRows c.env labels {} rows) n lines n' → n'.Extends c.numbers →
      Stmt.EachRow (NodeFits c.env labels) rows →
      Plays labels c.world c.frame (Line.formsAll lines) (rowsParts c rows)
  | none, n, n', lines, he, _, _ => by
    obtain ⟨rfl, rfl⟩ := emits_pure he
    exact .nil
  | some l, n, n', lines, he, hn, hfit => plays_stmts h l he hn hfit

theorem plays_stmts (h : Hosts labels) :
    ∀ (l : List Stmt) {n n' : LoopNumbers} {lines : List Line},
      Emits (stmts c.env labels {} l) n lines n' → n'.Extends c.numbers →
      Stmt.EachOf (NodeFits c.env labels) l →
      Plays labels c.world c.frame (Line.formsAll lines) (allParts c l)
  | [], n, n', lines, he, _, _ => by
    obtain ⟨rfl, rfl⟩ := emits_pure he
    exact .nil
  | s :: rest, n, n', lines, he, hn, hfit => by
    obtain ⟨hfitFirst, hfitRest⟩ := Stmt.eachOf_cons.mp hfit
    obtain ⟨first, n₁, more, hfirst, hmore, rfl⟩ := emits_stmts he
    have hn₁ := (grows_stmts _ _ _ _ _ _ _ hmore).trans hn
    unfold allParts
    rw [Line.formsAll_append]
    exact (plays_stmt h s hfirst hn₁ hfitFirst).append (plays_stmts h rest hmore hn hfitRest)

end

/-- The directives of the entry point do what the parts of its body mean. -/
theorem plays_root (h : Hosts labels) (he : Emits (rootLines c.env labels s) n lines n')
    (hn : n'.Extends c.numbers) (hfit : s.Each (NodeFits c.env labels)) :
    Plays labels c.world c.frame (Line.formsAll lines) (rootParts c s) := by
  cases s with
  | block m rows => exact plays_rows h rows he hn (Stmt.each_block.mp hfit).2
  | _ => exact plays_stmt h _ he hn hfit

/-! ## Runs of directives -/

section run

variable {f : Form} {b : Behaviour} {d : SourceForm} {m : Machine}

/-- The directive in front of a label group always succeeds, and leaves its first label as the
current one. -/
theorem directive_enter {env : MachineEnv} {g : Nat} (hd : d.form = enterForm g)
    (hbudget : 2 ≤ env.maxSteps) :
    (Machine.directive env d m).2.locals.lookup (Name.currentLabel g) = some (position 0) := by
  obtain ⟨line, items, rfl, hitems⟩ := SourceForm.eq_list_of_form hd
  obtain ⟨l₁, args, rfl, hargs⟩ := SourceForm.forms_eq_atom_cons hitems
  obtain ⟨l₂, rest, rfl, hrest⟩ := SourceForm.forms_eq_atom_cons hargs
  obtain ⟨x, others, rfl, hx, hothers⟩ := SourceForm.forms_eq_cons hrest
  obtain rfl := SourceForm.forms_eq_nil hothers
  obtain ⟨l₃, words, rfl, hwords⟩ := SourceForm.eq_list_of_form hx
  obtain ⟨l₄, number, rfl, hnumber⟩ := SourceForm.forms_eq_atom_cons hwords
  obtain ⟨l₅, more, rfl, hmore⟩ := SourceForm.forms_eq_atom_cons hnumber
  obtain rfl := SourceForm.forms_eq_nil hmore
  obtain ⟨mod, budget, readFile⟩ := env
  obtain ⟨budget, rfl⟩ := Nat.exists_eq_add_of_le' hbudget
  exact Locals.lookup_set_self (Name.currentLabel g) (position 0) m.locals

variable (hframe : c.frame = {}) (hd : d.form = f)
  (hdoes : Does labels c.world c.frame f b m.fresh)

include hframe hd hdoes

/-- Where a part means a return, its directive returns with every budget that lasts. -/
theorem Does.directive_returns {v : Value} {m' : Machine}
    (hreturn : b .void m.fresh (.stop (.ret v)) m') :
    ∃ k, ∀ budget, k ≤ budget → ∃ x, Machine.directive (c.world.within budget) d m = (.over, x)
      ∧ x.visible (groupLocals labels) = m'.visible (groupLocals labels) := by
  have hforms : SourceForm.forms [d] = [f] := by
    rw [← hd]
    rfl
  obtain ⟨o, x, hends, htwin, htells⟩ := hdoes.complete hreturn
  obtain ⟨rfl, -⟩ := htells
  obtain ⟨k, hk⟩ := evaluate_of_seqEnds m.fresh hforms hends
  refine ⟨k, fun budget hbudget => ?_⟩
  have hsteps : m.fresh.steps + k ≤ budget := by
    show 0 + k ≤ budget
    omega
  obtain ⟨houtcome, hmachine⟩ := hk budget (budget + 1) hsteps (by omega)
  obtain ⟨y, hy, rfl⟩ : ∃ y, Machine.ending (c.world.within budget) d m = .error (.ret v) y
      ∧ y.plain = x := by
    rw [Setting.evaluate, hframe] at houtcome hmachine
    exact ret_of_outcome houtcome hmachine
  exact ⟨y, Machine.directive_eq_over.mpr ⟨v, hy⟩, htwin.visible⟩

/-- Where a directive returns, its part means a return. -/
theorem Does.returns_of_directive {budget : Nat}
    (hover : (Machine.directive (c.world.within budget) d m).1 = .over) :
    ∃ v m', b .void m.fresh (.stop (.ret v)) m' := by
  have hforms : SourceForm.forms [d] = [f] := by
    rw [← hd]
    rfl
  obtain ⟨v, hending⟩ := Machine.directive_eq_over.mp (Prod.ext hover rfl)
  have hrun : c.evaluate budget (budget + 1) [d] m.fresh
      = .error (.ret v) (Machine.directive (c.world.within budget) d m).2 := by
    rw [Setting.evaluate, hframe]
    exact hending
  have hlasts : ¬Exhausted budget (outcome (c.evaluate budget (budget + 1) [d] m.fresh)) := by
    rw [hrun]
    exact fun h => h
  have hends := seqEnds_of_evaluate m.fresh hforms hlasts
  rw [hrun] at hends
  obtain ⟨e, m', href, -, htells⟩ := hdoes.sound hends
  obtain rfl := htells.eq_return
  exact ⟨v, m', href⟩

end run

/-! ## The entry point of a program -/

/-- Every return has a value, no variable is named like the local of a label group, and a label
group has no more labels than a word of the machine can tell apart. -/
def EntryFits : Node → Prop
  | .expr (.variable _ name _) => ∀ g, Name.local_ name ≠ Name.currentLabel g
  | .stmt (.varDecl _ vars) => ∀ v ∈ Rows.items vars, ∀ g, Name.local_ v.name ≠ Name.currentLabel g
  | .stmt (.labelGroup _ rows) => (Rows.items rows).length ≤ 2 ^ 32
  | .stmt (.ret _ value) => value.isMissing = false
  | _ => True

theorem nodeFits_of_entryFits {root : Stmt} (h : root.Each EntryFits)
    (htable : LabelTable.ofBody root = .ok labels) (env : Env) :
    root.Each (NodeFits env labels) := by
  intro x hx
  have hfits := h x hx
  unfold NodeFits
  split
  · exact fun _ g _ => hfits g
  · exact fun v hv _ g _ => hfits v hv g
  · exact fun hne g hcheck => ⟨LabelTable.numbers_of_checkLabels htable hx hne hcheck, hfits⟩
  · exact fun _ => hfits
  · trivial

/-- Where the entry point of a program runs: its directives are no function. -/
def entrySetting (e : Emission) (b : Body) (numbers : LoopNumbers) (mod : Script.Module)
    (readFile : Bytes → Except Bytes Bytes) : Setting :=
  ⟨{ e.env with member := b.func.qualifiedName }, numbers, ⟨mod, 0, readFile⟩, {}⟩

/-- Directives that play parts do what the parts mean when their turn comes. -/
theorem does_of_trail {front own : List SourceForm} {bs : List Behaviour} (hc : c.frame = {})
    (hplays : Plays labels c.world c.frame (SourceForm.forms own) bs) {start m : Machine}
    {d : SourceForm} {i : Nat} {part : Behaviour} {budget : Nat}
    (hbudget : 2 ≤ budget) (hpart : bs[i]? = some part)
    (hturn : (Machine.trail (c.world.within budget) (front ++ own) start)[front.length + i]?
      = some (d, m)) :
    Does labels c.world c.frame d.form part m.fresh := by
  have hown : ∀ {j d}, (front ++ own)[front.length + j]? = some d →
      (SourceForm.forms own)[j]? = some d.form := by
    intro j d hd
    rw [List.getElem?_append_right (Nat.le_add_right _ _), Nat.add_sub_cancel_left] at hd
    rw [SourceForm.forms_eq_map, List.getElem?_map, hd]
    rfl
  have hfresh : m.fresh.plain = m.fresh := rfl
  have hframe : c.frame.func = none := by rw [hc]
  rcases hplays.does hframe (hown (Machine.getElem?_of_trail hturn)) hpart with
    hdoes | ⟨g, j, rfl, henter, hdoes⟩
  · exact hdoes _ hfresh
  · -- the directive before this one has set the local of the group
    obtain ⟨d₀, m₀, hd₀, hgo⟩ := Machine.trail_pred hturn
    have hform : d₀.form = enterForm g := Option.some.inj ((hown hd₀).symm.trans henter)
    have hlocal := @directive_enter d₀ m₀ (c.world.within budget) g hform hbudget
    rw [hgo] at hlocal
    exact hdoes _ hfresh hlocal

/-- A return with a value ends the run, and a run ends early in no other way. The directives of a
program end with those of its entry point, one for each part of its body, from the machine with
which its turn comes: where the part means a return, its directive is the last one of every run
whose budget lasts, and the run leaves the machine of the return behind; and a directive that ends
a run stands for a part that means a return. The parts mean what their statements mean in a
function, and what they mean by the indices of the source, if no number of a loop without an index
is the index that a break or continue from there names. -/
theorem return_ends_run {p : Program} {e : Emission} {b : Body} {out : ModuleOutput}
    {ns ds : List SourceForm} {mod : Script.Module} (readFile : Bytes → Except Bytes Bytes)
    (hops : p.NamesOps) (hemit : Work.Comes p.emit out) (hread : Script.read out.text = .ok ns)
    (hmod : Script.instantiate ns = .ok (mod, ds)) (he : p.emission? = some e)
    (hentry : p.entryPoint? = some b) (hbody : (e.entryRoot b).Each EntryFits) :
    ∃ labels numbers front own, LabelTable.ofBody (e.entryRoot b) = .ok labels
      ∧ ds = front ++ own ∧
      let c := entrySetting e b numbers mod readFile
      own.length = (rootParts c (e.entryRoot b)).length
      ∧ (c.Clear (e.entryRoot b) →
        rootParts c (e.entryRoot b) = rootParts c.unnumbered (e.entryRoot b))
      ∧ ∀ (i : Nat) (part : Behaviour), (rootParts c (e.entryRoot b))[i]? = some part →
        ∀ (d : SourceForm) (m : Machine),
          (∀ v m', part .void m.fresh (.stop (.ret v)) m' → ∃ k, ∀ budget start, k ≤ budget →
            (Machine.trail (c.world.within budget) ds start)[front.length + i]? = some (d, m) →
              (Machine.trail (c.world.within budget) ds start).length = front.length + i + 1
                ∧ ∃ x, Machine.directives (c.world.within budget) ds start = (.over, x)
                  ∧ x.visible (groupLocals labels) = m'.visible (groupLocals labels))
          ∧ ∀ budget start, 2 ≤ budget →
            (Machine.trail (c.world.within budget) ds start)[front.length + i]? = some (d, m) →
            (Machine.directive (c.world.within budget) d m).1 = .over →
              ∃ v m', part .void m.fresh (.stop (.ret v)) m' := by
  obtain ⟨e', funcs, directives, rfl, hwrites⟩ := Program.writes_of_emit hemit
  obtain rfl : e = e' := Option.some.inj (he.symm.trans hwrites.emission?)
  obtain ⟨before, all, rfl, hall⟩ := hwrites.exists_own hops hread hmod
  obtain ⟨next, -, hcode⟩ := hwrites.code
  rw [Emission.entryCode_some hentry] at hcode
  obtain ⟨labels, code, numbers, hlabels, hemits, rfl⟩ := comes_entryLines hcode
  rw [Line.formsAll_append, SourceForm.forms_eq_map, List.map_eq_append_iff] at hall
  obtain ⟨init, own, rfl, -, hown⟩ := hall
  have hplays := plays_root (c := entrySetting e b numbers mod readFile)
    (hosts_ofBody hlabels fun _ _ hmem => hbody _ hmem) hemits (.refl _)
    (nodeFits_of_entryFits hbody hlabels _)
  rw [← hown, ← SourceForm.forms_eq_map] at hplays
  have hdoes := @does_of_trail _ _ (before ++ init) own _ rfl hplays
  rw [List.append_assoc] at hdoes
  refine ⟨labels, numbers, before ++ init, own, hlabels, (List.append_assoc _ _ _).symm, ?_, ?_, ?_⟩
  · rw [← hplays.length_eq, SourceForm.forms_eq_map, List.length_map]
  · exact fun hclear => rootParts_unnumbered _ hclear
  intro i part hpart d m
  constructor
  · intro v m' hreturn
    by_cases hturns : ∃ budget start, 2 ≤ budget ∧ (Machine.trail
        ((entrySetting e b numbers mod readFile).world.within budget) (before ++ (init ++ own))
        start)[(before ++ init).length + i]? = some (d, m)
    · obtain ⟨budget, start, hbudget, hturn⟩ := hturns
      obtain ⟨k, hk⟩ :=
        (hdoes hbudget hpart hturn).directive_returns (c := entrySetting e b numbers mod readFile)
          rfl rfl hreturn
      refine ⟨k, fun budget start hbudget hturn => ?_⟩
      obtain ⟨x, hreturns, hx⟩ := hk budget hbudget
      obtain ⟨hlength, hends⟩ := Machine.last_of_trail hreturns hturn
      exact ⟨hlength, x, hends, hx⟩
    · exact ⟨2, fun budget start hbudget hturn => absurd ⟨budget, start, hbudget, hturn⟩ hturns⟩
  · intro budget start hbudget hturn hover
    exact (hdoes hbudget hpart hturn).returns_of_directive
      (c := entrySetting e b numbers mod readFile) rfl rfl hover

/-! ## A return in the section of a label -/

/-- The constant `true`. -/
def trueExpr : Expr := .literal { type := TypeTable.bool } { kind := .bool, bool := true }

/-- The label group `first: return true;`. -/
def returningGroup : Stmt :=
  .labelGroup { id := 3 } (some [.mk "first" (some [.ret { id := 4 } trueExpr])])

/-- The body `if (true) { first: return true; } if (true) x = 1;`. -/
def returningBody : Stmt :=
  .block { id := 1 } (some [.ite { id := 2 } trueExpr returningGroup .missing,
    .ite { id := 5 } trueExpr (.expr { id := 6 } (.binary { type := TypeTable.int32 } .assign
      (.variable { type := TypeTable.int32 } "x" false)
      (.literal { type := TypeTable.int32 } { kind := .int, int := 1 }))) .missing])

/-- A program with that entry point. -/
def returningProgram : Program :=
  { name := "p"
    decls := some [{
      name := "T"
      funcs := some [
        { name := "Main", declaringType := "T", flags := 5, result := TypeTable.void
          body := returningBody }] }] }

theorem entryFits_returning : returningBody.Each EntryFits := by
  have hx : ∀ g, Name.local_ "x" ≠ Name.currentLabel g := by
    intro g h
    have htake := congrArg (List.take 2) h
    cases htake
  simpa [returningBody, returningGroup, trueExpr, EntryFits, Rows.items, Expr.isMissing] using hx

/-- Constants have their values. -/
theorem code_const {w : Bytes} {v : Value} (hw : Value.ofConstant .i32 w = .ok v) {m : Machine}
    (hm : m.plain = m) : c.code [.words ["i32.const", w]] .void m (.done v) m :=
  ⟨.ok v, seqEnds_single.mpr
    ((formEnds_of_answers hm fun _ => answers_const (by decide) hw).mpr ⟨rfl, rfl⟩), rfl⟩

/-- The first statement means to return. -/
theorem behave_returning (m : Machine) :
    behave c (.ite { id := 2 } trueExpr returningGroup .missing) .void m.fresh
      (.stop (.ret (.i32 1))) m.fresh := by
  have htrue : c.code [.words ["i32.const", "1"]] .void m.fresh (.done (.i32 1)) m.fresh :=
    code_const (by decide) rfl
  have hreturn : behaveRows c (some [.ret { id := 4 } trueExpr]) .void m.fresh
      (.stop (.ret (.i32 1))) m.fresh := .inr ⟨.inl ⟨.i32 1, htrue, rfl⟩, rfl⟩
  have hgroup : behave c returningGroup .void m.fresh (.stop (.ret (.i32 1))) m.fresh :=
    Behaviour.Sections.leave rfl hreturn rfl (fun _ _ h => by cases h)
  exact .inl ⟨.i32 1, m.fresh, htrue, hgroup⟩

/-- Its second directive is never reached. -/
theorem return_ends_run_section :
    ∃ out ns ds mod, Work.Comes returningProgram.emit out ∧ Script.read out.text = .ok ns
      ∧ Script.instantiate ns = .ok (mod, ds) ∧ ds.length = 2
      ∧ ∀ readFile start, ∃ k, ∀ budget, k ≤ budget →
        (Machine.trail ⟨mod, budget, readFile⟩ ds start).length = 1
          ∧ (Machine.directives ⟨mod, budget, readFile⟩ ds start).1 = .over := by
  have hrun : (returningProgram.emit.result?.bind fun out =>
      (Script.read out.text).toOption.bind fun ns =>
        (Script.instantiate ns).toOption.map fun r => r.2.length) = some 2 := by
    decide +kernel
  simp only [Option.bind_eq_some_iff, Option.map_eq_some_iff] at hrun
  obtain ⟨out, hout, ns, hns, ⟨mod, ds⟩, hmod, hlength⟩ := hrun
  have hemit := Work.comes_of_result? hout
  have hread := ok_of_toOption hns
  have hinstance := ok_of_toOption hmod
  refine ⟨out, ns, ds, mod, hemit, hread, hinstance, hlength, fun readFile start => ?_⟩
  have hfront : returningProgram.IsFrontEnd := by decide +kernel
  obtain ⟨e, b, he, hb, hroot⟩ : ∃ e b, returningProgram.emission? = some e
      ∧ returningProgram.entryPoint? = some b ∧ e.entryRoot b = returningBody :=
    ⟨_, _, rfl, rfl, rfl⟩
  obtain ⟨labels, numbers, front, own, -, rfl, hown, -, hparts⟩ :=
    return_ends_run readFile hfront.namesOps hemit hread hinstance he hb
      (hroot ▸ entryFits_returning)
  rw [hroot] at hown hparts
  have hown : own.length = 2 := hown
  rw [List.length_append, hown] at hlength
  obtain rfl : front = [] := List.eq_nil_of_length_eq_zero (by omega)
  cases own with
  | nil => cases hown
  | cons d rest =>
    obtain ⟨hreturns, -⟩ := hparts 0 _ rfl d start
    obtain ⟨k, hk⟩ := hreturns _ _ (behave_returning start)
    refine ⟨k, fun budget hbudget => ?_⟩
    obtain ⟨hone, x, hover, -⟩ := hk budget start hbudget rfl
    exact ⟨hone, congrArg Prod.fst hover⟩

/-! ## Returns without a value -/

/-- At top level a return without a value leaves no code, wherever it stands among statements. -/
theorem stmts_bare_return {env : Env} (htop : env.isTopLevel) (labels : LabelTable) (nest : Nest)
    (mark : Mark) (before after : List Stmt) :
    stmts env labels nest (before ++ .ret mark .missing :: after)
      = stmts env labels nest (before ++ after) := by
  induction before with
  | nil =>
    have hmissing : Expr.missing.isMissing = true := rfl
    rw [List.nil_append, List.nil_append, stmts, stmt, if_pos hmissing, if_pos htop]
    simp only [pure_bind, List.nil_append, bind_pure]
  | cons s rest ih => rw [List.cons_append, List.cons_append, stmts, stmts, ih]

/-- An entry point without anything around it. -/
def bareSetting : Setting :=
  ⟨{ program := {}, arena := default }, {}, ⟨{}, 0, fun _ => .error []⟩, {}⟩

/-- The statements `return; x = 1;`. -/
def returnThenSet : List Stmt :=
  [.ret { id := 1 } .missing,
    .expr { id := 2 } (.binary { type := TypeTable.int32 } .assign
      (.variable { type := TypeTable.int32 } "x" false)
      (.literal { type := TypeTable.int32 } { kind := .int, int := 1 }))]

/-- The code of the second one. -/
def setForm : Form :=
  .list [.atom "set_local", .atom (Name.local_ "x"), .words ["i32.const", "1"]]

/-- They mean to return at once, but the run sets the local. -/
theorem return_skipped :
    behaveAll bareSetting returnThenSet .void {} (.stop (.ret .void)) {}
      ∧ Emits (stmts bareSetting.env {} {} returnThenSet) {} [.form setForm] {}
      ∧ (Machine.directives (bareSetting.world.within 2) [sourceOf setForm] {}).2.locals
        = [(Name.local_ "x", Value.i32 1)] := by
  have hskip : stmts bareSetting.env {} {} returnThenSet
      = stmts bareSetting.env {} {} returnThenSet.tail :=
    stmts_bare_return rfl {} {} { id := 1 } [] _
  refine ⟨.inr ⟨⟨rfl, rfl⟩, rfl⟩, ⟨[], [], ?_⟩, rfl⟩
  rw [hskip]
  rfl

end Control

end WastForge
