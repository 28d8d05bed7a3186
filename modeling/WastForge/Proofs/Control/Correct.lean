import WastForge.Proofs.Control.Loop
import WastForge.Proofs.Control.Statement
import WastForge.Proofs.Program.Each

/-!
# Label groups and loops in functions

The code of a label group runs its sections as gotos and falling off their ends tell, and the code
of a loop runs its rounds, wherever they stand in a function and however they are nested. A run that
its budget does not stop ends as is meant, and what is meant is what every run with a budget that
lasts does. Loops mean their own indices; their code is given numbers where they have none, which
differs only where a number is the index that a break or continue names.
-/

namespace WastForge.Control

open Eval Emit

/-- The setting of a function with this body, which is not the entry point. Its labels are those of
the table, none of its parameters and locals is named like the local of a label group, and a group
has no more labels than a word of the machine can tell apart. -/
structure Inside (c : Setting) (root : Stmt) (labels : LabelTable) : Prop where
  inFunction : c.env.isTopLevel = false
  table : LabelTable.ofBody root = .ok labels
  apart : ∀ name, (c.env.local? name).isSome = true → ∀ g < labels.groups,
    Name.local_ name ≠ Name.currentLabel g
  counted : ∀ m rows, Node.stmt (.labelGroup m rows) ∈ Node.all root →
    (Rows.items rows).length ≤ 2 ^ 32

/-- Evaluate forms in the function, with a budget and with fuel for nested forms. -/
def Setting.evaluate (c : Setting) (budget fuel : Nat) (ns : List SourceForm) (start : Machine) :
    EStateM.Result Stop Machine Value :=
  seq (run (c.world.within budget) fuel) c.frame ns start

/-- A run that ends as is meant, with a machine that differs in the locals of label groups only. -/
structure Shows (labels : LabelTable) (nest : Nest) (e : Ending) (m : Machine)
    (r : EStateM.Result Stop Machine Value) : Prop where
  tells : Tells labels (targets nest) e (outcome r) (machineOf r)
  visible : (machineOf r).visible (groupLocals labels) = m.visible (groupLocals labels)

/-- Forms that do what is meant, from every machine that has the locals of the label groups. -/
structure Computes (c : Setting) (labels : LabelTable) (nest : Nest) (fs : List Form)
    (ref : Machine → Ending → Machine → Prop) : Prop where
  /-- A run that is not stopped by its budget ends in a way that is meant. -/
  sound : ∀ {ns start budget fuel}, SourceForm.forms ns = fs → start.Has (groupLocals labels) →
    ¬Exhausted budget (outcome (c.evaluate budget fuel ns start)) →
    ∃ e m, ref start.plain e m ∧ Shows labels nest e m (c.evaluate budget fuel ns start)
  /-- What is meant happens with every budget from some one on. -/
  complete : ∀ {ns start e m}, SourceForm.forms ns = fs → start.Has (groupLocals labels) →
    ref start.plain e m →
    ∃ k, ∀ budget fuel, start.steps + k ≤ budget → k ≤ fuel →
      Shows labels nest e m (c.evaluate budget fuel ns start)

variable {c : Setting} {root : Stmt} {labels : LabelTable} {nest : Nest} {shape : Shape}
variable {n n' : LoopNumbers} {lines : List Line} {fs : List Form}
variable {ref : Machine → Ending → Machine → Prop}

theorem twin_self {frame : Frame} {m : Machine} (h : m.Has (groupLocals labels)) :
    Twin labels frame m.plain m.plain :=
  ⟨rfl, .inr h, .inr h, rfl, rfl⟩

theorem tells_plain {goals : Targets} {e : Ending} {o : Except Stop Value} {m : Machine} :
    Tells labels goals e o m.plain ↔ Tells labels goals e o m := by
  cases e <;> exact Iff.rfl

section run

variable {ns : List SourceForm} (start : Machine) (hns : SourceForm.forms ns = fs)

include hns

/-- Forms end as a run of them does that its budget does not stop. -/
theorem seqEnds_of_evaluate {budget fuel : Nat}
    (hlasts : ¬Exhausted budget (outcome (c.evaluate budget fuel ns start))) :
    SeqEnds c.world c.frame fs .void start.plain (outcome (c.evaluate budget fuel ns start))
      (machineOf (c.evaluate budget fuel ns start)).plain := by
  have hsettles : Settles (seq (run (c.world.within budget) fuel) c.frame ns) start
      (machineOf (c.evaluate budget fuel ns start)).steps
      (outcome (c.evaluate budget fuel ns start))
      (machineOf (c.evaluate budget fuel ns start)).plain :=
    ⟨rfl, rfl, Nat.le_add_left _ _⟩
  rw [seq_eq_seqFrom] at hsettles
  exact (seqEnds_forms ns hns).mpr ⟨budget, fuel, start, _, rfl, hsettles, hlasts⟩

/-- A run of forms ends as they do, with every budget from some one on. -/
theorem evaluate_of_seqEnds {o : Except Stop Value} {x : Machine}
    (h : SeqEnds c.world c.frame fs .void start.plain o x) :
    ∃ k, ∀ budget fuel, start.steps + k ≤ budget → k ≤ fuel →
      outcome (c.evaluate budget fuel ns start) = o
        ∧ (machineOf (c.evaluate budget fuel ns start)).plain = x := by
  obtain ⟨k, hk⟩ := ((seqEnds_forms ns hns).mp h).eventually (stable_seqFrom _ _)
  refine ⟨k, fun budget fuel hbudget hfuel => ?_⟩
  have hsettles := hk budget fuel start rfl hfuel hbudget
  rw [← seq_eq_seqFrom] at hsettles
  exact ⟨hsettles.outcome, hsettles.machine⟩

end run

/-- Code that realizes a behaviour computes it. -/
theorem computes_of_realizes
    (h : Realizes labels c.frame (targets nest) (SeqEnds c.world c.frame fs .void) ref) :
    Computes c labels nest fs ref := by
  constructor
  · intro ns start budget fuel hns hhas hlasts
    obtain ⟨e, m, hm, htwin, htells⟩ :=
      h.sound (twin_self hhas) (seqEnds_of_evaluate start hns hlasts)
    exact ⟨e, m, hm, tells_plain.mp htells, htwin.visible⟩
  · intro ns start e m hns hhas hm
    obtain ⟨o, n', hends, htwin, htells⟩ := h.complete (twin_self hhas) hm
    obtain ⟨k, hk⟩ := evaluate_of_seqEnds start hns hends
    refine ⟨k, fun budget fuel hbudget hfuel => ?_⟩
    obtain ⟨houtcome, hmachine⟩ := hk budget fuel hbudget hfuel
    constructor
    · rw [← tells_plain, hmachine, houtcome]
      exact htells
    · rw [← Machine.visible_plain, hmachine]
      exact htwin.visible

/-- The labels of a body can be told apart by the machine if there are not too many. -/
theorem hosts_ofBody (htable : LabelTable.ofBody root = .ok labels)
    (hcounted : ∀ m rows, Node.stmt (.labelGroup m rows) ∈ Node.all root →
      (Rows.items rows).length ≤ 2 ^ 32) : Hosts labels := by
  have hlists := LabelTable.lists_ofBody htable
  constructor
  intro name p hp
  have hat := (hlists.place name p).mp hp
  unfold LabelTable.nameAt at hat
  cases hgroup : (LabelTable.groupsOf (Node.all root))[p.group]? with
  | none =>
    rw [hgroup] at hat
    cases hat
  | some group =>
    rw [hgroup] at hat
    obtain ⟨label, hlabel, _⟩ := Option.map_eq_some_iff.mp hat
    obtain ⟨hlt, rfl⟩ := List.getElem?_eq_some_iff.mp hgroup
    obtain ⟨m, rows, hmem, hrows⟩ := LabelTable.exists_of_mem_groupsOf (List.getElem_mem hlt)
    have hlength := hcounted m rows hmem
    have hindex := (List.getElem?_eq_some_iff.mp hlabel).1
    rw [hlists.length]
    exact ⟨hlt, by rw [hrows] at hlength; omega⟩

namespace Inside

variable (h : Inside c root labels)

include h

theorem hosts : Hosts labels := hosts_ofBody h.table h.counted

theorem apart_name (name : Bytes) : Apart c.env labels name := by
  intro hname
  refine h.apart name (hname.resolve_left ?_)
  rw [h.inFunction]
  exact Bool.false_ne_true

theorem nodesFit {s : Stmt} (hs : Node.stmt s ∈ Node.all root) :
    s.Each (NodeFits c.env labels) := by
  intro x hx
  have hroot := Node.mem_all_of_mem hs hx
  unfold NodeFits
  split
  · exact h.apart_name _
  · exact fun v _ => h.apart_name v.name
  · rename_i m rows
    intro hne g hcheck
    exact ⟨LabelTable.numbers_of_checkLabels h.table hroot hne hcheck, h.counted m rows hroot⟩
  · intro htop
    cases h.inFunction.symm.trans htop
  · trivial

/-- The code of a statement of the function computes what the statement means. -/
theorem computes {s : Stmt} (hs : Node.stmt s ∈ Node.all root)
    (hemits : Emits (stmt c.env labels nest shape s) n lines n') (hn : n'.Extends c.numbers) :
    Computes c labels nest (Line.formsAll lines) (behave c s .void) :=
  computes_of_realizes (renders_stmt h.hosts nest shape s hemits hn (h.nodesFit hs)).void

end Inside

/-- The code of a label group implements its gotos: it starts with the first section, a goto to a
label of the group from anywhere inside goes on with the section of the label, a section that falls
off its end goes on with the next one, and the last one leaves the group. Everything else leaves the
group as it is. -/
theorem label_group_correct (h : Inside c root labels) {m : Mark} {rows : Rows Label}
    (hmem : Node.stmt (.labelGroup m rows) ∈ Node.all root) (hne : Rows.items rows ≠ [])
    (hemits : Emits (stmt c.env labels nest shape (.labelGroup m rows)) n lines n')
    (hn : n'.Extends c.numbers) :
    Computes c labels nest (Line.formsAll lines)
      (Behaviour.Sections (behaveLabelRows c rows) 0) := by
  have hcomputes := h.computes hmem hemits hn
  unfold behave at hcomputes
  rwa [if_neg (by simpa using hne)] at hcomputes

/-- A function with the local `i`. -/
def jumpEnv : Env :=
  { program := {}, arena := default, locals := some [("i", TypeTable.int32)] }

/-- The local `i` and a number under an operator. -/
def jumpOp (op : BinaryOp) (t : TypeId) (n : Int64) : Expr :=
  .binary { type := t } op (.variable { type := TypeTable.int32 } "i" false)
    (.literal { type := TypeTable.int32 } { kind := .int, int := n })

/-- The labels of a group in a loop: the first one goes to the label around the loop or continues
the loop, and the second one breaks the loop. -/
def jumpInner : Stmt :=
  .labelGroup { id := 5 } (some [
    .mk "entry" (some [.ite { id := 6 } (jumpOp .eq TypeTable.bool 2) (.goto { id := 7 } "a")
      (.ite { id := 8 } (jumpOp .lt TypeTable.bool 8)
        (.branch { id := 9 } true noIndex) .missing)]),
    .mk "out" (some [.branch { id := 10 } false noIndex])])

/-- The loop `for (; i < 16; i += 1)` around that group. -/
def jumpLoop : Stmt :=
  .forLoop { id := 4 } noIndex none (jumpOp .lt TypeTable.bool 16)
    (some [jumpOp .addAssign TypeTable.int32 1]) jumpInner

/-- The loop in the section of a label. -/
def jumpOuter : Stmt :=
  .labelGroup { id := 2 } (some [
    .mk "a" (some [.expr { id := 3 } (jumpOp .addAssign TypeTable.int32 1), jumpLoop])])

/-- The labels of the two groups. -/
def jumpLabels : LabelTable :=
  { groups := 2, places := [("a", ⟨0, 0⟩), ("entry", ⟨1, 0⟩), ("out", ⟨1, 1⟩)],
    groupOf := [(5, 1), (2, 0)] }

/-- The setting after the code of the loop is written. -/
def jumpSetting : Setting :=
  ⟨jumpEnv, { next := 4097, chosen := [(4, 4096)] }, ⟨{}, 0, fun _ => .error []⟩, ⟨some "$f", 1⟩⟩

theorem jump_inside : Inside jumpSetting jumpOuter jumpLabels := by
  refine ⟨rfl, rfl, ?_, ?_⟩
  · intro name hname g hg
    have hi : name = "i" := by
      refine Decidable.byContradiction fun hne => ?_
      simp [Env.local?, jumpSetting, jumpEnv, List.lookup, beq_eq_false_iff_ne.mpr hne] at hname
    subst hi
    have hall : ∀ g < jumpLabels.groups, Name.local_ "i" ≠ Name.currentLabel g := by decide
    exact hall g hg
  · intro m rows hmem
    have hall : ∀ l ∈ LabelTable.groupsOf (Node.all jumpOuter), l.length ≤ 2 ^ 32 := by decide
    exact hall _ (LabelTable.mem_groupsOf hmem)

/-- A group around a loop around a group whose gotos leave both. -/
theorem label_group_correct_nested :
    ∃ lines, Emits (stmt jumpEnv jumpLabels {} .plain jumpOuter) {} lines jumpSetting.numbers
      ∧ Computes jumpSetting jumpLabels {} (Line.formsAll lines)
        (Behaviour.Sections (behaveLabelRows jumpSetting (some [
          .mk "a" (some [.expr { id := 3 } (jumpOp .addAssign TypeTable.int32 1), jumpLoop])]))
            0) := by
  have hrun : ∃ lines, ((stmt jumpEnv jumpLabels {} .plain jumpOuter).run {}).run []
      = (.ok (lines, jumpSetting.numbers), []) := ⟨_, rfl⟩
  obtain ⟨lines, hrun⟩ := hrun
  have hemits : Emits (stmt jumpEnv jumpLabels {} .plain jumpOuter) {} lines jumpSetting.numbers :=
    ⟨[], [], hrun⟩
  refine ⟨lines, hemits, ?_⟩
  exact label_group_correct jump_inside List.mem_cons_self (by decide) hemits (.refl _)

/-- What a loop means by its own index, round after round. -/
def loop? (c : Setting) : Stmt → Option (Machine → Ending → Machine → Prop)
  | .forLoop _ own init cond post body =>
    some ((behaveRows c init).seq (fun _ => Loop own (c.condition cond) (behave c body .void)
      (c.posts (Rows.items post))) .void)
  | .whileLoop _ testLast own cond body =>
    some
      (if testLast then Loop own .none (behave c body .void) (c.condition cond)
      else Loop own (c.condition cond) (behave c body .void) .none)
  | _ => none

theorem behave_loop {s : Stmt} (h : loop? c.unnumbered s = some ref) {m m' : Machine}
    {e : Ending} : behave c.unnumbered s .void m e m' ↔ ref m e m' := by
  cases s with
  | forLoop mark own init cond post body =>
    cases h
    rw [behave, Setting.indexOf_unnumbered]
    refine or_congr_left (exists_congr fun u => exists_congr fun m₁ => and_congr_right fun _ => ?_)
    exact loop_iff (checks_test cond) (checks_effects (Rows.items post))
  | whileLoop mark testLast own cond body =>
    cases h
    rw [behave, Setting.indexOf_unnumbered]
    cases testLast with
    | true => exact loop_iff (v := .void) (checks_none id) (checks_test cond)
    | false => exact loop_iff (v := .void) (checks_test cond) (checks_none id)
  | _ => cases h

theorem jumpLoop_clear : jumpSetting.Clear jumpLoop := by
  have hescapes : ∀ e, escapes e jumpInner = true → e = .again noIndex ∨ e = .leave noIndex := by
    intro e he
    simpa [jumpInner, escapes, labelRowsEscape, labelsEscape, rowsEscape, anyEscapes] using he
  have hloop : ClearAt jumpSetting (.stmt jumpLoop) := by
    intro e _ he
    rcases hescapes e he with rfl | rfl
    · exact ⟨rfl, rfl⟩
    · exact ⟨rfl, rfl⟩
  refine Stmt.each_forLoop.mpr ⟨hloop, Stmt.eachRow_none, ?_, ?_, ?_⟩
  · simp [jumpOp, ClearAt]
  · simp [jumpInner, jumpOp, ClearAt]
  · simp [jumpOp, ClearAt]

/-- The loop `for (;;) break 4096;` without an index of its own. -/
def numberedLoop : Stmt :=
  .forLoop { id := 4 } noIndex none .missing none (.branch { id := 5 } false 4096)

/-- The loop with the index 4096 around that loop and a return behind it. -/
def indexedLoop : Stmt :=
  .forLoop { id := 2 } 4096 none .missing none
    (.block { id := 3 } (some [numberedLoop, .ret { id := 6 } .missing]))

/-- The setting after the code of the loops is written: the inner one is given the number 4096. -/
def indexedSetting : Setting :=
  ⟨{ program := {}, arena := default, locals := some [] }, { next := 4097, chosen := [(4, 4096)] },
    ⟨{}, 0, fun _ => .error []⟩, ⟨some "$f", 1⟩⟩

theorem indexed_inside : Inside indexedSetting indexedLoop {} := by
  refine ⟨rfl, rfl, fun name h => ?_, ?_⟩
  · cases h
  intro m rows hmem
  have hall : ∀ l ∈ LabelTable.groupsOf (Node.all indexedLoop), l.length ≤ 2 ^ 32 := by decide
  exact hall _ (LabelTable.mem_groupsOf hmem)

/-- A loop whose body leaves it in its first round. -/
theorem ending_of_body {i : LoopIndex} {body : Machine → Ending → Machine → Prop} {after : Check}
    {e e₀ : Ending} {m m' : Machine} (hbody : ∀ m e m', body m e m' → e = e₀)
    (hround : e₀.endsRound i = false) (h : Loop i .none body after m e m') :
    e = if e₀.breaks i then .done .void else e₀ := by
  cases h with
  | stopBefore h | exitBefore h => cases h.1
  | break_ _ h hbreak =>
    rw [← hbody _ _ _ h, if_pos hbreak]
  | leave _ h _ hbreak =>
    rw [← hbody _ _ _ h, hbreak]
    rfl
  | stopAfter _ h hends _ | exitAfter _ h hends _ | again _ h hends _ _ =>
    rw [hbody _ _ _ h, hround] at hends
    cases hends

/-- The inner loop ends by the break of the outer one. -/
theorem eq_of_numberedLoop {v : Value} {m m' : Machine} {e : Ending}
    (h : behave indexedSetting.unnumbered numberedLoop v m e m') : e = .leave 4096 := by
  rcases h with ⟨u, m₁, -, hloop⟩ | ⟨⟨rfl, -⟩, hdone⟩
  · have hrounds := (loop_iff (checks_test .missing) (checks_effects [])).mp hloop
    exact ending_of_body (fun _ _ _ hbreak => hbreak.1) rfl hrounds
  · cases hdone

/-- The code of the loops. -/
def indexedForm : Form :=
  .list [.atom "loop", .atom (Name.loop 4096), .list [.atom "block", .atom (Name.continue_ 4096),
    .list [.atom "loop", .atom (Name.loop 4096), .list [.atom "block", .atom (Name.continue_ 4096),
      .words ["br", Name.loop 4096]]],
    .words ["return"]]]

end WastForge.Control
