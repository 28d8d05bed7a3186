import WastForge.Proofs.Branch.Nest
import WastForge.Proofs.Control.Statement

/-!
# Branches of statements

The branches in the code of a statement are, one by one and in order, the jumps of the statement,
and each goes to the place that its jump reaches.
-/

namespace WastForge.Control

open Emit

/-- The words that instructions of expressions may have. -/
abbrev IsOp (w : Bytes) : Prop := Token.isWord w ∧ w ∉ reserved

theorem run_bind {σ α β : Type} {x : StateM σ α} {f : α → StateM σ β} {n n₁ : σ} {a : α}
    (h : x.run n = (a, n₁)) : (x >>= f).run n = (f a).run n₁ := by
  show (f (x.run n).1).run (x.run n).2 = _
  rw [h]

/-- The branches of the lines go where the jumps reach that are met from the numbers `n` on. -/
def Lands (ks : List LabelKind) (jumps : StateM LoopNumbers (List Jump)) (n : LoopNumbers)
    (lines : List Line) (n' : LoopNumbers) : Prop :=
  ∃ js bs, jumps.run n = (js, n') ∧ Written (ks.map LabelKind.text) lines bs
    ∧ List.Forall₂ Branch.Reaches bs js

/-- The same for the arms of a switch. -/
def LandsArms (ks : List LabelKind) (jumps : StateM LoopNumbers (List Jump)) (n : LoopNumbers)
    (lines : List Line) (n' : LoopNumbers) : Prop :=
  ∃ js bs, jumps.run n = (js, n') ∧ WrittenArms (ks.map LabelKind.text) lines bs
    ∧ List.Forall₂ Branch.Reaches bs js

section

variable {ks : List LabelKind} {n n' n₁ : LoopNumbers} {lines more : List Line}
variable {jumps jumps' : StateM LoopNumbers (List Jump)}

/-- Code without branches. -/
theorem lands_of_written (h : Written (ks.map LabelKind.text) lines []) :
    Lands ks (pure []) n lines n :=
  ⟨[], [], rfl, h, .nil⟩

theorem Lands.append (h : Lands ks jumps n lines n₁) (h' : Lands ks jumps' n₁ more n') :
    Lands ks (do return (← jumps) ++ (← jumps')) n (lines ++ more) n' := by
  obtain ⟨js, bs, hrun, hwritten, hhits⟩ := h
  obtain ⟨js', bs', hrun', hwritten', hhits'⟩ := h'
  refine ⟨js ++ js', bs ++ bs', ?_, hwritten.append hwritten', List.rel_append hhits hhits'⟩
  rw [run_bind hrun, run_bind hrun']
  rfl

theorem Lands.map (h : Lands ks jumps n lines n') {ks' : List LabelKind} {lines' : List Line}
    (hlines : ∀ bs, Written (ks.map LabelKind.text) lines bs →
      Written (ks'.map LabelKind.text) lines' bs) : Lands ks' jumps n lines' n' := by
  obtain ⟨js, bs, hrun, hwritten, hhits⟩ := h
  exact ⟨js, bs, hrun, hlines bs hwritten, hhits⟩

end

theorem pick_of_emits {m : Mark} {own i : LoopIndex} {n n' : LoopNumbers}
    (h : Emits (indexOf m own) n i n') :
    (Stmt.pick m own).run n = (i, n') ∧ (own.isValid = true → i = own) := by
  refine ⟨?_, (emits_indexOf h).2.1⟩
  show (if own.isValid then (own, n) else _) = (i, n')
  unfold indexOf at h
  cases hvalid : own.isValid with
  | true =>
    rw [hvalid] at h
    obtain ⟨rfl, rfl⟩ := emits_pure h
    rfl
  | false =>
    rw [hvalid, if_neg Bool.false_ne_true] at h
    obtain ⟨numbers, n₁, hget, hgo⟩ := emits_bind h
    obtain ⟨hnumbers, hn₁⟩ : numbers = n ∧ n₁ = n := emits_pure hget
    subst hn₁
    subst hnumbers
    cases hchosen : numbers.chosen.lookup m.id with
    | some j =>
      rw [hchosen] at hgo
      obtain ⟨rfl, rfl⟩ := emits_pure hgo
      simp
    | none =>
      rw [hchosen] at hgo
      obtain ⟨_, n₂, hset, hpure⟩ := emits_bind hgo
      obtain ⟨rfl, rfl⟩ := emits_pure hpure
      obtain rfl : n' = { next := numbers.next + 1
                          chosen := (m.id, numbers.next) :: numbers.chosen } :=
        (Prod.mk.inj (Work.comes_pure hset)).2
      simp

variable {env : Env} {root : Stmt} {labels : LabelTable}

/-- The code of an expression, which is the same whenever it is written. -/
theorem plain_of_comes {want : Bool} {e : Expr} {x : Option Form}
    (he : Expr.Each (Node.Names IsOp) e) (hx : Work.Comes (expr env want e) x) :
    (expr env want e).result? = some x ∧ ∀ f, x = some f → f.Plain :=
  hx.result? ((FormClass.plain env).makes_expr want e he)

theorem written_effects {l : List Expr} {lines : List Line} {around : List Bytes}
    (hl : ∀ e ∈ l, Expr.Each (Node.Names IsOp) e) (hlines : Work.Comes (effects env l) lines) :
    Written around lines [] := by
  induction l generalizing lines with
  | nil =>
    obtain rfl := Work.comes_pure hlines
    exact .nil
  | cons e rest ih =>
    rw [List.forall_mem_cons] at hl
    unfold effects at hlines
    obtain ⟨_, -, hlines⟩ := Work.comes_bind hlines
    obtain ⟨x, hx, hlines⟩ := Work.comes_bind hlines
    obtain ⟨xs, hxs, hlines⟩ := Work.comes_bind hlines
    obtain rfl := Work.comes_pure hlines
    cases x with
    | none => exact ih hl.2 hxs
    | some f => exact (Written.of_plain ((plain_of_comes hl.1 hx).2 f rfl)).append (ih hl.2 hxs)

theorem written_varInits {l : List VarInit} {lines : List Line} {around : List Bytes}
    (hl : ∀ v ∈ l, Expr.Each (Node.Names IsOp) v.init)
    (hlines : Work.Comes (varInits env l) lines) : Written around lines [] := by
  induction l generalizing lines with
  | nil =>
    obtain rfl := Work.comes_pure hlines
    exact .nil
  | cons v rest ih =>
    rw [List.forall_mem_cons] at hl
    unfold varInits at hlines
    split at hlines
    · exact ih hl.2 hlines
    · obtain ⟨x, hx, hlines⟩ := Work.comes_bind hlines
      simp only at hlines
      obtain ⟨stored, hstored, hlines⟩ := Work.comes_bind hlines
      obtain ⟨xs, hxs, hlines⟩ := Work.comes_bind hlines
      obtain rfl := Work.comes_pure hlines
      have hvalue : (FormClass.plain env).Part x := (plain_of_comes hl.1 hx).2
      have hplain := (hstored.result? ((FormClass.plain env).makes_store
        (FormClass.settable_variable _ trivial) hvalue)).2
      exact (Written.of_plain hplain).append (ih hl.2 hxs)

/-- Where code is written: the labels of the body are in the table, and the body names only
instructions. -/
structure Hosted (root : Stmt) (labels : LabelTable) : Prop where
  table : LabelTable.ofBody root = .ok labels
  names : ∀ x ∈ Node.all root, x.Names IsOp

section

variable (h : Hosted root labels)

include h

theorem Hosted.each {e : Expr} (he : Expr.Each (· ∈ Node.all root) e) :
    Expr.Each (Node.Names IsOp) e :=
  fun x hx => h.names x (he x hx)

theorem Hosted.plain {want : Bool} {e : Expr} {x : Option Form}
    (he : Expr.Each (· ∈ Node.all root) e) (hx : Work.Comes (expr env want e) x) :
    ∀ f, x = some f → f.Plain :=
  (plain_of_comes (h.each he) hx).2

variable {ks : List LabelKind} {n : LoopNumbers}

/-- A loop leaves itself when its condition is false. -/
theorem Hosted.lands_guard {cond : Expr} {own i : LoopIndex} {lines : List Line} {nest : Nest}
    {ss : List Slot} (haround : Around labels nest ss ks)
    (hcond : Expr.Each (· ∈ Node.all root) cond)
    (hlines : Work.Comes (Emit.guard env cond i) lines) :
    Lands (.loop i :: ks) (pure (Stmt.exits ss own i cond)) n lines n := by
  unfold Emit.guard at hlines
  unfold Stmt.exits
  cases hmissing : cond.isMissing with
  | true =>
    rw [hmissing, if_pos rfl] at hlines
    obtain rfl := Work.comes_pure hlines
    exact lands_of_written .nil
  | false =>
    rw [hmissing, if_neg Bool.false_ne_true] at hlines
    obtain ⟨c, hc, hlines⟩ := Work.comes_bind hlines
    obtain rfl := Work.comes_pure hlines
    refine ⟨_, _, rfl, .exit (h.plain hcond hc) List.mem_cons_self
      (LabelKind.loop i).isWord_text, .cons ⟨?_, ?_, rfl⟩ .nil⟩
    · exact .cons rfl (isLabel_of_stands haround.stands)
    · show ((LabelKind.loop i :: ks).map LabelKind.text).idxOf? (LabelKind.loop i).text = some 0
      rw [List.map_cons, List.idxOf?_cons, beq_self_eq_true, if_pos rfl]

end

theorem lands_goto {ks : List LabelKind} {n : LoopNumbers} {nest : Nest} {ss : List Slot}
    {span : Span} {label : Bytes} {lines : List Line} (haround : Around labels nest ss ks)
    (hlines : Work.Comes (gotoLine labels nest span label) lines) :
    Lands ks (pure [{ around := ss, target := ss.findIdx? (·.declares label) }]) n lines n := by
  unfold gotoLine at hlines
  cases hplace : labels.place? label with
  | none =>
    rw [hplace] at hlines
    exact absurd hlines Work.not_comes_problem
  | some place =>
    rw [hplace] at hlines
    simp only at hlines
    split at hlines
    · rename_i hmem
      obtain rfl := Work.comes_pure hlines
      have hfound := found_goto haround hplace hmem
      exact ⟨_, _, rfl, .goto (List.mem_map_of_mem hfound.mem),
        .cons (reaches_of_only haround hfound) .nil⟩
    · exact absurd hlines Work.not_comes_problem

theorem lands_branch {ks : List LabelKind} {n : LoopNumbers} {nest : Nest} {ss : List Slot}
    {span : Span} {isContinue : Bool} {target : LoopIndex} {lines : List Line}
    (haround : Around labels nest ss ks)
    (hlines : Work.Comes (branchLine nest span isContinue target) lines) :
    Lands ks (pure [⟨ss, ss.findIdx? (·.isLeft isContinue target),
      ss.findIdx? (·.passesFor isContinue target)⟩]) n lines n := by
  have hgo : ∀ {isContinue : Bool} {k : LabelKind},
      Found labels ss ks (Slot.isNamed isContinue target) k →
      Lands ks (pure [⟨ss, ss.findIdx? (·.isLeft isContinue target),
        ss.findIdx? (·.passesFor isContinue target)⟩]) n [.form (.words ["br", k.text])] n :=
    fun {_ k} hfound => ⟨_, _, rfl, .br (List.mem_map_of_mem hfound.mem) k.isWord_text,
      .cons (reaches_of_found haround hfound) .nil⟩
  unfold branchLine at hlines
  simp only at hlines
  cases isContinue with
  | true =>
    rw [if_pos rfl] at hlines
    cases hlabel : nest.continueLabel? target with
    | none =>
      rw [hlabel] at hlines
      exact absurd hlines Work.not_comes_problem
    | some l =>
      rw [hlabel] at hlines
      obtain rfl := Work.comes_pure hlines
      obtain ⟨k, rfl, hfound⟩ := found_continue haround hlabel
      exact hgo hfound
  | false =>
    rw [if_neg Bool.false_ne_true] at hlines
    cases hlabel : nest.breakLabel? target with
    | none =>
      rw [hlabel] at hlines
      exact absurd hlines Work.not_comes_problem
    | some l =>
      rw [hlabel] at hlines
      obtain rfl := Work.comes_pure hlines
      obtain ⟨k, rfl, hfound⟩ := found_break haround hlabel
      exact hgo hfound

theorem isOp_untranslatable (kind : UInt8) : IsOp ("untranslatable." ++ Stmt.kindName kind) := by
  have hnames : ∀ name ∈ (["Block", "ExprStmt", "If", "ForLoop", "WhileLoop", "DoLoop",
      "LabelGroup", "Goto", "Break", "Continue", "Return", "Switch", "VariableDeclaration",
      "Unknown"] : List Bytes), IsOp ("untranslatable." ++ name) := by
    decide
  refine hnames _ ?_
  unfold Stmt.kindName
  split <;> decide

theorem isWord_caseValues {l : List Expr} {texts : List Bytes}
    (htexts : Work.Comes (caseValues l) texts) :
    (∀ v ∈ texts, Token.isWord v) ∧ (l ≠ [] → texts ≠ []) := by
  induction l generalizing texts with
  | nil =>
    obtain rfl := Work.comes_pure htexts
    exact ⟨List.forall_mem_nil _, fun h => absurd rfl h⟩
  | cons e rest ih =>
    unfold caseValues at htexts
    split at htexts
    · obtain ⟨_, -, htexts⟩ := Work.comes_bind htexts
      exact absurd htexts Work.not_comes_problem
    · obtain ⟨more, hmore, htexts⟩ := Work.comes_bind htexts
      obtain rfl := Work.comes_pure htexts
      refine ⟨?_, fun _ => List.cons_ne_nil _ _⟩
      rw [List.forall_mem_cons]
      exact ⟨Token.isWord_ofInt _, (ih hmore).1⟩

/-- The innermost construct around is the label group with this number. -/
def Innermost (labels : LabelTable) (g : Nat) (ss : List Slot) (ks : List LabelKind) : Prop :=
  ∃ l ss' ks', labels.Numbers g l ∧ ss = .section_ (l.map Label.name) :: ss'
    ∧ ks = .dispatch g :: ks'

mutual

/-- The branches in the code of a statement go where its jumps reach. -/
theorem lands_stmt (h : Hosted root labels) (nest : Nest) (shape : Shape) :
    ∀ (s : Stmt) {ss : List Slot} {ks : List LabelKind} {n n' : LoopNumbers} {lines : List Line},
      Stmt.Each (· ∈ Node.all root) s → Around labels nest ss ks →
      Emits (stmt env labels nest shape s) n lines n' → Lands ks (s.jumps ss) n lines n'
  | .missing, ss, ks, n, n', lines, _, _, he => by
    obtain ⟨rfl, rfl⟩ := emits_pure he
    exact lands_of_written (.nothing shape)
  | .block m rows, ss, ks, n, n', lines, hs, ha, he =>
    lands_blockRows h nest shape rows (Stmt.each_block.mp hs).2 ha he
  | .expr m e, ss, ks, n, n', lines, hs, _, he => by
    obtain ⟨rfl, x, hx, rfl⟩ := emits_expr he
    cases x with
    | none => exact lands_of_written (.nothing shape)
    | some f => exact lands_of_written (.of_plain (h.plain (Stmt.each_expr.mp hs).2 hx f rfl))
  | .ite m cond yes no, ss, ks, n, n', lines, hs, ha, he => by
    obtain ⟨_, hcond, hyes, hno⟩ := Stmt.each_ite.mp hs
    obtain ⟨x, ys, n₁, zs, hx, hys, hzs, rfl⟩ := emits_ite he
    have hfirst := lands_stmt h nest .arm yes hyes ha hys
    have hsecond : Lands ks (no.jumps ss) n₁ zs n' := by
      rcases hzs with ⟨hmissing, rfl, rfl⟩ | ⟨-, hzs⟩
      · have hnone : no.jumps ss = pure [] := by
          cases no <;> first | rfl | cases hmissing
        rw [hnone]
        exact lands_of_written .nil
      · exact lands_stmt h nest .arm no hno ha hzs
    exact (hfirst.append hsecond).map fun bs hbs => .ite (h.plain hcond hx) hbs
  | .forLoop m own init cond post body, ss, ks, n, n', lines, hs, ha, he => by
    obtain ⟨_, hinit, hcond, hbody, hpost⟩ := Stmt.each_forLoop.mp hs
    obtain ⟨init', n₁, i, n₂, test, body', post', hinit', hi, htest, hbody', hpost', rfl⟩ :=
      emits_forLoop he
    obtain ⟨hpick, hown⟩ := pick_of_emits hi
    obtain ⟨js₁, bs₁, hrun₁, hwritten₁, hhits₁⟩ := lands_stmtRows h nest init hinit ha hinit'
    obtain ⟨js₂, bs₂, hrun₂, hwritten₂, hhits₂⟩ := h.lands_guard ha hcond htest (n := n₂)
    obtain ⟨js₃, bs₃, hrun₃, hwritten₃, hhits₃⟩ :=
      lands_stmt h _ .body body hbody (.loop hown ha) hbody'
    have hafter : Written ((LabelKind.loop i :: ks).map LabelKind.text) post' [] :=
      written_effects (fun e he => h.each (Expr.eachRow_iff.mp hpost e he)) hpost'
    have hloop := Written.loop hwritten₂ hwritten₃ hafter
    obtain ⟨rfl, _⟩ := Prod.mk.inj hrun₂
    refine ⟨js₁ ++ (Stmt.exits ss own i cond ++ js₃), bs₁ ++ (bs₂ ++ bs₃ ++ []), ?_,
      (hwritten₁.append hloop).several, ?_⟩
    · unfold Stmt.jumps
      rw [run_bind hrun₁, run_bind hpick, run_bind hrun₃]
      rfl
    · rw [List.append_nil]
      exact List.rel_append hhits₁ (List.rel_append hhits₂ hhits₃)
  | .whileLoop m testLast own cond body, ss, ks, n, n', lines, hs, ha, he => by
    obtain ⟨_, hcond, hbody⟩ := Stmt.each_whileLoop.mp hs
    obtain ⟨i, n₁, test, body', hi, htest, hbody', rfl⟩ := emits_whileLoop he
    obtain ⟨hpick, hown⟩ := pick_of_emits hi
    have hempty : Written ((LabelKind.loop i :: ks).map LabelKind.text) [] [] := .nil
    obtain ⟨js₂, bs₂, hrun₂, hwritten₂, hhits₂⟩ := h.lands_guard ha hcond htest (n := n₁)
    obtain ⟨js₃, bs₃, hrun₃, hwritten₃, hhits₃⟩ :=
      lands_stmt h _ .body body hbody (.loop hown ha) hbody'
    obtain ⟨rfl, _⟩ := Prod.mk.inj hrun₂
    cases testLast with
    | true =>
      refine ⟨js₃ ++ Stmt.exits ss own i cond, [] ++ bs₃ ++ bs₂, ?_,
        Written.loop hempty hwritten₃ hwritten₂, List.rel_append hhits₃ hhits₂⟩
      unfold Stmt.jumps
      rw [run_bind hpick, run_bind hrun₃]
      rfl
    | false =>
      have hloop := Written.loop hwritten₂ hwritten₃ hempty
      rw [List.append_nil, List.append_nil] at hloop
      refine ⟨Stmt.exits ss own i cond ++ js₃, bs₂ ++ bs₃, ?_, hloop, List.rel_append hhits₂ hhits₃⟩
      unfold Stmt.jumps
      rw [run_bind hpick, run_bind hrun₃]
      rfl
  | .labelGroup m rows, ss, ks, n, n', lines, hs, ha, he => by
    obtain ⟨hmem, hrows⟩ := Stmt.each_labelGroup.mp hs
    obtain ⟨g, -, ⟨hnil, rfl, rfl⟩ | ⟨hne, hchecked, sections, hsections, rfl⟩⟩ :=
      emits_labelGroup he
    · unfold Stmt.jumps
      rw [hnil]
      exact lands_of_written Written.nil.several
    · have hnumbers := LabelTable.numbers_of_checkLabels h.table hmem hne hchecked
      have hinner := Around.group hnumbers ha
      obtain ⟨js, bs, hrun, hwritten, hhits⟩ :=
        lands_sectionRows h (nest.withinGroup g) g rows hrows hinner
          ⟨_, _, _, hnumbers, rfl, rfl⟩ hsections
      refine ⟨js ++ [{ around := _, target := some 1 }], _, ?_, hwritten.group_.several,
        List.rel_append hhits (.cons ⟨isLabel_of_stands hinner.stands, ?_, rfl⟩ .nil)⟩
      · unfold Stmt.jumps
        rw [List.isEmpty_eq_false_iff.mpr hne, if_neg Bool.false_ne_true, run_bind hrun]
        rfl
      · show ((LabelKind.dispatch g :: LabelKind.group g :: ks).map LabelKind.text).idxOf?
          (LabelKind.group g).text = some 1
        simp [List.idxOf?_cons]
  | .goto m label, ss, ks, n, n', lines, _, ha, he => by
    obtain ⟨hlines, rfl⟩ := emits_work he
    exact lands_goto ha hlines
  | .branch m isContinue target, ss, ks, n, n', lines, _, ha, he => by
    obtain ⟨hlines, rfl⟩ := emits_work he
    exact lands_branch ha hlines
  | .ret m value, ss, ks, n, n', lines, hs, _, he => by
    obtain ⟨rfl, ⟨-, rfl⟩ | ⟨-, x, hx, rfl⟩⟩ := emits_ret he
    · split
      · exact lands_of_written .nil
      · exact lands_of_written (.of_plain (Form.plain_word (by decide) (by decide)))
    · have hvalue := h.plain (Stmt.each_ret.mp hs).2 hx
      refine lands_of_written (.of_plain ?_)
      exact (FormClass.plain env).app_one ⟨by decide, by decide⟩ hvalue
  | .switch m own key cases, ss, ks, n, n', lines, hs, ha, he => by
    obtain ⟨_, hkey, hcases⟩ := Stmt.each_switch.mp hs
    obtain ⟨x, kw, i, n₁, named, n₂, default, hx, -, hi, hnamed, hdefault, rfl⟩ := emits_switch he
    obtain ⟨hpick, hown⟩ := pick_of_emits hi
    obtain ⟨js₁, bs₁, hrun₁, hwritten₁, hhits₁⟩ :=
      lands_caseRows h _ m.span false cases hcases (.switch hown ha) hnamed
    obtain ⟨js₂, bs₂, hrun₂, hwritten₂, hhits₂⟩ :=
      lands_caseRows h _ m.span true cases hcases (.switch hown ha) hdefault
    have hswitch := Written.switch kw (h.plain hkey hx) (hwritten₁.append hwritten₂)
    refine ⟨js₁ ++ js₂, bs₁ ++ bs₂, ?_, .labelled (.inl rfl) (LabelKind.switch i).isLabel_text
      (LabelKind.switch i).isWord_text hswitch, List.rel_append hhits₁ hhits₂⟩
    unfold Stmt.jumps
    rw [run_bind hpick, run_bind hrun₁, run_bind hrun₂]
    rfl
  | .varDecl m vars, ss, ks, n, n', lines, hs, _, he => by
    obtain ⟨rfl, inits, hinits, rfl⟩ := emits_varDecl he
    have hvars := (Stmt.each_varDecl.mp hs).2
    exact lands_of_written (written_varInits (fun v hv => h.each (hvars v hv)) hinits).several
  | .bare m kind, ss, ks, n, n', lines, _, _, he => by
    obtain ⟨rfl, rfl⟩ := emits_bare he
    have hop := isOp_untranslatable kind
    exact lands_of_written (.of_plain (Form.plain_word hop.1 hop.2))

theorem lands_blockRows (h : Hosted root labels) (nest : Nest) (shape : Shape) :
    ∀ (rows : Option (List Stmt)) {ss : List Slot} {ks : List LabelKind} {n n' : LoopNumbers}
      {lines : List Line}, Stmt.EachRow (· ∈ Node.all root) rows → Around labels nest ss ks →
      Emits (blockRows env labels nest shape rows) n lines n' →
      Lands ks (Stmt.jumpsRows ss rows) n lines n'
  | none, ss, ks, n, n', lines, _, _, he => by
    obtain ⟨rfl, rfl⟩ := emits_pure he
    exact lands_of_written (Written.nil.ofBlock fun _ => rfl)
  | some l, ss, ks, n, n', lines, hs, ha, he => lands_blockItems h nest shape l hs ha he

theorem lands_blockItems (h : Hosted root labels) (nest : Nest) (shape : Shape) :
    ∀ (l : List Stmt) {ss : List Slot} {ks : List LabelKind} {n n' : LoopNumbers}
      {lines : List Line}, Stmt.EachOf (· ∈ Node.all root) l → Around labels nest ss ks →
      Emits (blockItems env labels nest shape l) n lines n' →
      Lands ks (Stmt.jumpsAll ss l) n lines n'
  | [], ss, ks, n, n', lines, _, _, he => by
    obtain ⟨rfl, rfl⟩ := emits_pure he
    exact lands_of_written (Written.nil.ofBlock fun _ => rfl)
  | s :: rest, ss, ks, n, n', lines, hs, ha, he => by
    obtain ⟨hfirst, hrest⟩ := Stmt.eachOf_cons.mp hs
    rcases emits_blockItems he with ⟨hcollapse, he⟩ | ⟨-, first, n₁, more, hfirst', hmore, rfl⟩
    · obtain ⟨js, bs, hrun, hwritten, hhits⟩ := lands_stmt h nest shape s hfirst ha he
      obtain rfl : rest = [] := List.isEmpty_iff.mp (Bool.and_eq_true_iff.mp hcollapse).1
      refine ⟨js ++ [], bs, ?_, hwritten, ?_⟩
      · unfold Stmt.jumpsAll
        rw [run_bind hrun]
        rfl
      · rw [List.append_nil]
        exact hhits
    · exact ((lands_stmt h nest .plain s hfirst ha hfirst').append
        (lands_stmts h nest rest hrest ha hmore)).map fun bs hbs =>
          hbs.ofBlock fun hfalse => by cases hfalse

theorem lands_stmtRows (h : Hosted root labels) (nest : Nest) :
    ∀ (rows : Option (List Stmt)) {ss : List Slot} {ks : List LabelKind} {n n' : LoopNumbers}
      {lines : List Line}, Stmt.EachRow (· ∈ Node.all root) rows → Around labels nest ss ks →
      Emits (stmtRows env labels nest rows) n lines n' →
      Lands ks (Stmt.jumpsRows ss rows) n lines n'
  | none, ss, ks, n, n', lines, _, _, he => by
    obtain ⟨rfl, rfl⟩ := emits_pure he
    exact lands_of_written .nil
  | some l, ss, ks, n, n', lines, hs, ha, he => lands_stmts h nest l hs ha he

theorem lands_stmts (h : Hosted root labels) (nest : Nest) :
    ∀ (l : List Stmt) {ss : List Slot} {ks : List LabelKind} {n n' : LoopNumbers}
      {lines : List Line}, Stmt.EachOf (· ∈ Node.all root) l → Around labels nest ss ks →
      Emits (stmts env labels nest l) n lines n' → Lands ks (Stmt.jumpsAll ss l) n lines n'
  | [], ss, ks, n, n', lines, _, _, he => by
    obtain ⟨rfl, rfl⟩ := emits_pure he
    exact lands_of_written .nil
  | s :: rest, ss, ks, n, n', lines, hs, ha, he => by
    obtain ⟨hfirst, hrest⟩ := Stmt.eachOf_cons.mp hs
    obtain ⟨first, n₁, more, hfirst', hmore, rfl⟩ := emits_stmts he
    exact (lands_stmt h nest .plain s hfirst ha hfirst').append
      (lands_stmts h nest rest hrest ha hmore)

theorem lands_sectionRows (h : Hosted root labels) (nest : Nest) (g : Nat) :
    ∀ (rows : Option (List Label)) {ss : List Slot} {ks : List LabelKind} {n n' : LoopNumbers}
      {lines : List Line}, Label.EachRow (· ∈ Node.all root) rows → Around labels nest ss ks →
      Innermost labels g ss ks → Emits (sectionRows env labels nest g rows) n lines n' →
      Lands ks (Stmt.jumpsLabelRows ss rows) n lines n'
  | none, ss, ks, n, n', lines, _, _, _, he => by
    obtain ⟨rfl, rfl⟩ := emits_pure he
    exact lands_of_written .nil
  | some l, ss, ks, n, n', lines, hs, ha, hg, he => lands_sections h nest g 0 l hs ha hg he

theorem lands_sections (h : Hosted root labels) (nest : Nest) (g index : Nat) :
    ∀ (l : List Label) {ss : List Slot} {ks : List LabelKind} {n n' : LoopNumbers}
      {lines : List Line}, Label.EachOf (· ∈ Node.all root) l → Around labels nest ss ks →
      Innermost labels g ss ks → Emits (sections env labels nest g index l) n lines n' →
      Lands ks (Stmt.jumpsLabels ss l) n lines n'
  | [], ss, ks, n, n', lines, _, _, _, he => by
    obtain ⟨rfl, rfl⟩ := emits_pure he
    exact lands_of_written .nil
  | .mk name body :: rest, ss, ks, n, n', lines, hs, ha, hg, he => by
    obtain ⟨hbody, hrest⟩ := Stmt.eachLabel_cons.mp hs
    obtain ⟨first, n₁, more, hfirst, hmore, rfl⟩ := emits_sections he
    obtain ⟨js₁, bs₁, hrun₁, hwritten₁, hhits₁⟩ := lands_stmtRows h nest body hbody ha hfirst
    obtain ⟨js₂, bs₂, hrun₂, hwritten₂, hhits₂⟩ :=
      lands_sections h nest g (index + 1) rest hrest ha hg hmore
    obtain ⟨l, ss', ks', _, rfl, rfl⟩ := hg
    unfold Stmt.jumpsLabels
    cases hfalls : rest.isEmpty || Stmt.rowsTerminal body with
    | true =>
      refine ⟨js₁ ++ [] ++ js₂, bs₁ ++ [] ++ bs₂, ?_,
        ((hwritten₁.append .nil).section_ ⟨g, index⟩).append hwritten₂, ?_⟩
      · rw [run_bind hrun₁, run_bind hrun₂]
        rfl
      · exact List.rel_append (List.rel_append hhits₁ .nil) hhits₂
    | false =>
      have hgoto : Written ((LabelKind.dispatch g :: ks').map LabelKind.text)
          [.form (gotoForm ⟨g, index + 1⟩)] _ := .goto List.mem_cons_self
      refine ⟨js₁ ++ [{ around := .section_ (l.map Label.name) :: ss', target := some 0 }] ++ js₂,
        bs₁ ++ [_] ++ bs₂, ?_,
        ((hwritten₁.append hgoto).section_ ⟨g, index⟩).append hwritten₂, ?_⟩
      · rw [run_bind hrun₁, run_bind hrun₂]
        rfl
      · refine List.rel_append (List.rel_append hhits₁
          (.cons ⟨isLabel_of_stands ha.stands, ?_, rfl⟩ .nil)) hhits₂
        show ((LabelKind.dispatch g :: ks').map LabelKind.text).idxOf?
          (LabelKind.dispatch g).text = some 0
        simp [List.idxOf?_cons]

theorem lands_caseRows (h : Hosted root labels) (nest : Nest) (span : Span) (wanted : Bool) :
    ∀ (rows : Option (List Case)) {ss : List Slot} {ks : List LabelKind} {n n' : LoopNumbers}
      {lines : List Line}, Case.EachRow (· ∈ Node.all root) rows → Around labels nest ss ks →
      Emits (caseRows env labels nest span wanted rows) n lines n' →
      LandsArms ks (Stmt.jumpsCaseRows ss wanted rows) n lines n'
  | none, ss, ks, n, n', lines, _, _, he => by
    obtain ⟨rfl, rfl⟩ := emits_pure he
    exact ⟨[], [], rfl, .nil, .nil⟩
  | some l, ss, ks, n, n', lines, hs, ha, he => lands_cases h nest span wanted l hs ha he

theorem lands_cases (h : Hosted root labels) (nest : Nest) (span : Span) (wanted : Bool) :
    ∀ (l : List Case) {ss : List Slot} {ks : List LabelKind} {n n' : LoopNumbers}
      {lines : List Line}, Case.EachOf (· ∈ Node.all root) l → Around labels nest ss ks →
      Emits (cases env labels nest span wanted l) n lines n' →
      LandsArms ks (Stmt.jumpsCases ss wanted l) n lines n'
  | [], ss, ks, n, n', lines, _, _, he => by
    obtain ⟨rfl, rfl⟩ := emits_pure he
    exact ⟨[], [], rfl, .nil, .nil⟩
  | .mk values isDefault body :: rest, ss, ks, n, n', lines, hs, ha, he => by
    obtain ⟨_, hbody, hrest⟩ := Stmt.eachCase_cons.mp hs
    unfold Stmt.jumpsCases
    rcases emits_cases he with ⟨hwanted, he⟩ | ⟨hwanted, hvalues, texts, first, n₁, more, htexts,
      hfirst, hmore, rfl⟩
    · obtain ⟨js, bs, hrun, hwritten, hhits⟩ := lands_cases h nest span wanted rest hrest ha he
      refine ⟨[] ++ js, bs, ?_, hwritten, hhits⟩
      rw [hwanted, if_neg Bool.false_ne_true, pure_bind, run_bind hrun]
      rfl
    · obtain ⟨js₁, bs₁, hrun₁, hwritten₁, hhits₁⟩ := lands_stmtRows h nest body hbody ha hfirst
      obtain ⟨js₂, bs₂, hrun₂, hwritten₂, hhits₂⟩ :=
        lands_cases h nest span wanted rest hrest ha hmore
      obtain ⟨hwords, hsome⟩ := isWord_caseValues htexts
      refine ⟨js₁ ++ js₂, bs₁ ++ bs₂, ?_, (WrittenArms.caseLines hwords
        (fun hdefault => hsome (hvalues hdefault)) hwritten₁).append hwritten₂,
        List.rel_append hhits₁ hhits₂⟩
      rw [hwanted, if_pos rfl, run_bind hrun₁, run_bind hrun₂]
      rfl

end

end WastForge.Control
