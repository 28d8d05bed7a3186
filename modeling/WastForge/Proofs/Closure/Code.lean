import WastForge.Proofs.Closure.Run
import WastForge.Proofs.Emit.ExprCode
import WastForge.Proofs.Emit.Items
import WastForge.Proofs.Program.Each

/-!
# What code refers to

The code of expressions calls functions that a lookup finds, the accessors of strings, and functions
from outside, and names the locals that its environment declares. So whatever holds of these names
holds of all names in the code of statements, to which only the locals of label groups are added.
-/

namespace WastForge

open Emit

namespace Form

/-- All names that the form refers to have the property. -/
def Refers (P : Reference → Prop) (f : Form) : Prop := ∀ r ∈ f.references, P r

variable {P : Reference → Prop} {fs : List Form} {w : Bytes}

theorem refers_atom (w : Bytes) : Refers P (.atom w) := List.forall_mem_nil _

theorem refers_text (t : Bytes) : Refers P (.text t) := List.forall_mem_nil _

theorem forall_referencesAll : (∀ r ∈ referencesAll fs, P r) ↔ ∀ f ∈ fs, f.Refers P := by
  simp only [mem_referencesAll, Refers]
  exact ⟨fun h f hf r hr => h r ⟨f, hf, hr⟩, fun h r ⟨f, hf, hr⟩ => h f hf r hr⟩

theorem named_eq_nil (h : w ∉ naming) (target : Bytes) (n : Nat) : named w target n = [] := by
  simp only [naming, List.mem_cons, List.not_mem_nil, or_false, not_or] at h
  unfold named
  rw [if_neg h.1, if_neg h.2.1, if_neg (not_or.mpr h.2.2)]

/-- An instruction that names nothing refers to what its operands refer to. -/
theorem refers_list (hw : w ∉ naming) (h : ∀ f ∈ fs, f.Refers P) :
    Refers P (.list (.atom w :: fs)) := by
  intro r hr
  rcases List.mem_append.mp hr with hr | hr
  · cases fs with
    | nil => cases hr
    | cons target rest =>
      rw [namedIn, word, named_eq_nil hw] at hr
      cases hr
  · exact forall_referencesAll.mpr h r hr

/-- An instruction with a name refers to it, and to what the operands behind it refer to. -/
theorem refers_named {target : Bytes} (hname : ∀ r ∈ named w target fs.length, P r)
    (h : ∀ f ∈ fs, f.Refers P) : Refers P (.list (.atom w :: .atom target :: fs)) := by
  intro r hr
  rcases List.mem_append.mp hr with hr | hr
  · exact hname r hr
  · exact forall_referencesAll.mpr h r hr

theorem refers_words {l : List Bytes} (hw : w ∉ naming) : Refers P (.words (w :: l)) := by
  refine refers_list hw fun f hf => ?_
  obtain ⟨x, _, rfl⟩ := List.mem_map.mp hf
  exact refers_atom x

end Form

namespace Emit

open Form

/-- What code may refer to where it is written. -/
structure Env.Allows (env : Env) (P : Reference → Prop) : Prop where
  callee : ∀ ref params b, callee? env ref params = some b → b.id ∉ env.skipped →
    env.entry ≠ some b.id → P (.func (Name.func b.func.ref))
  string : ∀ content slot, env.arena.string? content = some slot →
    P (.func (Name.stringFirst slot.offset))
  local_ : ∀ name, env.Declares name → P (.local_ (Name.local_ name))

end Emit

/-- The names that the node brings into the code have the property. -/
def Node.Refers (P : Reference → Prop) : Node → Prop
  | .expr (.intrinsic _ w _) => w ∉ naming
  | .expr (.harnessCall _ op rows) =>
    ∀ args, Fills rows args → P (.import_ ("$" ++ op.importName) (args.filterMap id).length)
  | .expr (.stringLength _ _) => P (.func Name.stringLength)
  | _ => True

namespace Emit

open Form Work

variable {env : Env} {P : Reference → Prop}

/-- The class of the code that refers only to names with the property. -/
def FormClass.referring (h : env.Allows P) : FormClass env where
  holds := Refers P
  op w := w ∉ naming
  word _ := True
  target name := P (.func name)
  named _ := True
  node := Node.Refers P
  op_isWord w _ hw hmem := hw (List.mem_append_right _ hmem)
  op_intrinsic _ _ _ h := h
  target_callee := h.callee
  target_string := h.string
  target_length _ _ h := h
  named_variable _ _ _ _ := trivial
  word_isWord _ _ := trivial
  word_float _ _ := trivial
  app w args hw hargs := refers_list hw fun f hf => by
    obtain ⟨x, hx, rfl⟩ := List.mem_filterMap.mp hf
    exact hargs f hx
  const kw n _ := by
    cases kw <;> exact refers_words (by decide)
  call name args _ htarget hargs := by
    refine refers_named (fun r hr => ?_) fun f hf => ?_
    · obtain rfl := List.mem_singleton.mp hr
      exact htarget
    · obtain ⟨x, hx, rfl⟩ := List.mem_filterMap.mp hf
      exact hargs f hx
  callImport a op rows args hnode _ hfills hargs := by
    refine refers_named (fun r hr => ?_) fun f hf => ?_
    · obtain rfl := List.mem_singleton.mp hr
      exact hnode args hfills
    · obtain ⟨x, hx, rfl⟩ := List.mem_filterMap.mp hf
      exact hargs f hx
  getLocal name hname _ := by
    refine refers_named (fun r hr => ?_) (List.forall_mem_nil _)
    obtain rfl := List.mem_singleton.mp hr
    exact h.local_ name hname
  setLocal name value hname _ hvalue := by
    refine refers_named (fun r hr => ?_) fun f hf => ?_
    · obtain rfl := List.mem_singleton.mp hr
      exact h.local_ name hname
    · obtain ⟨x, hx, rfl⟩ := List.mem_filterMap.mp hf
      exact hvalue f (List.mem_singleton.mp hx).symm
  invoke name args hargs := by
    refine refers_list (by decide) fun f hf => ?_
    rcases List.mem_cons.mp hf with rfl | hf
    · exact refers_text name
    · obtain ⟨x, hx, rfl⟩ := List.mem_filterMap.mp hf
      exact hargs f hx
  assertHeap n t _ := by
    refine refers_list (by decide) ?_
    simp only [List.forall_mem_cons]
    exact ⟨refers_atom n, refers_text t, List.forall_mem_nil _⟩
  assertHeapFile n k t _ _ := by
    refine refers_list (by decide) ?_
    simp only [List.forall_mem_cons]
    exact ⟨refers_atom n, refers_atom k, refers_text t, List.forall_mem_nil _⟩

/-- Lines whose forms refer only to names with the property. -/
def AllRefer (P : Reference → Prop) (lines : List Line) : Prop :=
  ∀ f ∈ Line.formsAll lines, f.Refers P

variable {lines more : List Line}

theorem refer_nil : AllRefer P [] := List.forall_mem_nil _

theorem AllRefer.append (h : AllRefer P lines) (h' : AllRefer P more) :
    AllRefer P (lines ++ more) := by
  intro f hf
  rw [Line.formsAll_append] at hf
  exact (List.mem_append.mp hf).elim (h f) (h' f)

theorem refer_form {f : Form} (h : f.Refers P) : AllRefer P [.form f] := by
  intro g hg
  obtain rfl := List.mem_singleton.mp hg
  exact h

/-- A group whose head names nothing. -/
theorem refer_group {w : Bytes} {parts : List (Option Form)} (hw : w ∉ naming)
    (hparts : ∀ f, some f ∈ parts → f.Refers P) (h : AllRefer P lines) :
    AllRefer P [.group (some (.atom w) :: parts) lines] := by
  refine refer_form (f := .list (.atom w :: (parts.filterMap id ++ Line.formsAll lines))) ?_
  refine refers_list hw fun f hf => ?_
  rcases List.mem_append.mp hf with hf | hf
  · obtain ⟨x, hx, rfl⟩ := List.mem_filterMap.mp hf
    exact hparts f hx
  · exact h f hf

/-- A group that is opened by a word alone. -/
theorem refer_word {w : Bytes} (hw : w ∉ naming) (h : AllRefer P lines) :
    AllRefer P [.group [some (.atom w)] lines] :=
  refer_group hw (fun _ h => nomatch h) h

theorem refer_labelled {w label : Bytes} (hw : w ∉ naming) (h : AllRefer P lines) :
    AllRefer P [.group (labelled w label) lines] := by
  refine refer_group hw (fun f hf => ?_) h
  obtain rfl := Option.some.inj (List.mem_singleton.mp hf)
  exact refers_atom label

theorem refer_nothing (shape : Shape) : AllRefer P shape.nothing := by
  cases shape with
  | arm => exact refer_form (refers_words (by decide))
  | _ => exact refer_nil

theorem refer_several (shape : Shape) (h : AllRefer P lines) :
    AllRefer P (shape.several lines) := by
  cases shape with
  | arm => exact refer_word (by decide) h
  | _ => exact h

theorem refer_ofBlock (shape : Shape) (isEmpty : Bool) (h : AllRefer P lines) :
    AllRefer P (shape.ofBlock isEmpty lines) := by
  cases shape with
  | plain =>
    cases isEmpty with
    | true => exact refer_nil
    | false => exact refer_word (by decide) h
  | arm => exact refer_word (by decide) h
  | body => exact h

/-- All that writing may come to has the property. -/
def Yields {α : Type} (Q : α → Prop) (act : StmtM α) : Prop := ∀ n a n', Emits act n a n' → Q a

section

variable {α β : Type} {Q : α → Prop} {R : β → Prop}

theorem yields_pure {a : α} (h : Q a) : Yields Q (pure a : StmtM α) := by
  intro n b n' he
  obtain ⟨rfl, -⟩ := emits_pure he
  exact h

theorem yields_throw (e : Failure) : Yields Q (throw e : StmtM α) :=
  fun _ _ _ he => absurd he not_emits_throw

theorem yields_bind {act : StmtM α} {next : α → StmtM β} (hact : Yields Q act)
    (hnext : ∀ a, Q a → Yields R (next a)) : Yields R (act >>= next) := by
  intro n b n' he
  obtain ⟨a, n₁, ha, hb⟩ := emits_bind he
  exact hnext a (hact _ _ _ ha) _ _ _ hb

theorem yields_work {act : Work α} (h : ∀ a, Comes act a → Q a) :
    Yields Q (liftM act : StmtM α) :=
  fun _ a _ he => h a (emits_work he).1

theorem yields_any (act : StmtM α) : Yields (fun _ => True) act := fun _ _ _ _ => trivial

theorem yields_ite {c : Prop} [Decidable c] {act act' : StmtM α} (h : Yields Q act)
    (h' : Yields Q act') : Yields Q (if c then act else act') := by
  split
  · exact h
  · exact h'

end

/-- What holds where the code of a body is written. -/
structure Inside (env : Env) (labels : LabelTable) (P : Reference → Prop) : Prop where
  allows : env.Allows P
  group : ∀ id g, labels.group? id = some g → P (.local_ (Name.currentLabel g))

namespace Inside

variable {labels : LabelTable}

section

variable (h : Inside env labels P)

include h

theorem expr {want : Bool} {e : Expr} {x : Option Form} (he : e.Each (Node.Refers P))
    (hx : Comes (expr env want e) x) : ∀ f, x = some f → f.Refers P :=
  (hx.result? ((FormClass.referring h.allows).makes_expr want e he)).2

theorem yields_expr {want : Bool} {e : Expr} (he : e.Each (Node.Refers P)) :
    Yields (fun x => ∀ f, x = some f → f.Refers P) (liftM (Emit.expr env want e) : StmtM _) :=
  yields_work fun _ hx => h.expr he hx

theorem guard {cond : Expr} {i : LoopIndex} {lines : List Line} (hcond : cond.Each (Node.Refers P))
    (hlines : Comes (Emit.guard env cond i) lines) : AllRefer P lines := by
  unfold Emit.guard at hlines
  split at hlines
  · obtain rfl := comes_pure hlines
    exact refer_nil
  · obtain ⟨c, hc, hlines⟩ := comes_bind hlines
    obtain rfl := comes_pure hlines
    let K := FormClass.referring h.allows
    have hif : ("if" : Bytes) ∉ naming := by decide
    refine refer_form (K.app_three hif (h.expr hcond hc) ?_ ?_)
    · exact K.part_some (refers_words (by decide))
    · exact K.part_some (refers_words (by decide))

theorem effects {l : List Expr} {lines : List Line} (hl : ∀ e ∈ l, e.Each (Node.Refers P))
    (hlines : Comes (Emit.effects env l) lines) : AllRefer P lines := by
  induction l generalizing lines with
  | nil =>
    obtain rfl := comes_pure hlines
    exact refer_nil
  | cons e rest ih =>
    rw [List.forall_mem_cons] at hl
    obtain ⟨_, -, hlines⟩ := comes_bind hlines
    obtain ⟨x, hx, hlines⟩ := comes_bind hlines
    obtain ⟨xs, hxs, hlines⟩ := comes_bind hlines
    obtain rfl := comes_pure hlines
    cases x with
    | none => exact ih hl.2 hxs
    | some f => exact (refer_form (h.expr hl.1 hx f rfl)).append (ih hl.2 hxs)

theorem varInits {l : List VarInit} {lines : List Line}
    (hl : ∀ v ∈ l, v.init.Each (Node.Refers P)) (hlines : Comes (Emit.varInits env l) lines) :
    AllRefer P lines := by
  induction l generalizing lines with
  | nil =>
    obtain rfl := comes_pure hlines
    exact refer_nil
  | cons v rest ih =>
    rw [List.forall_mem_cons] at hl
    unfold Emit.varInits at hlines
    split at hlines
    · exact ih hl.2 hlines
    · obtain ⟨x, hx, hlines⟩ := comes_bind hlines
      obtain ⟨stored, hstored, hlines⟩ := comes_bind hlines
      obtain ⟨xs, hxs, hlines⟩ := comes_bind hlines
      obtain rfl := comes_pure hlines
      have hvalue : (FormClass.referring h.allows).Part x := h.expr hl.1 hx
      have hform := (hstored.result? ((FormClass.referring h.allows).makes_store
        (FormClass.settable_variable _ trivial) hvalue)).2
      exact (refer_form hform).append (ih hl.2 hxs)


end

/-- What encloses a statement: the locals of the label groups around may be named. -/
def Around (P : Reference → Prop) (nest : Nest) : Prop :=
  ∀ g ∈ nest.groups, P (.local_ (Name.currentLabel g))

theorem Around.within {nest : Nest} (h : Around P nest) (isSwitch : Bool) (index : LoopIndex) :
    Around P (nest.within isSwitch index) := h

theorem refers_setLabel {g : Nat} (hg : P (.local_ (Name.currentLabel g))) (n : Bytes) :
    (Form.list [.atom "set_local", .atom (Name.currentLabel g), .words ["i32.const", n]]).Refers
      P := by
  refine refers_named (fun r hr => ?_) (List.forall_mem_singleton.mpr (refers_words (by decide)))
  obtain rfl := List.mem_singleton.mp hr
  exact hg

theorem refers_goto {place : LabelPlace} (hg : P (.local_ (Name.currentLabel place.group))) :
    (gotoForm place).Refers P := by
  refine refers_list (by decide) ?_
  simp only [List.forall_mem_cons]
  exact ⟨refers_setLabel hg _, refers_words (by decide), List.forall_mem_nil _⟩

theorem goto {nest : Nest} {span : Span} {label : Bytes} {lines : List Line}
    (hnest : Around P nest) (hlines : Comes (gotoLine labels nest span label) lines) :
    AllRefer P lines := by
  unfold gotoLine at hlines
  split at hlines
  · exact absurd hlines not_comes_problem
  · split at hlines
    · rename_i place _ hmem
      obtain rfl := comes_pure hlines
      exact refer_form (refers_goto (hnest place.group (by simpa using hmem)))
    · exact absurd hlines not_comes_problem

theorem branch {nest : Nest} {span : Span} {isContinue : Bool} {target : LoopIndex}
    {lines : List Line} (hlines : Comes (branchLine nest span isContinue target) lines) :
    AllRefer P lines := by
  unfold branchLine at hlines
  simp only at hlines
  split at hlines
  · obtain rfl := comes_pure hlines
    exact refer_form (refers_words (by decide))
  · exact absurd hlines not_comes_problem

theorem refer_section {place : LabelPlace} {body : List Line}
    (hg : P (.local_ (Name.currentLabel place.group))) (hbody : AllRefer P body) :
    AllRefer P [section_ place body] := by
  refine refer_group (by decide) (fun f hf => ?_) (refer_word (by decide) hbody)
  obtain rfl := Option.some.inj (List.mem_singleton.mp hf)
  refine refers_list (by decide) ?_
  simp only [List.forall_mem_cons]
  refine ⟨refers_named (fun r hr => ?_) (List.forall_mem_nil _), refers_words (by decide),
    List.forall_mem_nil _⟩
  obtain rfl := List.mem_singleton.mp hr
  exact hg

theorem refer_groupLines {g : Nat} {sections : List Line}
    (hg : P (.local_ (Name.currentLabel g))) (hsections : AllRefer P sections) :
    AllRefer P (groupLines g sections) := by
  refine (refer_form (refers_setLabel hg _)).append (refer_labelled (by decide) ?_)
  refine refer_labelled (by decide) (hsections.append (refer_form (refers_words (by decide))))

theorem refer_caseLines {isDefault : Bool} {values : List Bytes} {body : List Line}
    (hbody : AllRefer P body) : AllRefer P (caseLines isDefault values body) := by
  have hfall : ∀ vs : List Bytes,
      AllRefer P (vs.map fun v => .form (.words ["case", v])) := by
    intro vs f hf
    rw [formsAll_map] at hf
    obtain ⟨v, _, rfl⟩ := List.mem_map.mp hf
    exact refers_words (by decide)
  unfold caseLines
  simp only
  split
  · exact (hfall _).append (refer_word (by decide) hbody)
  · exact (hfall _).append (refer_labelled (by decide) hbody)

theorem op_untranslatable (kind : UInt8) : "untranslatable." ++ Stmt.kindName kind ∉ naming := by
  intro hmem
  have hfirst : ∀ w ∈ naming, w.head? ≠ some 117 := by decide
  exact hfirst _ hmem rfl

mutual

/-- The code of a statement refers only to names with the property. -/
theorem yields_stmt (h : Inside env labels P) (nest : Nest) (shape : Shape)
    (hnest : Around P nest) :
    ∀ s, Stmt.Each (Node.Refers P) s → Yields (AllRefer P) (stmt env labels nest shape s)
  | .missing, _ => yields_pure (refer_nothing shape)
  | .block _ rows, hs => yields_blockRows h nest shape hnest rows (Stmt.each_block.mp hs).2
  | .expr _ e, hs => by
    unfold stmt
    refine yields_bind (yields_any _) fun _ _ => ?_
    refine yields_bind (h.yields_expr (Stmt.each_expr.mp hs).2) fun x hx => ?_
    cases x with
    | some f => exact yields_pure (refer_form (hx f rfl))
    | none => exact yields_pure (refer_nothing shape)
  | .ite _ cond yes no, hs => by
    obtain ⟨_, hcond, hyes, hno⟩ := Stmt.each_ite.mp hs
    unfold stmt
    refine yields_bind (h.yields_expr hcond) fun c hc => ?_
    refine yields_bind (yields_stmt h nest .arm hnest yes hyes) fun ys hys => ?_
    have hite : ∀ {zs : List Line}, AllRefer P zs →
        AllRefer P [.group [some (.atom "if"), c] (ys ++ zs)] := by
      intro zs hzs
      refine refer_group (by decide) (fun f hf => ?_) (hys.append hzs)
      exact hc f (List.mem_singleton.mp hf).symm
    refine yields_ite ?_ ?_
    · exact yields_bind (yields_pure refer_nil) fun zs hzs => yields_pure (hite hzs)
    · exact yields_bind (yields_stmt h nest .arm hnest no hno) fun zs hzs => yields_pure (hite hzs)
  | .forLoop m own init cond post body, hs => by
    obtain ⟨_, hinit, hcond, hbody, hpost⟩ := Stmt.each_forLoop.mp hs
    unfold stmt
    refine yields_bind (yields_stmtRows h nest hnest init hinit) fun init' hinit' => ?_
    refine yields_bind (yields_any _) fun index _ => ?_
    refine yields_bind (yields_work fun _ => h.guard hcond) fun test htest => ?_
    refine yields_bind (yields_stmt h _ .body (hnest.within false index) body hbody)
      fun body' hbody' => ?_
    refine yields_bind (yields_work fun _ => h.effects (Expr.eachRow_iff.mp hpost))
      fun post' hpost' => yields_pure ?_
    refine refer_several shape (hinit'.append (refer_labelled (by decide) ?_))
    exact (htest.append (refer_labelled (by decide) hbody')).append hpost'
  | .whileLoop m testLast own cond body, hs => by
    obtain ⟨_, hcond, hbody⟩ := Stmt.each_whileLoop.mp hs
    have hguard (index : LoopIndex) :
        Yields (AllRefer P) (liftM (Emit.guard env cond index) : StmtM (List Line)) :=
      yields_work fun _ => h.guard hcond
    have hinner (index : LoopIndex) :=
      yields_stmt h _ .body (hnest.within false index) body hbody
    unfold stmt
    refine yields_bind (yields_any _) fun index _ => yields_ite ?_ ?_
    · refine yields_bind (hinner index) fun body' hbody' => ?_
      refine yields_bind (hguard index) fun test htest => yields_pure ?_
      exact refer_labelled (by decide) ((refer_labelled (by decide) hbody').append htest)
    · refine yields_bind (hguard index) fun test htest => ?_
      refine yields_bind (hinner index) fun body' hbody' => yields_pure ?_
      exact refer_labelled (by decide) (htest.append (refer_labelled (by decide) hbody'))
  | .labelGroup m rows, hs => by
    unfold stmt
    cases hgroup : labels.group? m.id with
    | none => exact yields_throw _
    | some g =>
      have hg := h.group m.id g hgroup
      have hinner : Around P (nest.withinGroup g) := List.forall_mem_cons.mpr ⟨hg, hnest⟩
      refine yields_ite (yields_pure (refer_several shape refer_nil)) ?_
      refine yields_bind (yields_any _) fun _ _ => ?_
      refine yields_bind (yields_sectionRows h _ g hinner hg rows (Stmt.each_labelGroup.mp hs).2)
        fun sections hsections => yields_pure ?_
      exact refer_several shape (refer_groupLines hg hsections)
  | .goto m label, _ => yields_work fun _ => goto hnest
  | .branch m isContinue target, _ => yields_work fun _ => branch
  | .ret _ value, hs => by
    unfold stmt
    refine yields_ite (yields_pure ?_) ?_
    · split
      · exact refer_nil
      · exact refer_form (refers_words (by decide))
    · refine yields_bind (h.yields_expr (Stmt.each_ret.mp hs).2) fun x hx => yields_pure ?_
      have hreturn : ("return" : Bytes) ∉ naming := by decide
      exact refer_form ((FormClass.referring h.allows).app_one hreturn hx)
  | .switch m own key cases, hs => by
    obtain ⟨_, hkey, hcases⟩ := Stmt.each_switch.mp hs
    unfold stmt
    refine yields_bind (h.yields_expr hkey) fun k hk => ?_
    refine yields_bind (yields_any _) fun _ _ => ?_
    split
    · exact yields_bind (yields_any _) fun _ _ => yields_throw _
    · rename_i kw _
      refine yields_bind (yields_any _) fun index _ => ?_
      have hinner := hnest.within true index
      refine yields_bind (yields_caseRows h _ m.span false hinner cases hcases)
        fun named hnamed => ?_
      refine yields_bind (yields_caseRows h _ m.span true hinner cases hcases)
        fun default hdefault => yields_pure ?_
      have hop : kw.text ++ ".switch" ∉ naming := by cases kw <;> decide
      refine refer_labelled (by decide) (refer_group hop (fun f hf => ?_) (hnamed.append hdefault))
      exact hk f (List.mem_singleton.mp hf).symm
  | .varDecl _ vars, hs => by
    have hvars := (Stmt.each_varDecl.mp hs).2
    unfold stmt
    refine yields_bind (yields_work fun _ => h.varInits hvars) fun lines hlines => yields_pure ?_
    exact refer_several shape hlines
  | .bare m kind, _ => by
    unfold stmt
    refine yields_bind (yields_any _) fun _ _ => yields_pure ?_
    exact refer_form (refers_words (op_untranslatable kind))

theorem yields_blockRows (h : Inside env labels P) (nest : Nest) (shape : Shape)
    (hnest : Around P nest) :
    ∀ rows, Stmt.EachRow (Node.Refers P) rows →
      Yields (AllRefer P) (blockRows env labels nest shape rows)
  | none, _ => yields_pure (refer_ofBlock shape true refer_nil)
  | some l, hs => yields_blockItems h nest shape hnest l hs

theorem yields_blockItems (h : Inside env labels P) (nest : Nest) (shape : Shape)
    (hnest : Around P nest) :
    ∀ l, Stmt.EachOf (Node.Refers P) l →
      Yields (AllRefer P) (blockItems env labels nest shape l)
  | [], _ => yields_pure (refer_ofBlock shape true refer_nil)
  | s :: rest, hs => by
    obtain ⟨hfirst, hrest⟩ := Stmt.eachOf_cons.mp hs
    unfold blockItems
    refine yields_ite (yields_stmt h nest shape hnest s hfirst) ?_
    refine yields_bind (yields_stmt h nest .plain hnest s hfirst) fun first hfirst => ?_
    refine yields_bind (yields_stmts h nest hnest rest hrest) fun more hmore => yields_pure ?_
    exact refer_ofBlock shape false (hfirst.append hmore)

theorem yields_stmtRows (h : Inside env labels P) (nest : Nest) (hnest : Around P nest) :
    ∀ rows, Stmt.EachRow (Node.Refers P) rows →
      Yields (AllRefer P) (stmtRows env labels nest rows)
  | none, _ => yields_pure refer_nil
  | some l, hs => yields_stmts h nest hnest l hs

theorem yields_stmts (h : Inside env labels P) (nest : Nest) (hnest : Around P nest) :
    ∀ l, Stmt.EachOf (Node.Refers P) l → Yields (AllRefer P) (stmts env labels nest l)
  | [], _ => yields_pure refer_nil
  | s :: rest, hs => by
    obtain ⟨hfirst, hrest⟩ := Stmt.eachOf_cons.mp hs
    unfold stmts
    refine yields_bind (yields_stmt h nest .plain hnest s hfirst) fun first hfirst => ?_
    refine yields_bind (yields_stmts h nest hnest rest hrest) fun more hmore => yields_pure ?_
    exact hfirst.append hmore

theorem yields_sectionRows (h : Inside env labels P) (nest : Nest) (g : Nat) (hnest : Around P nest)
    (hg : P (.local_ (Name.currentLabel g))) :
    ∀ rows, Label.EachRow (Node.Refers P) rows →
      Yields (AllRefer P) (sectionRows env labels nest g rows)
  | none, _ => yields_pure refer_nil
  | some l, hs => yields_sections h nest g 0 hnest hg l hs

theorem yields_sections (h : Inside env labels P) (nest : Nest) (g index : Nat)
    (hnest : Around P nest) (hg : P (.local_ (Name.currentLabel g))) :
    ∀ l, Label.EachOf (Node.Refers P) l →
      Yields (AllRefer P) (sections env labels nest g index l)
  | [], _ => yields_pure refer_nil
  | .mk _ body :: rest, hs => by
    obtain ⟨hbody, hrest⟩ := Stmt.eachLabel_cons.mp hs
    unfold sections
    refine yields_bind (yields_stmtRows h nest hnest body hbody) fun lines hlines => ?_
    refine yields_bind (yields_sections h nest g (index + 1) hnest hg rest hrest)
      fun more hmore => yields_pure ?_
    refine (refer_section hg (hlines.append ?_)).append hmore
    split
    · exact refer_nil
    · exact refer_form (refers_goto hg)

theorem yields_caseRows (h : Inside env labels P) (nest : Nest) (span : Span) (wanted : Bool)
    (hnest : Around P nest) :
    ∀ rows, Case.EachRow (Node.Refers P) rows →
      Yields (AllRefer P) (caseRows env labels nest span wanted rows)
  | none, _ => yields_pure refer_nil
  | some l, hs => yields_cases h nest span wanted hnest l hs

theorem yields_cases (h : Inside env labels P) (nest : Nest) (span : Span) (wanted : Bool)
    (hnest : Around P nest) :
    ∀ l, Case.EachOf (Node.Refers P) l → Yields (AllRefer P) (cases env labels nest span wanted l)
  | [], _ => yields_pure refer_nil
  | .mk values isDefault body :: rest, hs => by
    obtain ⟨_, hbody, hrest⟩ := Stmt.eachCase_cons.mp hs
    unfold cases
    refine yields_ite ?_ (yields_cases h nest span wanted hnest rest hrest)
    refine yields_ite (yields_throw _) ?_
    refine yields_bind (yields_any _) fun texts _ => ?_
    refine yields_bind (yields_stmtRows h nest hnest body hbody) fun lines hlines => ?_
    refine yields_bind (yields_cases h nest span wanted hnest rest hrest)
      fun more hmore => yields_pure ?_
    exact (refer_caseLines hlines).append hmore

end

/-- The code of a body refers only to names with the property. -/
theorem root (h : Inside env labels P) {root : Stmt} (hroot : Stmt.Each (Node.Refers P) root) :
    Yields (AllRefer P) (rootLines env labels root) := by
  have hnest : Around P {} := List.forall_mem_nil _
  cases root with
  | block m rows => exact h.yields_stmtRows {} hnest rows (Stmt.each_block.mp hroot).2
  | _ => exact h.yields_stmt {} .plain hnest _ hroot

end Inside

end Emit

end WastForge
