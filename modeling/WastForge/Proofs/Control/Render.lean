import WastForge.Proofs.Control.Forms
import WastForge.Proofs.Control.Group
import WastForge.Proofs.Control.Table
import WastForge.Proofs.Emit.Emits
import WastForge.Proofs.Text.Reading

/-!
# Code of statements in their places

The code of a statement does what is meant wherever the statement may stand: among others, alone in
an arm, or in a block of its own.
-/

namespace WastForge.Control

open Eval Emit

/-!
## The code of expressions in statements

Conditions, effects, first values and returned values do what is meant by them: their code does not
see the locals of label groups.
-/

section expressions

/-- The labels of a function: every one is in one of the groups, and positions of labels fit into 32
bits. -/
structure Hosts (labels : LabelTable) : Prop where
  places : ∀ name p, labels.place? name = some p → p.group < labels.groups ∧ p.index < 2 ^ 32

/-- A variable is not named like the local of a label group. -/
def Apart (env : Env) (labels : LabelTable) (name : Bytes) : Prop :=
  env.Declares name → ∀ g < labels.groups, Name.local_ name ≠ Name.currentLabel g

/-- Variables are not named like the locals of label groups. A label group whose labels are where
the table has them has its number alone, and its labels can be counted by the machine. At top level
every return has a value. -/
def NodeFits (env : Env) (labels : LabelTable) : Node → Prop
  | .expr (.variable _ name _) => Apart env labels name
  | .stmt (.varDecl _ vars) => ∀ v ∈ Rows.items vars, Apart env labels v.name
  | .stmt (.labelGroup m rows) => Rows.items rows ≠ [] →
    ∀ g, checkLabels labels m.span g 0 (Rows.items rows) = .ok () →
      labels.Numbers g (Rows.items rows) ∧ (Rows.items rows).length ≤ 2 ^ 32
  | .stmt (.ret _ value) => env.isTopLevel = true → value.isMissing = false
  | _ => True

theorem nil_not_mem_groupLocals (labels : LabelTable) : [] ∉ groupLocals labels := by
  intro hmem
  obtain ⟨g, _, heq⟩ := List.mem_map.mp hmem
  cases heq

theorem Apart.not_mem {env : Env} {labels : LabelTable} {name : Bytes} (h : Apart env labels name)
    (hname : env.Declares name) : Name.local_ name ∉ groupLocals labels := by
  intro hmem
  obtain ⟨g, hg, heq⟩ := List.mem_map.mp hmem
  exact h hname g (List.mem_range.mp hg) heq.symm

/-- Code that does not see the locals of label groups. -/
abbrev IsCode (labels : LabelTable) (f : Form) : Prop :=
  Form.IsLeaf (groupLocals labels) (· = []) f

/-- The class of such code. -/
def codeClass (env : Env) (labels : LabelTable) : FormClass env :=
  .independent env (groupLocals labels) (nil_not_mem_groupLocals labels)

variable {c : Setting} {labels : LabelTable} {goals : Targets}

theorem makes_code (want : Bool) {e : Expr} (he : e.Each (NodeFits c.env labels)) :
    Work.Makes (fun x => ∀ f, x = some f → IsCode labels f) (expr c.env want e) := by
  refine (codeClass c.env labels).makes_expr want e fun x hx => ?_
  rintro a name isParam rfl hname
  exact Apart.not_mem (he _ hx) hname

/-- The code that is written for an expression is its code. -/
theorem comes_expr {want : Bool} {e : Expr} {x : Option Form} (he : e.Each (NodeFits c.env labels))
    (hx : Work.Comes (expr c.env want e) x) :
    codeOf c.env want e = x ∧ ∀ f, x = some f → IsCode labels f := by
  obtain ⟨hresult, hcode⟩ := hx.result? (makes_code want he)
  refine ⟨?_, hcode⟩
  rw [codeOf, hresult]
  rfl

theorem makes_effects {l : List Expr} (hl : Expr.EachOf (NodeFits c.env labels) l) :
    Work.Makes (fun lines => ∀ f ∈ Line.formsAll lines, IsCode labels f)
      (Emit.effects c.env l) := by
  induction l with
  | nil => exact Work.makes_pure fun _ hf => by cases hf
  | cons e rest ih =>
    obtain ⟨he, hrest⟩ := Expr.eachOf_cons.mp hl
    unfold Emit.effects
    refine Work.makes_bind (makes_lookAt e) fun _ _ => ?_
    refine Work.makes_bind (makes_code false he) fun x hx => ?_
    refine Work.makes_bind (ih hrest) fun xs hxs => Work.makes_pure ?_
    intro f hf
    rw [Line.formsAll_append, List.mem_append] at hf
    rcases hf with hf | hf
    · cases x with
      | none => cases hf
      | some g =>
        obtain rfl : f = g := by simpa [Line.formsAll, Line.forms] using hf
        exact hx f rfl
    · exact hxs f hf

theorem makes_varInits {l : List VarInit}
    (hl : ∀ v ∈ l, Apart c.env labels v.name ∧ v.init.Each (NodeFits c.env labels)) :
    Work.Makes (fun lines => (∀ f ∈ Line.formsAll lines, IsCode labels f)
      ∧ (Line.formsAll lines = [] ↔ (l.any fun v => !v.init.isMissing) = false))
      (varInits c.env l) := by
  induction l with
  | nil => exact Work.makes_pure ⟨fun _ hf => by (cases hf), by simp [Line.formsAll]⟩
  | cons v rest ih =>
    obtain ⟨hname, he⟩ := hl v List.mem_cons_self
    have ih := ih fun u hu => hl u (List.mem_cons_of_mem _ hu)
    unfold varInits
    cases hmissing : v.init.isMissing with
    | true =>
      rw [if_pos rfl]
      refine ih.mono fun lines hlines => ⟨hlines.1, ?_⟩
      simpa [hmissing] using hlines.2
    | false =>
      rw [if_neg Bool.false_ne_true]
      refine Work.makes_bind (makes_code true he) fun x hx => ?_
      simp only
      have htarget : (codeClass c.env labels).Settable
          (.variable ⟨(c.env.local? v.name).getD v.init.type, v.init.span⟩ v.name false) :=
        (codeClass c.env labels).settable_variable hname.not_mem
      refine Work.makes_bind ((codeClass c.env labels).makes_store htarget hx)
        fun stored hstored => ?_
      refine Work.makes_bind ih fun xs hxs => Work.makes_pure ⟨?_, ?_⟩
      · intro f hf
        rcases List.mem_cons.mp hf with rfl | hf
        · exact hstored
        · exact hxs.1 f hf
      · simp [Line.formsAll, Line.forms, hmissing]

/-- Effects do what is meant by them. -/
theorem realizes_effects {l : List Expr} {lines : List Line}
    (hfit : Expr.EachOf (NodeFits c.env labels) l) (hl : Work.Comes (Emit.effects c.env l) lines)
    (v : Value) :
    Realizes labels c.frame goals (SeqEnds c.world c.frame (Line.formsAll lines) v)
      (c.effects l v) := by
  obtain ⟨hresult, hcode⟩ := hl.result? (makes_effects hfit)
  have heq : c.effects l = c.code (Line.formsAll lines) := by
    rw [Setting.effects, hresult]
    rfl
  rw [heq]
  exact realizes_code c hcode v

/-- The code of an expression has its value. -/
theorem realizes_value {want : Bool} {e : Expr} {f : Form} (he : e.Each (NodeFits c.env labels))
    (hf : Work.Comes (expr c.env want e) (some f)) (v : Value) :
    Realizes labels c.frame goals (SeqEnds c.world c.frame [f] v) (c.code [f] v) := by
  obtain ⟨_, hcode⟩ := comes_expr he hf
  refine realizes_code c (fun g hg => ?_) v
  obtain rfl := List.mem_singleton.mp hg
  exact hcode g rfl

/-- The test of a loop leaves it where the condition is false. -/
theorem realizes_guard {nest : Nest} {i : LoopIndex} {cond : Expr} {lines : List Line}
    (hcond : cond.Each (NodeFits c.env labels)) (hl : Work.Comes (Emit.guard c.env cond i) lines)
    (v : Value) :
    Realizes labels c.frame (roundTargets nest i) (SeqEnds c.world c.frame (Line.formsAll lines) v)
      (c.test cond v) := by
  have hbr : ∀ v, Realizes labels c.frame (roundTargets nest i)
      (SeqEnds c.world c.frame [.words ["br", Name.loop i]] v)
      (Behaviour.ends (.leave noIndex) v) := by
    refine realizes_br fun n => ⟨Name.loop i, ?_, rfl⟩
    exact breakLabel_within nest false i noIndex
  unfold Emit.guard at hl
  unfold Setting.test
  cases hmissing : cond.isMissing with
  | true =>
    rw [hmissing, if_pos rfl] at hl
    obtain rfl := Work.comes_pure hl
    exact realizes_skip v
  | false =>
    rw [hmissing, if_neg Bool.false_ne_true] at hl
    obtain ⟨x, hx, hlines⟩ := Work.comes_bind hl
    obtain rfl := Work.comes_pure hlines
    rw [if_neg Bool.false_ne_true, (comes_expr hcond hx).1]
    cases x with
    | some f =>
      exact realizes_choose (realizes_value hcond hx .void) (realizes_nop .void) (hbr .void) v
    | none =>
      -- the form that does nothing stands in place of the condition
      refine (realizes_choose_one (realizes_nop .void) (hbr .void) v).congr (fun _ => Iff.rfl) ?_
      intro m e m'
      constructor
      · rintro ⟨rfl, rfl⟩
        exact .inl ⟨.void, m', ⟨rfl, rfl⟩, rfl, rfl⟩
      · rintro (⟨u, m₁, ⟨hu, rfl⟩, hrest⟩ | ⟨⟨rfl, rfl⟩, hdone⟩)
        · cases hu
          exact hrest
        · cases hdone

/-- A return ends the function. -/
theorem realizes_return {value : Expr} {x : Option Form}
    (hvalue : value.Each (NodeFits c.env labels)) (hx : Work.Comes (expr c.env true value) x)
    (v : Value) :
    Realizes labels c.frame goals (SeqEnds c.world c.frame [.app "return" [x]] v)
      (c.return_ value v) := by
  have hret : ∀ u : Value,
      Realizes labels c.frame goals (fun n o n' => o = .error (.ret u) ∧ n' = n)
      (fun m e m' => e = .stop (.ret u) ∧ m' = m) :=
    fun u => Realizes.at_once fun _ _ _ => ⟨rfl, fun l hl => by cases hl⟩
  unfold Setting.return_
  rw [(comes_expr hvalue hx).1]
  cases x with
  | none =>
    exact (hret .void).congr
      (fun hn => seqEnds_single.trans (formEnds_return_nil.trans (and_iff_right hn))) Iff.rfl
  | some f =>
    refine ((realizes_value hvalue hx .void).bind hret).congr (fun _ => ?_) ?_
    · simp only [seqEnds_single]
      refine formEnds_return.trans (or_congr_left ?_)
      constructor
      · rintro ⟨u, rfl, hu⟩
        exact ⟨u, _, hu, rfl, rfl⟩
      · rintro ⟨u, n₁, hu, rfl, rfl⟩
        exact ⟨u, rfl, hu⟩
    · intro m e m'
      refine or_congr_left ?_
      constructor
      · rintro ⟨u, hu, rfl⟩
        exact ⟨u, m', hu, rfl, rfl⟩
      · rintro ⟨u, m₁, hu, rfl, rfl⟩
        exact ⟨u, hu, rfl⟩

end expressions

/-! ## Places of statements -/

/-- Forms in a place of some shape do what is meant. Only among other statements they may start
from a value that was left before; `has` tells whether there is any form at all. -/
structure Renders (c : Setting) (labels : LabelTable) (nest : Nest) (shape : Shape)
    (fs : List Form) (b : Behaviour) (has : Bool) : Prop where
  realizes : ∀ v, shape = .plain ∨ v = .void →
    Realizes labels c.frame (targets nest) (SeqEnds c.world c.frame fs v) (b v)
  lists : ∀ f ∈ fs, f.word = []
  single : shape = .arm → ∃ f, fs = [f]
  code : shape = .plain → (fs = [] ↔ has = false)

variable {c : Setting} {labels : LabelTable} {nest : Nest} {shape : Shape} {fs : List Form}
variable {b : Behaviour} {has : Bool} {lines : List Line}

theorem not_label_of_lists (h : ∀ f ∈ fs, f.word = []) :
    ∀ l rest, fs = .atom l :: rest → ¬Form.isLabel l := by
  rintro l rest rfl hl
  obtain rfl : l = [] := h (.atom l) List.mem_cons_self
  cases hl

theorem Renders.void (h : Renders c labels nest shape fs b has) :
    Realizes labels c.frame (targets nest) (SeqEnds c.world c.frame fs .void) (b .void) :=
  h.realizes .void (.inr rfl)

/-- A single form does in all places. -/
theorem renders_one {f : Form} (hf : f.word = [])
    (h : ∀ v, Realizes labels c.frame (targets nest) (SeqEnds c.world c.frame [f] v) (b v)) :
    Renders c labels nest shape [f] b true := by
  refine ⟨fun v _ => h v, fun g hg => ?_, fun _ => ⟨f, rfl⟩, fun _ => ?_⟩
  · rwa [List.mem_singleton.mp hg]
  · simp

theorem renders_nothing :
    Renders c labels nest shape (Line.formsAll shape.nothing) .skip false := by
  cases shape with
  | arm =>
    refine ⟨fun v hv => ?_, fun f hf => ?_, fun _ => ⟨_, rfl⟩, fun h => by cases h⟩
    · rcases hv with hv | rfl
      · cases hv
      · exact realizes_nop .void
    · obtain rfl := List.mem_singleton.mp hf
      rfl
  | plain =>
    exact ⟨fun v _ => realizes_skip v, fun _ hf => by (cases hf), fun h => by (cases h),
      fun _ => ⟨fun _ => rfl, fun _ => rfl⟩⟩
  | body =>
    exact ⟨fun v _ => realizes_skip v, fun _ hf => by (cases hf), fun h => by (cases h),
      fun h => by cases h⟩

theorem renders_several
    (h : ∀ v, Realizes labels c.frame (targets nest)
      (SeqEnds c.world c.frame (Line.formsAll lines) v) (b v))
    (hlists : ∀ f ∈ Line.formsAll lines, f.word = [])
    (hcode : Line.formsAll lines = [] ↔ has = false) :
    Renders c labels nest shape (Line.formsAll (shape.several lines)) b has := by
  cases shape with
  | arm =>
    refine ⟨fun v hv => ?_, fun f hf => ?_, fun _ => ⟨_, rfl⟩, fun h => by cases h⟩
    · rcases hv with hv | rfl
      · cases hv
      · exact realizes_block (h .void) (not_label_of_lists hlists) .void
    · obtain rfl := List.mem_singleton.mp hf
      rfl
  | plain => exact ⟨fun v _ => h v, hlists, fun h => by (cases h), fun _ => hcode⟩
  | body => exact ⟨fun v _ => h v, hlists, fun h => by (cases h), fun h => by cases h⟩

/-- The statements of a block that has some. -/
theorem renders_ofBlock
    (h : Realizes labels c.frame (targets nest)
      (SeqEnds c.world c.frame (Line.formsAll lines) .void)
      (b .void))
    (hlists : ∀ f ∈ Line.formsAll lines, f.word = []) :
    Renders c labels nest shape (Line.formsAll (shape.ofBlock false lines)) b.fresh true := by
  have hblock : Renders c labels nest shape [.list (.atom "block" :: Line.formsAll lines)]
      b.fresh true :=
    renders_one rfl (realizes_block h (not_label_of_lists hlists))
  cases shape with
  | arm => exact hblock
  | plain => exact hblock
  | body =>
    refine ⟨fun v hv => ?_, hlists, fun h => by (cases h), fun h => by cases h⟩
    rcases hv with hv | rfl
    · cases hv
    · exact h

/-- A block without statements. -/
theorem renders_empty :
    Renders c labels nest shape (Line.formsAll (shape.ofBlock true [])) .skip false := by
  cases shape with
  | arm =>
    exact @renders_several c labels nest .arm _ _ [] (fun v => realizes_skip v)
      (fun _ hf => by cases hf) ⟨fun _ => rfl, fun _ => rfl⟩
  | plain => exact @renders_nothing c labels nest .plain
  | body => exact @renders_nothing c labels nest .body

/-- Statements one after the other. -/
theorem renders_append {a : Behaviour} {has' : Bool} {more : List Line}
    (h : Renders c labels nest .plain (Line.formsAll lines) a has)
    (h' : Renders c labels nest .plain (Line.formsAll more) b has') :
    Renders c labels nest .plain (Line.formsAll (lines ++ more)) (a.seq b) (has || has') := by
  rw [Line.formsAll_append]
  refine ⟨fun v _ => ?_, fun f hf => ?_, fun h => by (cases h), fun _ => ?_⟩
  · exact realizes_append (h.realizes v (.inl rfl)) fun u => h'.realizes u (.inl rfl)
  · rcases List.mem_append.mp hf with hf | hf
    · exact h.lists f hf
    · exact h'.lists f hf
  · rw [List.append_eq_nil_iff, h.code rfl, h'.code rfl, Bool.or_eq_false_iff]

theorem renders_expr {e : Expr} {x : Option Form} (he : e.Each (NodeFits c.env labels))
    (hx : Work.Comes (expr c.env false e) x) :
    Renders c labels nest shape
      (Line.formsAll (match x with
        | some f => [.form f]
        | none => shape.nothing))
      (c.perform e) (codeOf c.env false e).isSome := by
  obtain ⟨heq, hcode⟩ := comes_expr he hx
  unfold Setting.perform
  rw [heq]
  cases x with
  | none => exact renders_nothing
  | some f => exact renders_one (hcode f rfl).word fun v => realizes_value he hx v

/-- The code of an arm that may be missing. -/
def ArmCode (c : Setting) (labels : LabelTable) (nest : Nest) (s : Stmt) (fs : List Form) : Prop :=
  if s.isMissing then fs = []
  else ∃ f, fs = [f]
    ∧ Realizes labels c.frame (targets nest) (SeqEnds c.world c.frame [f] .void) (behave c s .void)

theorem renders_ite {m : Mark} {cond : Expr} {yes no : Stmt} {x : Option Form}
    {ys zs : List Line} (hfit : cond.Each (NodeFits c.env labels))
    (hx : Work.Comes (expr c.env true cond) x)
    (hyes : Renders c labels nest .arm (Line.formsAll ys) (behave c yes) (hasCode c.env yes))
    (hno : ArmCode c labels nest no (Line.formsAll zs)) :
    Renders c labels nest shape
      (Line.formsAll [.group [some (.atom "if"), x] (ys ++ zs)])
      (behave c (.ite m cond yes no)) true := by
  have hcond := (comes_expr hfit hx).1
  obtain ⟨y, hy⟩ := hyes.single rfl
  have hyreal := hyes.void
  rw [hy] at hyreal
  have hforms : Line.formsAll [.group [some (.atom "if"), x] (ys ++ zs)]
      = [.list (.atom "if" :: (x.toList ++ (y :: Line.formsAll zs)))] := by
    simp only [Line.formsAll, Line.forms, Line.formsAll_append, hy]
    cases x <;> rfl
  rw [hforms]
  refine renders_one rfl fun v => ?_
  unfold ArmCode at hno
  unfold behave
  rw [hcond]
  cases x with
  | some f =>
    have hcode : Realizes labels c.frame (targets nest) _ _ := realizes_value hfit hx .void
    cases hmissing : no.isMissing with
    | true =>
      rw [hmissing, if_pos rfl] at hno
      rw [hno]
      exact realizes_choose_one hcode hyreal v
    | false =>
      rw [hmissing, if_neg Bool.false_ne_true] at hno
      obtain ⟨z, hz, hzreal⟩ := hno
      rw [hz]
      exact realizes_choose hcode hyreal hzreal v
  | none =>
    cases hmissing : no.isMissing with
    | true =>
      rw [hmissing, if_pos rfl] at hno
      rw [hno]
      have hstop : Realizes labels c.frame (targets nest)
          (fun n o n' => o = .error Setting.badIf ∧ n' = n)
          (fun m e m' => e = .stop Setting.badIf ∧ m' = m) :=
        Realizes.at_once fun _ _ _ => ⟨rfl, fun l hl => by cases hl⟩
      exact hstop.congr
        (fun hn => seqEnds_single.trans (formEnds_if_one.trans (and_iff_right hn))) Iff.rfl
    | false =>
      rw [hmissing, if_neg Bool.false_ne_true] at hno
      obtain ⟨z, hz, hzreal⟩ := hno
      rw [hz]
      exact realizes_choose_one hyreal hzreal v

/-- A loop around its test, its body and what comes behind the body. -/
theorem realizes_loop {i : LoopIndex} {before after body : List Line} {a z b : Behaviour}
    (hbefore : ∀ v, Realizes labels c.frame (roundTargets nest i)
      (SeqEnds c.world c.frame (Line.formsAll before) v) (a v))
    (hbody : Realizes labels c.frame (targets (nest.within false i))
      (SeqEnds c.world c.frame (Line.formsAll body) .void) (b .void))
    (hafter : ∀ v, Realizes labels c.frame (roundTargets nest i)
      (SeqEnds c.world c.frame (Line.formsAll after) v) (z v)) (v : Value) :
    Realizes labels c.frame (targets nest)
      (SeqEnds c.world c.frame
        [.list (.atom "loop" :: .atom (Name.loop i) :: (Line.formsAll before
          ++ (.list (.atom "block" :: .atom (Name.continue_ i) :: Line.formsAll body)
            :: Line.formsAll after)))] v)
      (Behaviour.loop i a b z v) := by
  have hblock := realizes_labelled (k := .continue_ i) hbody (catches_continue nest i)
  have hround := realizes_append (hbefore .void) fun u => realizes_append (hblock u) hafter
  exact realizes_rounds (k := .loop i) hround (by simp) (catches_loop nest i) v

theorem renders_goto (h : Hosts labels) {span : Span} {label : Bytes}
    (hl : Work.Comes (gotoLine labels nest span label) lines) :
    Renders c labels nest shape (Line.formsAll lines) (.ends (.goto label)) true := by
  unfold gotoLine at hl
  cases hplace : labels.place? label with
  | none =>
    rw [hplace] at hl
    exact absurd hl Work.not_comes_problem
  | some p =>
    rw [hplace] at hl
    simp only at hl
    split at hl
    · rename_i hmem
      obtain rfl := Work.comes_pure hl
      obtain ⟨hgroup, hindex⟩ := h.places label p hplace
      refine renders_one rfl fun v => ?_
      exact realizes_goto hplace hindex hgroup (List.contains_iff_mem.mp hmem) v
    · exact absurd hl Work.not_comes_problem

theorem renders_branch {span : Span} {isContinue : Bool} {target : LoopIndex}
    (hl : Work.Comes (branchLine nest span isContinue target) lines) :
    Renders c labels nest shape (Line.formsAll lines)
      (.ends (if isContinue then .again target else .leave target)) true := by
  unfold branchLine at hl
  simp only at hl
  split at hl
  · rename_i l hfound
    obtain rfl := Work.comes_pure hl
    refine renders_one rfl fun v => realizes_br (fun n => ?_) v
    cases isContinue with
    | true => exact ⟨l, hfound, rfl⟩
    | false => exact ⟨l, hfound, rfl⟩
  · exact absurd hl Work.not_comes_problem

theorem renders_varDecl {vars : List VarInit}
    (hfit : ∀ v ∈ vars, Apart c.env labels v.name ∧ v.init.Each (NodeFits c.env labels))
    (hl : Work.Comes (varInits c.env vars) lines) :
    Renders c labels nest shape (Line.formsAll (shape.several lines)) (c.inits vars)
      (vars.any fun v => !v.init.isMissing) := by
  obtain ⟨hresult, hcode, hnil⟩ := hl.result? (makes_varInits hfit)
  have heq : c.inits vars = c.code (Line.formsAll lines) := by
    rw [Setting.inits, hresult]
    rfl
  rw [heq]
  exact renders_several (fun v => realizes_code c hcode v) (fun f hf => (hcode f hf).word) hnil

theorem isCode_untranslatable (kind : UInt8) :
    IsCode labels (.words ["untranslatable." ++ Stmt.kindName kind]) :=
  Form.isLeaf_list (nil_not_mem_groupLocals labels) (fun _ => rfl) fun f hf => by cases hf

theorem renders_bare (kind : UInt8) :
    Renders c labels nest shape [.words ["untranslatable." ++ Stmt.kindName kind]]
      (c.code [.words ["untranslatable." ++ Stmt.kindName kind]]) true := by
  refine renders_one rfl fun v => realizes_code c (fun f hf => ?_) v
  rw [List.mem_singleton.mp hf]
  exact isCode_untranslatable kind

end WastForge.Control
