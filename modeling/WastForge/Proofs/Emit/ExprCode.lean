import WastForge.Proofs.Emit.Leaf
import WastForge.Proofs.Machine.Agree
import WastForge.Proofs.Program.Each

/-!
# The code of expressions lies in every closed class

The code of an expression is in every class of forms that is closed under the ways of building
code, as long as the expression has only nodes that the class allows.

The code of an expression names only declared locals and never branches to a label. So it does not
depend on the locals that label groups keep, and no branch leaves it.
-/

namespace WastForge

namespace Emit.FormClass

open Work

variable {env : Env} (K : FormClass env)

theorem op_untranslatable (kind : UInt8) : K.op ("untranslatable." ++ Expr.kindName kind) := by
  have hnames : ∀ name ∈ (["Literal", "Variable", "BinaryOp", "UnaryOp", "Call", "FieldAccess",
      "PropertyAccess", "Cast", "Reference", "Comma", "Conditional", "ArrayInit", "GetMemory",
      "SetMemory", "StringLength", "Intrinsic", "Invoke", "AssertReturn", "AssertEq",
      "AssertHeapEq", "HarnessCall", "Unknown"] : List Bytes),
      Token.isWord ("untranslatable." ++ name)
        ∧ "untranslatable." ++ name ∉ reserved ++ naming := by
    decide
  have hmem : Expr.kindName kind ∈ (["Literal", "Variable", "BinaryOp", "UnaryOp", "Call",
      "FieldAccess", "PropertyAccess", "Cast", "Reference", "Comma", "Conditional", "ArrayInit",
      "GetMemory", "SetMemory", "StringLength", "Intrinsic", "Invoke", "AssertReturn", "AssertEq",
      "AssertHeapEq", "HarnessCall", "Unknown"] : List Bytes) := by
    unfold Expr.kindName
    split <;> decide
  exact K.op_isWord _ (hnames _ hmem).1 (hnames _ hmem).2

theorem makes_report (code : Code) (e : Expr) (message : Bytes) :
    Makes K.holds (env.report code e message) := by
  refine makes_bind (makes_note _) fun _ _ => makes_pure ?_
  refine K.app _ [] (K.op_untranslatable e.kind) fun g hg => ?_
  cases hg

theorem makes_untranslatable (e : Expr) (message : Bytes) :
    Makes K.holds (env.untranslatable e message) :=
  K.makes_report _ e message

theorem makes_untranslatableType (e : Expr) (message : Option Bytes) :
    Makes K.holds (env.untranslatableType e message) :=
  makes_bind (makes_need _ _) fun text _ => K.makes_untranslatable e text

theorem word_dollar {w : Bytes} (h : ∀ b ∈ w, Token.isWordByte b) :
    K.word (("$" : Bytes) ++ w) := by
  have hdollar : ∀ b ∈ ("$" : Bytes), Token.isWordByte b :=
    List.all_eq_true.mp (by decide)
  refine K.word_isWord _ (Token.isWord_of_all (List.cons_ne_nil _ _) fun b hb => ?_)
  rcases List.mem_append.mp hb with hb | hb
  · exact hdollar b hb
  · exact h b hb

theorem word_func (ref : MemberRef) : K.word (Name.func ref) :=
  K.word_dollar fun _ hb => Name.isWordByte_escape hb

theorem word_stringFirst (offset : UInt32) : K.word (Name.stringFirst offset) := by
  have hends : ∀ b ∈ ("__string__first" : Bytes), Token.isWordByte b :=
    List.all_eq_true.mp (by decide)
  have hname : Name.stringFirst offset
      = ("$" : Bytes) ++ ("__string_" ++ (Bytes.ofNat offset.toNat ++ "_first")) := by
    unfold Name.stringFirst
    rw [List.append_assoc]
    rfl
  rw [hname]
  refine K.word_dollar fun b hb => ?_
  rcases List.mem_append.mp hb with hb | hb
  · exact hends b (List.mem_append_left "_first" hb)
  rcases List.mem_append.mp hb with hb | hb
  · exact Token.isWordByte_ofNat hb
  · exact hends b (List.mem_append_right "__string_" hb)

theorem makes_stringRef (e : Expr) (content : Bytes) :
    Makes K.holds (stringRef env e content) := by
  unfold stringRef
  cases hslot : env.arena.string? content with
  | some slot =>
    exact makes_pure (K.call _ [] (K.word_stringFirst _) (K.target_string _ _ hslot)
      fun _ h => by cases h)
  | none => exact makes_problem _ _ _

theorem makes_literal (e : Expr) (l : Literal) : Makes K.holds (literal env e l) := by
  unfold literal
  split
  · exact K.makes_stringRef e _
  · split
    · exact K.makes_stringRef e _
    · exact makes_pure (K.holds_intConst _ _)
  · split
    · exact K.makes_stringRef e _
    · exact makes_pure (K.holds_intConst _ _)
  · exact makes_pure (K.holds_intConst _ _)
  · exact makes_pure (K.holds_intConst _ _)
  · exact makes_pure (K.const _ _ (K.word_float _ _))
  · simp only
    split
    · exact makes_pure (K.const _ _ (K.word_float .f64 _))
    · exact makes_pure (K.holds_intConst _ _)
  · exact K.makes_untranslatable e _

theorem makes_variable (e : Expr) {name : Bytes} (hname : K.named name) :
    Makes K.holds (variable_ env e name) := by
  unfold variable_
  simp only
  split
  · exact makes_pure (K.getLocal name (.inl ‹_›) hname)
  · split
    · exact K.makes_untranslatable e _
    · rename_i t ht
      split
      · exact makes_pure (K.getLocal name (.inr (by rw [ht]; rfl)) hname)
      · exact K.makes_untranslatableType e _

/-- A placeholder of the class, or something else. -/
def Placed {α : Type} (P : α → Prop) : Except Form α → Prop
  | .error placeholder => K.holds placeholder
  | .ok a => P a

theorem makes_error {α : Type} {P : α → Prop} {act : Work Form} (h : Makes K.holds act) :
    Makes (K.Placed P) (do return .error (← act)) :=
  makes_bind h fun _ hf => makes_pure hf

theorem makes_callTarget (e : Expr) (ref : MemberRef) (params : Option (List TypeId)) :
    Makes (K.Placed fun name => K.word name ∧ K.target name) (callTarget env e ref params) := by
  unfold callTarget
  cases hcallee : callee? env ref params with
  | none => exact K.makes_error (K.makes_report _ e _)
  | some b =>
    refine makes_ite (fun _ => K.makes_error (K.makes_report _ e _)) fun hskipped => ?_
    refine makes_ite (fun _ => K.makes_error (K.makes_report _ e _)) fun hentry => ?_
    refine makes_pure ⟨K.word_func _, K.target_callee ref params b hcallee ?_ hentry⟩
    simpa using hskipped

theorem makes_callWith (e : Expr) (ref : MemberRef) {args : List (Option Form)}
    (hargs : ∀ g, some g ∈ args → K.holds g) : Makes K.holds (callWith env e ref args) := by
  refine makes_bind (K.makes_callTarget e ref none) fun r hr => ?_
  cases r with
  | error placeholder => exact makes_pure hr
  | ok name => exact makes_pure (K.call name args hr.1 hr.2 hargs)

theorem makes_fieldSlot (e : Expr) (target : MemberRef) (isStatic : Bool) (receiver : Expr) :
    Makes (K.Placed fun _ => True) (fieldSlot env e target isStatic receiver) := by
  unfold fieldSlot
  refine makes_ite (fun _ => ?_) (fun _ => ?_)
  · exact K.makes_error (K.makes_report _ e _)
  · split
    · exact K.makes_error (K.makes_report _ e _)
    · split
      · exact K.makes_error (K.makes_untranslatableType e _)
      · exact makes_pure trivial

theorem makes_fieldLoad (e : Expr) (target : MemberRef) (isStatic : Bool) (receiver : Expr) :
    Makes K.holds (fieldLoad env e target isStatic receiver) := by
  refine makes_bind (K.makes_fieldSlot e target isStatic receiver) fun r hr => ?_
  cases r with
  | error placeholder => exact makes_pure hr
  | ok p => exact makes_pure (K.holds_load (K.holds_intConst _ _))

theorem makes_fieldStore (e : Expr) (target : MemberRef) (isStatic : Bool) (receiver : Expr)
    {value : Option Form} (hvalue : K.Part value) :
    Makes K.holds (fieldStore env e target isStatic receiver value) := by
  refine makes_bind (K.makes_fieldSlot e target isStatic receiver) fun r hr => ?_
  cases r with
  | error placeholder => exact makes_pure hr
  | ok p => exact makes_pure (K.holds_store (K.holds_intConst _ _) hvalue)

/-- A target that is a variable may be set. -/
def Settable (target : Expr) : Prop :=
  ∀ a name isParam, target = .variable a name isParam → K.named name

theorem settable_variable {a : Annot} {name : Bytes} {isParam : Bool} (h : K.named name) :
    K.Settable (.variable a name isParam) := by
  rintro _ _ _ ⟨⟩
  exact h

theorem settable_of_each {target : Expr} (h : Expr.Each K.node target) : K.Settable target := by
  rintro a name isParam rfl
  exact K.named_variable a name isParam (Expr.each_variable.mp h)

theorem makes_store {target : Expr} (htarget : K.Settable target) {value : Option Form}
    (hvalue : K.Part value) : Makes K.holds (store env target value) := by
  unfold store
  split
  · rename_i name _
    refine makes_ite (fun h => ?_) (fun _ => K.makes_untranslatable _ _)
    rw [Bool.or_eq_true] at h
    exact makes_pure (K.setLocal name value h (htarget _ _ _ rfl) hvalue)
  · exact K.makes_fieldStore _ _ _ _ hvalue
  · refine makes_ite (fun _ => K.makes_report _ _ _) fun _ => ?_
    refine makes_ite (fun _ => makes_problem _ _ _) fun _ => ?_
    refine K.makes_callWith _ _ fun g hg => ?_
    exact hvalue g (List.mem_singleton.mp hg).symm
  · exact makes_throw _
  · exact makes_problem _ _ _

theorem makes_operation (e : Expr) (op : BinaryOp) (left : TypeId) :
    Makes (K.Placed fun p => K.op p.1) (operation env e op left) := by
  unfold operation
  simp only
  split
  · exact K.makes_error (K.makes_untranslatableType e _)
  · refine makes_ite (fun _ => K.makes_error (K.makes_report _ e _)) fun _ => ?_
    split
    · exact K.makes_error (K.makes_report _ e _)
    · exact makes_pure (K.op_ofBinary ‹_›)

theorem part_rightOperand (op : BinaryOp) (kw : Keyword) (type : TypeId) {x : Option Form}
    (hx : K.Part x) : K.Part (rightOperand env op kw type x) := by
  unfold rightOperand
  split
  · exact K.part_app_one (K.op_isWord _ (by decide) (by decide)) hx
  · exact hx

theorem makes_unaryOn (e : Expr) (op : UnaryOp) (kw : Keyword) {x : Option Form}
    (hx : K.Part x) : Makes K.Part (unaryOn env e op kw x) := by
  have hunsupported : ∀ message, Makes K.Part (do
      return some (← env.untranslatable e message)) := fun message =>
    makes_bind (K.makes_untranslatable e message) fun _ hf => makes_pure (K.part_some hf)
  unfold unaryOn
  simp only
  split
  · exact makes_pure hx
  · refine makes_ite (fun _ => makes_pure ?_) fun _ => makes_pure ?_
    · exact K.part_app_one (K.op_typed kw (List.all_eq_true.mp (by decide))) hx
    · exact K.part_some (K.app_two (K.op_typed kw (List.all_eq_true.mp (by decide)))
        (K.part_some (K.holds_intConst _ _)) hx)
  · refine makes_ite (fun _ => hunsupported _) fun _ => makes_pure ?_
    exact K.part_app_one (K.op_typed kw (List.all_eq_true.mp (by decide))) hx
  · refine makes_ite (fun _ => hunsupported _) fun _ => makes_pure ?_
    exact K.part_some (K.app_two (K.op_typed kw (List.all_eq_true.mp (by decide))) hx
      (K.part_some (K.holds_intConst _ _)))
  · exact hunsupported _

theorem makes_increment (op : UnaryOp) {target : Expr} (htarget : K.Settable target)
    (kw : Keyword) (want : Bool) {current : Option Form} (hcurrent : K.Part current) :
    Makes K.holds (increment env op target kw want current) := by
  have hone := K.part_some (K.holds_intConst kw 1)
  have hstep : ∀ c : Bool, K.op (kw.text ++ (if c then ".sub" else ".add" : Bytes)) := by
    intro c
    cases c <;> exact K.op_typed kw (List.all_eq_true.mp (by decide))
  have hundo : ∀ c : Bool, K.op (kw.text ++ (if c then ".add" else ".sub" : Bytes)) := by
    intro c
    cases c <;> exact K.op_typed kw (List.all_eq_true.mp (by decide))
  unfold increment
  simp only
  refine makes_bind (K.makes_store htarget (K.part_narrow (K.part_some
    (K.app_two (hstep _) hcurrent hone)))) fun stored hstored => ?_
  refine makes_ite (fun _ => makes_pure ?_) fun _ => makes_pure hstored
  exact K.app_two (hundo _) (K.part_some hstored) hone

theorem op_memoryOp (isStore : Bool) (target : TypeId) (aligned : Bool) :
    K.op (memoryOp env isStore target aligned) := by
  have hname : ∀ b ∈ (if isStore then ".store" else ".load" : Bytes), Token.isWordByte b :=
    List.all_eq_true.mp (by cases isStore <;> decide)
  have hend : ∀ b ∈ (if aligned then "" else "/1" : Bytes), Token.isWordByte b :=
    List.all_eq_true.mp (by cases aligned <;> decide)
  unfold memoryOp
  rw [List.append_assoc, List.append_assoc]
  refine K.op_typed _ fun b hb => ?_
  rcases List.mem_append.mp hb with hb | hb
  · exact hname b hb
  rcases List.mem_append.mp hb with hb | hb
  · exact isWordByte_memorySuffix hb
  · exact hend b hb

theorem makes_heapCheck (span : Span) (offset count : Int64) (expected : Bytes)
    (fromFile : Bool) : Makes K.holds (heapCheck span offset count expected fromFile) := by
  unfold heapCheck
  refine makes_ite (fun _ => makes_pure ?_) fun _ => ?_
  · exact K.assertHeapFile _ _ _ (K.word_isWord _ (Token.isWord_ofInt _))
      (K.word_isWord _ (Token.isWord_ofInt _))
  · split
    · exact makes_pure (K.assertHeap _ _ (K.word_isWord _ (Token.isWord_ofInt _)))
    · exact makes_problem _ _ _

theorem app_if {c x y : Option Form} (hc : K.Part c) (hx : K.Part x) (hy : K.Part y) :
    K.Part (some (.app "if" [c, x, y])) :=
  K.part_some (K.app_three (K.op_isWord _ (by decide) (by decide)) hc hx hy)

theorem makes_some {act : Work Form} (h : Makes K.holds act) :
    Makes K.Part (do return some (← act)) :=
  makes_bind h fun _ hf => makes_pure (K.part_some hf)

/-- All forms of a list are of the class; what is missing does not count. -/
def Parts (l : List (Option Form)) : Prop := ∀ g, some g ∈ l → K.holds g

mutual

/-- The code of an expression is of the class, if its nodes are allowed. -/
theorem makes_expr (want : Bool) : ∀ e, Expr.Each K.node e → Makes K.Part (expr env want e)
  | .missing, _ => makes_pure K.part_none
  | .literal a l, _ => K.makes_some (K.makes_literal _ l)
  | .variable a name isParam, h =>
    K.makes_some (K.makes_variable _ (K.named_variable a name isParam (Expr.each_variable.mp h)))
  | .binary a op left right, h => by
    obtain ⟨_, hleft, hright⟩ := Expr.each_binary.mp h
    have htarget := K.settable_of_each hleft
    unfold expr
    refine makes_ite (fun _ => ?_) fun _ => ?_
    · exact makes_bind (makes_expr true right hright) fun value hvalue =>
        K.makes_some (K.makes_store htarget hvalue)
    refine makes_ite (fun _ => ?_) fun _ => ?_
    · refine makes_bind (makes_lookAt left) fun _ _ => ?_
      refine makes_bind (K.makes_operation _ _ _) fun r hr => ?_
      cases r with
      | error placeholder => exact K.makes_some (K.makes_store htarget (K.part_some hr))
      | ok p =>
        refine makes_bind (makes_expr true left hleft) fun l hl => ?_
        refine makes_bind (makes_expr true right hright) fun r hr' => ?_
        refine makes_bind (makes_lookAtIf _ right) fun _ _ => ?_
        refine K.makes_some (K.makes_store htarget (K.part_some ?_))
        exact K.app_two hr hl (K.part_rightOperand _ _ _ hr')
    refine makes_ite (fun _ => ?_) fun _ => ?_
    · refine makes_bind (makes_expr true left hleft) fun l hl => ?_
      refine makes_bind (makes_expr true right hright) fun r hr => ?_
      exact makes_pure (K.app_if hl hr (K.part_some (K.holds_intConst _ _)))
    refine makes_ite (fun _ => ?_) fun _ => ?_
    · refine makes_bind (makes_expr true left hleft) fun l hl => ?_
      refine makes_bind (makes_expr true right hright) fun r hr => ?_
      exact makes_pure (K.app_if hl (K.part_some (K.holds_intConst _ _)) hr)
    refine makes_bind (makes_lookAt left) fun _ _ => ?_
    refine makes_bind (K.makes_operation _ _ _) fun r hr => ?_
    cases r with
    | error placeholder => exact makes_pure (K.part_some hr)
    | ok p =>
      refine makes_bind (makes_expr true left hleft) fun l hl => ?_
      refine makes_bind (makes_expr true right hright) fun r hr' => ?_
      refine makes_bind (makes_lookAtIf _ right) fun _ _ => ?_
      exact makes_pure (K.part_some (K.app_two hr hl (K.part_rightOperand _ _ _ hr')))
  | .unary a op x, h => by
    have htarget := K.settable_of_each (Expr.each_unary.mp h).2
    unfold expr
    refine makes_bind (makes_lookAt x) fun _ _ => ?_
    split
    · exact makes_ite (fun _ => K.makes_some (K.makes_untranslatableType _ _))
        fun _ => K.makes_some (K.makes_untranslatableType _ _)
    · refine makes_bind (makes_expr true x (Expr.each_unary.mp h).2) fun v hv => ?_
      refine makes_ite (fun _ => ?_) fun _ => K.makes_unaryOn _ op _ hv
      exact K.makes_some (K.makes_increment op htarget _ want hv)
  | .call a target params isStatic receiver args, h => by
    unfold expr
    refine makes_ite (fun _ => K.makes_some (K.makes_report _ _ _)) fun _ => ?_
    refine makes_bind (K.makes_callTarget _ target params) fun r hr => ?_
    cases r with
    | error placeholder => exact makes_pure (K.part_some hr)
    | ok name =>
      refine makes_bind (makes_exprRows args (Expr.each_call.mp h).2.2) fun l hl => makes_pure ?_
      exact K.part_some (K.call name l hr.1 hr.2 hl)
  | .field a target isStatic receiver, _ => K.makes_some (K.makes_fieldLoad _ _ _ _)
  | .property a target getter setter isStatic receiver, _ => by
    unfold expr
    refine makes_ite (fun _ => K.makes_some (K.makes_report _ _ _)) fun _ => ?_
    exact K.makes_some (K.makes_callWith _ _ fun _ h => by cases h)
  | .cast a x, h => by
    unfold expr
    refine makes_bind (makes_lookAt x) fun _ _ => ?_
    refine makes_bind (makes_expr true x (Expr.each_cast.mp h).2) fun v hv => ?_
    refine makes_ite (fun _ => makes_pure hv) fun _ => ?_
    split
    · exact makes_pure (K.part_cast hv)
    · exact K.makes_some (K.makes_untranslatableType _ _)
  | .reference a x, h => by
    unfold expr
    refine makes_ite (fun _ => ?_) fun _ => K.makes_some (K.makes_report _ _ _)
    exact makes_expr true x (Expr.each_reference.mp h).2
  | .comma a xs, h => by
    unfold expr
    refine makes_bind (makes_commaRows xs (Expr.each_comma.mp h).2) fun parts hparts => ?_
    split
    · exact makes_pure K.part_none
    · exact makes_pure (K.part_some (hparts _ List.mem_cons_self))
    · refine makes_pure (K.part_some ?_)
      have hblock := K.app "block" (parts.map some) (K.op_isWord _ (by decide) (by decide))
        fun g hg => by
          obtain ⟨g', hg', heq⟩ := List.mem_map.mp hg
          cases heq
          exact hparts g hg'
      simpa only [Form.app, List.filterMap_map, Function.comp_def, id, List.filterMap_some]
        using hblock
  | .conditional a c x y, h => by
    obtain ⟨_, hc, hx, hy⟩ := Expr.each_conditional.mp h
    unfold expr
    refine makes_bind (makes_expr true c hc) fun c' hc => ?_
    refine makes_bind (makes_expr true x hx) fun x' hx => ?_
    refine makes_bind (makes_expr true y hy) fun y' hy => ?_
    exact makes_pure (K.app_if hc hx hy)
  | .memory a isStore target aligned address value, h => by
    obtain ⟨_, haddress, hvalue⟩ := Expr.each_memory.mp h
    unfold expr
    refine makes_bind (makes_expr true address haddress) fun x hx => ?_
    refine makes_ite (fun _ => ?_) fun _ => ?_
    · refine makes_bind (makes_expr true value hvalue) fun y hy => makes_pure ?_
      exact K.part_some (K.app_two (K.op_memoryOp _ _ _) hx hy)
    · exact makes_pure (K.part_app_one (K.op_memoryOp _ _ _) hx)
  | .stringLength a s, h => by
    obtain ⟨hnode, hs⟩ := Expr.each_stringLength.mp h
    unfold expr
    refine makes_bind (makes_expr true s hs) fun x hx => makes_pure ?_
    have hword : K.word Name.stringLength := K.word_isWord _ (by decide)
    refine K.part_some (K.call _ [x] hword (K.target_length a s hnode) fun g hg => ?_)
    exact hx g (List.mem_singleton.mp hg).symm
  | .intrinsic a op args, h => by
    obtain ⟨hnode, hargs⟩ := Expr.each_intrinsic.mp h
    unfold expr
    exact makes_bind (makes_exprRows args hargs) fun l hl =>
      makes_pure (K.part_some (K.app op l (K.op_intrinsic a op args hnode) hl))
  | .invoke a name args, h => by
    unfold expr
    exact makes_bind (makes_exprRows args (Expr.each_invoke.mp h).2) fun l hl =>
      makes_pure (K.part_some (K.invoke name l hl))
  | .assertion a isEq expected name args, h => by
    obtain ⟨_, hexpected, hargs⟩ := Expr.each_assertion.mp h
    unfold expr
    refine makes_bind (makes_exprRows args hargs) fun l hl => ?_
    refine makes_bind (makes_expr true expected hexpected) fun x hx => ?_
    have hinvoke := K.part_some (K.invoke name l hl)
    refine makes_ite (fun _ => makes_pure ?_) fun _ => makes_pure ?_
    · exact K.part_some (K.app_two (K.op_isWord _ (by decide) (by decide)) hinvoke hx)
    · exact K.part_some (K.app_two (K.op_isWord _ (by decide) (by decide)) hx hinvoke)
  | .assertHeap a offset count expected fromFile, _ =>
    K.makes_some (K.makes_heapCheck _ _ _ _ _)
  | .harnessCall a op args, h => by
    obtain ⟨hnode, hargs⟩ := Expr.each_harnessCall.mp h
    unfold expr
    have hname : K.word ("$" ++ op.importName) := by
      unfold HarnessOp.importName
      repeat' split
      all_goals exact K.word_isWord _ (by decide)
    exact makes_bind_comes (makes_exprRows args hargs) fun l hcomes hl => makes_pure
      (K.part_some (K.callImport a op args l hnode hname (fills_of_comes hcomes) hl))
  | .bare a kind, _ => K.makes_some (K.makes_report _ _ _)
  | .arrayInit a elem size elements hasInit, _ => K.makes_some (K.makes_report _ _ _)

theorem makes_exprRows : ∀ rows, Expr.EachRow K.node rows → Makes K.Parts (exprRows env rows)
  | none, _ => makes_pure fun _ h => by cases h
  | some l, h => makes_exprs l h

theorem makes_exprs : ∀ l, Expr.EachOf K.node l → Makes K.Parts (exprs env l)
  | [], _ => makes_pure fun _ h => by cases h
  | e :: rest, h => by
    obtain ⟨he, hrest⟩ := Expr.eachOf_cons.mp h
    unfold exprs
    refine makes_bind (makes_expr true e he) fun x hx => ?_
    refine makes_bind (makes_exprs rest hrest) fun xs hxs => makes_pure ?_
    intro g hg
    rcases List.mem_cons.mp hg with hg | hg
    · exact hx g hg.symm
    · exact hxs g hg

theorem makes_commaRows : ∀ rows, Expr.EachRow K.node rows →
    Makes (fun l => ∀ g ∈ l, K.holds g) (commaRows env rows)
  | none, _ => makes_pure fun _ h => by cases h
  | some l, h => makes_commaParts l h

theorem makes_commaParts : ∀ l, Expr.EachOf K.node l →
    Makes (fun l => ∀ g ∈ l, K.holds g) (commaParts env l)
  | [], _ => makes_pure fun _ h => by cases h
  | e :: rest, h => by
    obtain ⟨he, hrest⟩ := Expr.eachOf_cons.mp h
    unfold commaParts
    refine makes_bind (makes_lookAtIf _ e) fun _ _ => ?_
    refine makes_bind (makes_expr _ e he) fun x hx => ?_
    refine makes_bind (makes_commaParts rest hrest) fun xs hxs => makes_pure ?_
    intro g hg
    rcases List.mem_append.mp hg with hg | hg
    · exact hx g (Option.mem_toList.mp hg)
    · exact hxs g hg

end

end Emit.FormClass

/-! ## Code that names no hidden locals -/

namespace Form

variable {hidden : List Bytes} {bound : Bytes → Prop}

/-- Safe code as expressions have it: an instruction whose operands are safe too. -/
structure IsLeaf (hidden : List Bytes) (bound : Bytes → Prop) (f : Form) : Prop where
  safe : Safe hidden bound f
  operands : SafeArm hidden bound f
  word : f.word = []

theorem safeAll_iff {fs : List Form} :
    SafeAll hidden bound fs ↔ ∀ f ∈ fs, Safe hidden bound f := by
  induction fs with
  | nil => simp [SafeAll]
  | cons f rest ih => simp [SafeAll, ih]

theorem safeArms_iff {fs : List Form} :
    SafeArms hidden bound fs ↔ ∀ f ∈ fs, SafeArm hidden bound f := by
  induction fs with
  | nil => simp [SafeArms]
  | cons f rest ih => simp [SafeArms, ih]

/-- An instruction on safe operands is safe, whatever its name is. -/
theorem isLeaf_list {head : Bytes} {fs : List Form} (hnil : [] ∉ hidden)
    (hbr : Opcode.ofName head = .br → bound []) (hfs : ∀ f ∈ fs, IsLeaf hidden bound f) :
    IsLeaf hidden bound (.list (.atom head :: fs)) := by
  have hall : SafeAll hidden bound fs := safeAll_iff.mpr fun f hf => (hfs f hf).safe
  have hword : ∀ f ∈ fs.head?, f.word = [] :=
    fun f hf => (hfs f (List.mem_of_mem_head? hf)).word
  have hname : (∀ f ∈ fs.head?, f.word ∉ hidden) ∧ SafeAll hidden bound fs := by
    refine ⟨fun f hf => ?_, hall⟩
    rw [hword f hf]
    exact hnil
  have hbody : SafeBody hidden bound fs := by
    cases fs with
    | nil => trivial
    | cons first rest => exact ⟨hall.1, hall.2.mono (fun _ h => .inr h)⟩
  have hswitch : SafeSwitch hidden bound fs := by
    cases fs with
    | nil => trivial
    | cons key arms =>
      refine ⟨hall.1, safeArms_iff.mpr fun f hf => ?_⟩
      exact (hfs f (List.mem_cons_of_mem _ hf)).operands
  refine ⟨?_, hall, rfl⟩
  simp only [Safe, SafeItems, Form.word]
  cases hop : Opcode.ofName head with
  | block | loop => exact hbody
  | br =>
    intro l hl
    exact (congrArg bound (hword l hl)).mpr (hbr hop)
  | getLocal | setLocal => exact hname
  | switch kw => exact hswitch
  | _ => exact hall

/-- An instruction that is not about labels or locals may have words for operands. -/
theorem isLeaf_of_plain {head : Bytes} {fs : List Form}
    (hplain : ∀ fs, SafeItems hidden bound (.atom head :: fs) = SafeAll hidden bound fs)
    (hfs : ∀ f ∈ fs, Safe hidden bound f) : IsLeaf hidden bound (.list (.atom head :: fs)) := by
  have hall : SafeAll hidden bound fs := safeAll_iff.mpr hfs
  refine ⟨?_, hall, rfl⟩
  rw [Safe, hplain]
  exact hall

end Form

namespace Emit

open Form

/-- The class of the code that names none of the locals of `hidden`. -/
def FormClass.independent (env : Env) (hidden : List Bytes) (hnil : [] ∉ hidden) :
    FormClass env where
  holds := IsLeaf hidden (· = [])
  op _ := True
  word _ := True
  target _ := True
  named name := env.Declares name → Name.local_ name ∉ hidden
  node x := ∀ a name isParam, x = .expr (.variable a name isParam) → env.Declares name →
    Name.local_ name ∉ hidden
  op_isWord _ _ _ := trivial
  op_intrinsic _ _ _ _ := trivial
  target_callee _ _ _ _ _ _ := trivial
  target_string _ _ _ := trivial
  target_length _ _ _ := trivial
  named_variable _ _ _ h := h _ _ _ rfl
  word_isWord _ _ := trivial
  word_float _ _ := trivial
  app w args _ hargs := by
    refine isLeaf_list hnil (fun _ => rfl) fun f hf => ?_
    obtain ⟨x, hx, rfl⟩ := List.mem_filterMap.mp hf
    exact hargs f hx
  const kw n _ := by
    refine isLeaf_of_plain (fun _ => ?_) fun f hf => ?_
    · cases kw <;> rfl
    · obtain rfl := List.mem_singleton.mp hf
      trivial
  call name args _ _ hargs := by
    refine isLeaf_of_plain (fun _ => rfl) fun f hf => ?_
    rcases List.mem_cons.mp hf with rfl | hf
    · trivial
    · obtain ⟨x, hx, rfl⟩ := List.mem_filterMap.mp hf
      exact (hargs f hx).safe
  callImport a op rows args _ _ _ hargs := by
    refine isLeaf_of_plain (fun _ => rfl) fun f hf => ?_
    rcases List.mem_cons.mp hf with rfl | hf
    · trivial
    · obtain ⟨x, hx, rfl⟩ := List.mem_filterMap.mp hf
      exact (hargs f hx).safe
  getLocal name hname hnamed := by
    refine ⟨⟨fun f hf => ?_, trivial, trivial⟩, ⟨trivial, trivial⟩, rfl⟩
    obtain rfl := Option.some.inj hf
    exact hnamed hname
  setLocal name value hname hnamed hvalue := by
    have hall : SafeAll hidden (· = []) ([value].filterMap id) := by
      refine safeAll_iff.mpr fun f hf => ?_
      obtain ⟨x, hx, rfl⟩ := List.mem_filterMap.mp hf
      exact (hvalue f (List.mem_singleton.mp hx).symm).safe
    refine ⟨⟨fun f hf => ?_, trivial, hall⟩, ⟨trivial, hall⟩, rfl⟩
    obtain rfl := Option.some.inj hf
    exact hnamed hname
  invoke name args hargs := by
    refine isLeaf_of_plain (fun _ => rfl) fun f hf => ?_
    rcases List.mem_cons.mp hf with rfl | hf
    · trivial
    · obtain ⟨x, hx, rfl⟩ := List.mem_filterMap.mp hf
      exact (hargs f hx).safe
  assertHeap n t _ := isLeaf_of_plain (fun _ => rfl) (by simp [Safe])
  assertHeapFile n k t _ _ := isLeaf_of_plain (fun _ => rfl) (by simp [Safe])

end Emit

end WastForge
