import WastForge.Proofs.Emit.Report
import WastForge.Proofs.Layout.Placement

/-!
# Code asks for strings and fields

Writing the code of expressions and statements looks up the slots of strings and static fields. As
long as what the expressions mention has its slot, no string is missing, and a field without a slot
is one that has no declaration or no size.
-/

namespace WastForge

namespace Program

/-- One of the types of the name declares a field of the name. -/
def DeclaresField (p : Program) (target : MemberRef) (decl : FieldDecl) : Prop :=
  ∃ d ∈ Rows.items p.decls, d.name = target.type
    ∧ some decl ∈ Rows.items d.fields ∧ decl.name = target.name

/-- The program declares the field with a type that has a size. -/
def HasField (p : Program) (target : MemberRef) : Prop :=
  ∃ decl, p.DeclaresField target decl ∧ ∃ n, p.types.HasSize decl.type n

/-- The declaration of a field that nothing hides: no type of the same name stands in front of its
type, and in front of it no field of the same name, nor the place of one that is left out. -/
def ShowsField (p : Program) (target : MemberRef) (decl : FieldDecl) : Prop :=
  ∃ d before after, Rows.items p.decls = before ++ d :: after ∧ d.name = target.type
    ∧ (∀ d' ∈ before, d'.name ≠ target.type)
    ∧ ∃ front back, Rows.items d.fields = front ++ some decl :: back ∧ decl.name = target.name
      ∧ ∀ f ∈ front, ∃ other, f = some other ∧ other.name ≠ target.name

/-- The declaration of the field that nothing hides has a type with a size. -/
def FindsField (p : Program) (target : MemberRef) : Prop :=
  ∃ decl, p.ShowsField target decl ∧ ∃ n, p.types.HasSize decl.type n

/-- A field is there, and has another name than a second one that is there too. -/
def FieldsApart (first second : Option FieldDecl) : Prop :=
  ∃ f, first = some f ∧ ∀ f' ∈ second, f.name ≠ f'.name

/-- No two types have one name, and no two fields of a type; no field is left out in front of
another one. -/
structure NamesApart (p : Program) : Prop where
  types : (Rows.items p.decls).Pairwise fun d d' => d.name ≠ d'.name
  fields : ∀ d ∈ Rows.items p.decls, (Rows.items d.fields).Pairwise FieldsApart

variable {p : Program} {target : MemberRef} {decl : FieldDecl}

/-- A reference finds the declaration that nothing hides. -/
theorem field?_eq_some_iff : p.field? target = some decl ↔ p.ShowsField target decl := by
  have hdecls : (p.indexedDecls.map (·.2)) = Rows.items p.decls := by
    refine List.ext_getElem? fun i => ?_
    rw [indexedDecls, List.getElem?_map, List.getElem?_mapIdx, Option.map_map]
    exact congrFun Option.map_id _
  have htype : (p.type? target.type).map (·.2)
      = (Rows.items p.decls).find? (·.name == target.type) := by
    rw [← hdecls, List.find?_map]
    rfl
  have hfield : p.field? target
      = ((p.type? target.type).map (·.2)).bind (·.field? target.name) := by
    rw [Option.bind_map]
    rfl
  have hother (f : Option FieldDecl) : (!f.all (·.name == target.name)) = true
      ↔ ∃ other, f = some other ∧ other.name ≠ target.name := by
    cases f <;> simp
  rw [hfield, htype]
  simp only [Option.bind_eq_some_iff, TypeDecl.field?, TypeDecl.fieldStop?, Option.join_eq_some_iff,
    List.find?_eq_some_iff_append, Option.all_some, beq_iff_eq, hother, Bool.not_eq_true',
    beq_eq_false_iff_ne, ShowsField]
  constructor
  · rintro ⟨d, ⟨hname, before, after, hsplit, hbefore⟩, hdecl, front, back, hfields, hfront⟩
    exact ⟨d, before, after, hsplit, hname, hbefore, front, back, hfields, hdecl, hfront⟩
  · rintro ⟨d, before, after, hsplit, hname, hbefore, front, back, hfields, hdecl, hfront⟩
    exact ⟨d, ⟨hname, before, after, hsplit, hbefore⟩, hdecl, front, back, hfields, hfront⟩

theorem ShowsField.declares (h : p.ShowsField target decl) : p.DeclaresField target decl := by
  obtain ⟨d, before, after, hsplit, hname, -, front, back, hfields, hdecl, -⟩ := h
  exact ⟨d, by simp [hsplit], hname, by simp [hfields], hdecl⟩

/-- Where names are told apart, nothing hides a declaration. -/
theorem DeclaresField.shows (hp : p.NamesApart) (h : p.DeclaresField target decl) :
    p.ShowsField target decl := by
  obtain ⟨d, hd, hname, hf, hdecl⟩ := h
  obtain ⟨before, after, hsplit⟩ := List.append_of_mem hd
  obtain ⟨front, back, hfields⟩ := List.append_of_mem hf
  have htypes := hp.types
  have hapart := hp.fields d hd
  rw [hsplit, List.pairwise_append] at htypes
  rw [hfields, List.pairwise_append] at hapart
  refine ⟨d, before, after, hsplit, hname, fun d' hd' => ?_, front, back, hfields, hdecl,
    fun f hf' => ?_⟩
  · rw [← hname]
    exact htypes.2.2 d' hd' d List.mem_cons_self
  · obtain ⟨other, rfl, hother⟩ := hapart.2.2 f hf' (some decl) List.mem_cons_self
    exact ⟨other, rfl, hdecl ▸ hother decl rfl⟩

theorem HasField.finds (hp : p.NamesApart) (h : p.HasField target) : p.FindsField target := by
  obtain ⟨decl, hdecl, hsize⟩ := h
  exact ⟨decl, hdecl.shows hp, hsize⟩

theorem FindsField.has (h : p.FindsField target) : p.HasField target := by
  obtain ⟨decl, hdecl, hsize⟩ := h
  exact ⟨decl, hdecl.declares, hsize⟩

end Program

namespace Emit

open Work

/-- What messages about static fields start with. -/
def ofStaticField : Bytes := "static field "

/-- What is said of a field that has no slot. -/
def noSlot (target : MemberRef) : Bytes := ofStaticField ++ target.text ++ " has no slot"

/-- What is said of a field whose type has no machine type. -/
def noKeyword (target : MemberRef) (typeName : Bytes) : Bytes :=
  ofStaticField ++ target.text ++ " has unsupported type " ++ typeName

/-- If a warning says that a field has no slot, then one of the expressions is why: it is where the
warning is, and it reads or writes a static field of this name that has no declaration or no size,
or whose declaration another one hides. Names are any bytes, so the text may also be that of a field
of an unsupported type. -/
def Justified (p : Program) (exprs : List Expr) (d : Diagnostic) : Prop :=
  d.code = .untranslatable → ∀ target, d.message = noSlot target →
    ∃ e ∈ exprs, e.span = d.span ∧ ∃ target', e.staticField? = some target'
      ∧ (target'.text = target.text ∧ ¬p.FindsField target'
        ∨ ∃ type typeName, p.types.name? type = some typeName
          ∧ d.message = noKeyword target' typeName)

/-- An expression of the list whose strings and fields have slots. -/
def Told (p : Program) (a : Arena) (exprs : List Expr) (x : Node) : Prop :=
  ∀ e, x = .expr e → e ∈ exprs ∧ a.Serves p e

variable {env : Env} {exprs : List Expr}

/-- The work never fails for want of a slot, and its warnings are justified. -/
abbrev Honest (env : Env) (exprs : List Expr) {α : Type} (act : Work α) : Prop :=
  Reports (Justified env.program exprs) .missingSlot act

/-- A message with another start is not about static fields. -/
theorem justified_of_start {p : Program} {d : Diagnostic} (start : Bytes)
    (hmessage : start <+: d.message)
    (h : ofStaticField.take start.length ≠ start.take ofStaticField.length) :
    Justified p exprs d := by
  intro _ target htarget
  refine absurd ?_ h
  obtain ⟨rest, hmessage⟩ := hmessage
  have hsame : start ++ rest = ofStaticField ++ (target.text ++ " has no slot") := by
    rw [hmessage, htarget, noSlot, List.append_assoc]
  have htake := congrArg (List.take (min start.length ofStaticField.length)) hsame
  rw [List.take_append_of_le_length (Nat.min_le_left _ _),
    List.take_append_of_le_length (Nat.min_le_right _ _)] at htake
  rcases Nat.le_total start.length ofStaticField.length with hle | hle
  · rw [Nat.min_eq_left hle, List.take_length] at htake
    rw [← htake, List.take_of_length_le hle]
  · rw [Nat.min_eq_right hle, List.take_length] at htake
    rw [htake, List.take_of_length_le hle]

/-- No kind of expression is named like a message about static fields. -/
theorem kindName_ne (k : UInt8) : ofStaticField.take (Expr.kindName k).length
    ≠ (Expr.kindName k).take ofStaticField.length := by
  unfold Expr.kindName
  split <;> decide

theorem honest_report_of_code {code : Code} {e : Expr} {message : Bytes}
    (h : code ≠ .untranslatable) : Honest env exprs (env.report code e message) :=
  reports_bind (reports_warn (fun hcode => absurd hcode h) rfl) fun _ => reports_pure _

theorem honest_report {code : Code} {e : Expr} {message : Bytes}
    (h : Justified env.program exprs
      { Diagnostic.caution code e.span message with member := env.member }) :
    Honest env exprs (env.report code e message) :=
  reports_bind (reports_warn h rfl) fun _ => reports_pure _

/-- Something that is not translated, with a message that has another start. -/
theorem honest_untranslatable {e : Expr} {message : Bytes} (start : Bytes)
    (hmessage : start <+: message)
    (h : ofStaticField.take start.length ≠ start.take ofStaticField.length) :
    Honest env exprs (env.untranslatable e message) :=
  honest_report (justified_of_start start hmessage h)

/-- The same with a message about a type. Without an end to the name of the type there is none. -/
theorem honest_untranslatableType {e : Expr} {message : Option Bytes} (start : Bytes)
    (hmessage : ∀ text, message = some text → start <+: text)
    (h : ofStaticField.take start.length ≠ start.take ofStaticField.length) :
    Honest env exprs (env.untranslatableType e message) :=
  reports_bind_of_comes (reports_need (by decide) _ _) fun text htext =>
    honest_untranslatable start (hmessage text (comes_need htext)) h

theorem honest_error {α : Type} {act : Work Form} (h : Honest env exprs act) :
    Honest env exprs (do return (.error (← act) : Except Form α)) :=
  reports_bind h fun _ => reports_pure _

theorem honest_some {act : Work Form} (h : Honest env exprs act) :
    Honest env exprs (do return some (← act)) :=
  reports_bind h fun _ => reports_pure _

theorem honest_stringRef {e : Expr} {content : Bytes} (h : (env.arena.string? content).isSome) :
    Honest env exprs (stringRef env e content) := by
  obtain ⟨s, hs⟩ := Option.isSome_iff_exists.mp h
  unfold stringRef
  rw [hs]
  exact reports_pure _

theorem honest_literal {a : Annot} {l : Literal}
    (h : env.arena.Serves env.program (.literal a l)) :
    Honest env exprs (literal env (.literal a l) l) := by
  have hmissing : (l.kind = .null ∨ l.kind = .default) → Honest env exprs
      (if env.types.isString a.type then stringRef env (.literal a l) []
        else pure (Instruction.intConst (keywordOr env a.type) 0)) := by
    intro hkind
    refine reports_ite (fun hstring => honest_stringRef (h.string [] ?_)) fun _ => reports_pure _
    have hnot : l.kind ≠ .string := by rcases hkind with hkind | hkind <;> rw [hkind] <;> decide
    simp only [Expr.stringContent?, if_neg hnot]
    exact if_pos ⟨hkind, hstring⟩
  unfold literal
  split
  · rename_i hkind
    exact honest_stringRef (h.string _ (by simp only [Expr.stringContent?, if_pos hkind]))
  · rename_i hkind
    exact hmissing (.inl hkind)
  · rename_i hkind
    exact hmissing (.inr hkind)
  · exact reports_pure _
  · exact reports_pure _
  · exact reports_pure _
  · simp only
    split <;> exact reports_pure _
  · exact honest_untranslatable "unknown literal kind" List.prefix_rfl (by decide)

theorem honest_variable (e : Expr) (name : Bytes) : Honest env exprs (variable_ env e name) := by
  unfold variable_
  simp only
  split
  · exact reports_pure _
  · split
    · exact honest_untranslatable "variable " (by simp [List.append_assoc]) (by decide)
    · split
      · exact reports_pure _
      · refine honest_untranslatableType "variable " (fun text htext => ?_) (by decide)
        obtain ⟨typeName, -, rfl⟩ := Option.map_eq_some_iff.mp htext
        simp [List.append_assoc]

theorem honest_callTarget (e : Expr) (ref : MemberRef) (params : Option (List TypeId)) :
    Honest env exprs (callTarget env e ref params) := by
  unfold callTarget
  split
  · exact honest_error (honest_report_of_code (by decide))
  · split
    · exact honest_error (honest_report_of_code (by decide))
    · split
      · exact honest_error (honest_untranslatable "the entry point cannot be called"
          List.prefix_rfl (by decide))
      · exact reports_pure _

theorem honest_callWith (e : Expr) (ref : MemberRef) (args : List (Option Form)) :
    Honest env exprs (callWith env e ref args) := by
  refine reports_bind (honest_callTarget e ref none) fun r => ?_
  cases r <;> exact reports_pure _

/-- A field without a slot has no declaration or no size. -/
theorem honest_fieldSlot {a : Annot} {target : MemberRef} {isStatic : Bool} {receiver : Expr}
    (h : Told env.program env.arena exprs (.expr (.field a target isStatic receiver))) :
    Honest env exprs (fieldSlot env (.field a target isStatic receiver) target isStatic receiver)
    := by
  obtain ⟨hmem, hserves⟩ := h _ rfl
  unfold fieldSlot
  refine reports_ite (fun _ => ?_) fun hstatic => ?_
  · exact honest_error (honest_untranslatable "instance field " (by simp [List.append_assoc])
      (by decide))
  · have hfield : (Expr.field a target isStatic receiver).staticField? = some target := by
      cases isStatic with
      | true => rfl
      | false => exact absurd rfl hstatic
    split
    · rename_i hslot
      refine honest_error (honest_report fun _ target' htarget => ?_)
      refine ⟨_, hmem, rfl, target, hfield, .inl ⟨?_, ?_⟩⟩
      · exact List.append_cancel_left (List.append_cancel_right htarget)
      · rintro ⟨decl, hdecl, hsize⟩
        have hsome := hserves.field target decl hfield (Program.field?_eq_some_iff.mpr hdecl) hsize
        rw [hslot] at hsome
        cases hsome
    · split
      · rename_i slot _ _ _
        refine honest_error
          (reports_bind_of_comes (reports_need (by decide) _ _) fun text htext => ?_)
        obtain ⟨typeName, hname, rfl⟩ := Option.map_eq_some_iff.mp (comes_need htext)
        refine honest_report fun _ _ _ => ?_
        exact ⟨_, hmem, rfl, target, hfield, .inr ⟨slot.type, typeName, hname, rfl⟩⟩
      · exact reports_pure _

theorem honest_fieldLoad {a : Annot} {target : MemberRef} {isStatic : Bool} {receiver : Expr}
    (h : Told env.program env.arena exprs (.expr (.field a target isStatic receiver))) :
    Honest env exprs (fieldLoad env (.field a target isStatic receiver) target isStatic receiver)
    := by
  refine reports_bind (honest_fieldSlot h) fun r => ?_
  cases r <;> exact reports_pure _

theorem honest_fieldStore {a : Annot} {target : MemberRef} {isStatic : Bool} {receiver : Expr}
    (h : Told env.program env.arena exprs (.expr (.field a target isStatic receiver)))
    (value : Option Form) :
    Honest env exprs
      (fieldStore env (.field a target isStatic receiver) target isStatic receiver value) := by
  refine reports_bind (honest_fieldSlot h) fun r => ?_
  cases r <;> exact reports_pure _

theorem honest_instanceProperty (e : Expr) (target : MemberRef) :
    Honest env exprs (instanceProperty env e target) :=
  honest_report_of_code (by decide)

theorem honest_storeVariable (a : Annot) (name : Bytes) (isParam : Bool) (value : Option Form) :
    Honest env exprs (store env (.variable a name isParam) value) := by
  unfold store
  refine reports_ite (fun _ => reports_pure _) fun _ => ?_
  exact honest_untranslatable "variable " (by simp [List.append_assoc]) (by decide)

theorem honest_store {target : Expr}
    (h : target.Each (Told env.program env.arena exprs)) (value : Option Form) :
    Honest env exprs (store env target value) := by
  unfold store
  split
  · exact honest_storeVariable _ _ _ value
  · exact honest_fieldStore (Expr.each_field.mp h).1 value
  · refine reports_ite (fun _ => honest_instanceProperty _ _) fun _ => ?_
    refine reports_ite (fun _ => reports_problem (by decide) _ _) fun _ => ?_
    exact honest_callWith _ _ _
  · exact reports_throw (.of_crash (by decide) _)
  · exact reports_problem (by decide) _ _

theorem honest_operation (e : Expr) (op : BinaryOp) (left : TypeId) :
    Honest env exprs (operation env e op left) := by
  unfold operation
  simp only
  split
  · refine honest_error (honest_untranslatableType "operator " (fun text htext => ?_) (by decide))
    obtain ⟨typeName, -, rfl⟩ := Option.map_eq_some_iff.mp htext
    simp [List.append_assoc]
  · refine reports_ite (fun _ => ?_) fun _ => ?_
    · exact honest_error
        (honest_untranslatable "string operator " (by simp [List.append_assoc]) (by decide))
    · split
      · exact honest_error
          (honest_untranslatable "operator " (by simp [List.append_assoc]) (by decide))
      · exact reports_pure _

theorem honest_unaryOn (e : Expr) (op : UnaryOp) (kw : Keyword) (x : Option Form) :
    Honest env exprs (unaryOn env e op kw x) := by
  have hnone : Honest env exprs (do
      return some (← env.untranslatable e
        ("operator " ++ op.token ++ " on " ++ kw.text ++ " is not supported"))) := by
    exact honest_some (honest_untranslatable "operator " (by simp [List.append_assoc]) (by decide))
  unfold unaryOn
  cases op with
  | plus => exact reports_pure _
  | neg => exact reports_ite (fun _ => reports_pure _) fun _ => reports_pure _
  | not => exact reports_ite (fun _ => hnone) fun _ => reports_pure _
  | bitNot => exact reports_ite (fun _ => hnone) fun _ => reports_pure _
  | _ => exact hnone

theorem honest_increment {op : UnaryOp} {target : Expr} {kw : Keyword} {wantValue : Bool}
    {current : Option Form} (h : target.Each (Told env.program env.arena exprs)) :
    Honest env exprs (increment env op target kw wantValue current) := by
  unfold increment
  refine reports_bind (honest_store h _) fun _ => ?_
  split <;> exact reports_pure _

theorem honest_heapCheck (span : Span) (offset count : Int64) (expected : Bytes)
    (fromFile : Bool) : Honest env exprs (heapCheck span offset count expected fromFile) := by
  unfold heapCheck
  refine reports_ite (fun _ => reports_pure _) fun _ => ?_
  split
  · exact reports_pure _
  · exact reports_problem (by decide) _ _

mutual

theorem honest_expr (wantValue : Bool) :
    ∀ e : Expr, e.Each (Told env.program env.arena exprs) →
      Honest env exprs (expr env wantValue e)
  | .missing, _ => reports_pure _
  | .literal a l, h => by
    unfold expr
    exact honest_some (honest_literal (Expr.each_literal.mp h _ rfl).2)
  | .variable _ name _, _ => by
    unfold expr
    exact honest_some (honest_variable _ name)
  | .binary a op left right, h => by
    obtain ⟨-, hleft, hright⟩ := Expr.each_binary.mp h
    have hl := honest_expr true left hleft
    have hr := honest_expr true right hright
    unfold expr
    refine reports_ite (fun _ => ?_) fun _ => ?_
    · exact reports_bind hr fun _ => honest_some (honest_store hleft _)
    refine reports_ite (fun _ => ?_) fun _ => ?_
    · refine reports_bind (reports_lookAt (by decide) left) fun _ => ?_
      refine reports_bind (honest_operation _ _ _) fun r => ?_
      cases r with
      | error placeholder => exact honest_some (honest_store hleft _)
      | ok _ =>
        refine reports_bind hl fun _ => reports_bind hr fun _ => ?_
        exact reports_bind (reports_lookAtIf (by decide) _ right) fun _ =>
          honest_some (honest_store hleft _)
    refine reports_ite (fun _ => ?_) fun _ => ?_
    · exact reports_bind hl fun _ => reports_bind hr fun _ => reports_pure _
    refine reports_ite (fun _ => ?_) fun _ => ?_
    · exact reports_bind hl fun _ => reports_bind hr fun _ => reports_pure _
    · refine reports_bind (reports_lookAt (by decide) left) fun _ => ?_
      refine reports_bind (honest_operation _ _ _) fun r => ?_
      cases r with
      | error placeholder => exact reports_pure _
      | ok _ =>
        refine reports_bind hl fun _ => reports_bind hr fun _ => ?_
        exact reports_bind (reports_lookAtIf (by decide) _ right) fun _ => reports_pure _
  | .unary _ op x, h => by
    obtain ⟨-, hx⟩ := Expr.each_unary.mp h
    unfold expr
    refine reports_bind (reports_lookAt (by decide) x) fun _ => ?_
    split
    · refine reports_ite (fun _ => honest_some ?_) fun _ => honest_some ?_
      · refine honest_untranslatableType "increment of " (fun text htext => ?_) (by decide)
        obtain ⟨typeName, -, rfl⟩ := Option.map_eq_some_iff.mp htext
        simp
      · refine honest_untranslatableType "operator " (fun text htext => ?_) (by decide)
        obtain ⟨typeName, -, rfl⟩ := Option.map_eq_some_iff.mp htext
        simp [List.append_assoc]
    · refine reports_bind (honest_expr true x hx) fun _ => ?_
      refine reports_ite (fun _ => ?_) fun _ => honest_unaryOn _ _ _ _
      exact honest_some (honest_increment hx)
  | .call _ target params isStatic receiver args, h => by
    obtain ⟨-, -, hargs⟩ := Expr.each_call.mp h
    unfold expr
    refine reports_ite (fun _ => honest_some (honest_report_of_code (by decide))) fun _ => ?_
    refine reports_bind (honest_callTarget _ _ _) fun r => ?_
    cases r with
    | error placeholder => exact reports_pure _
    | ok name => exact reports_bind (honest_exprRows args hargs) fun _ => reports_pure _
  | .field a target isStatic receiver, h => by
    unfold expr
    exact honest_some (honest_fieldLoad (Expr.each_field.mp h).1)
  | .property _ target getter setter isStatic receiver, _ => by
    unfold expr
    refine reports_ite (fun _ => honest_some (honest_instanceProperty _ _)) fun _ => ?_
    exact honest_some (honest_callWith _ _ _)
  | .cast a x, h => by
    obtain ⟨-, hx⟩ := Expr.each_cast.mp h
    unfold expr
    refine reports_bind (reports_lookAt (by decide) x) fun _ => ?_
    refine reports_bind (honest_expr true x hx) fun _ => ?_
    refine reports_ite (fun _ => reports_pure _) fun _ => ?_
    split
    · exact reports_pure _
    · refine honest_some
        (honest_untranslatableType "cast from " (fun text htext => ?_) (by decide))
      obtain ⟨source, -, htext⟩ := Option.bind_eq_some_iff.mp htext
      obtain ⟨result, -, htext⟩ := Option.bind_eq_some_iff.mp htext
      obtain rfl := Option.some.inj htext
      simp [List.append_assoc]
  | .reference _ x, h => by
    obtain ⟨-, hx⟩ := Expr.each_reference.mp h
    unfold expr
    refine reports_ite (fun _ => honest_expr true x hx) fun _ => ?_
    exact honest_some (honest_untranslatable "references to non-constant values are not supported"
      List.prefix_rfl (by decide))
  | .comma _ xs, h => by
    obtain ⟨-, hxs⟩ := Expr.each_comma.mp h
    unfold expr
    refine reports_bind (honest_commaRows xs hxs) fun parts => ?_
    split <;> exact reports_pure _
  | .conditional _ c x y, h => by
    obtain ⟨-, hc, hx, hy⟩ := Expr.each_conditional.mp h
    unfold expr
    refine reports_bind (honest_expr true c hc) fun _ => ?_
    refine reports_bind (honest_expr true x hx) fun _ => ?_
    exact reports_bind (honest_expr true y hy) fun _ => reports_pure _
  | .memory _ isStore target aligned address value, h => by
    obtain ⟨-, haddress, hvalue⟩ := Expr.each_memory.mp h
    unfold expr
    refine reports_bind (honest_expr true address haddress) fun _ => ?_
    refine reports_ite (fun _ => ?_) fun _ => reports_pure _
    exact reports_bind (honest_expr true value hvalue) fun _ => reports_pure _
  | .stringLength _ s, h => by
    obtain ⟨-, hs⟩ := Expr.each_stringLength.mp h
    unfold expr
    exact reports_bind (honest_expr true s hs) fun _ => reports_pure _
  | .intrinsic _ op args, h => by
    obtain ⟨-, hargs⟩ := Expr.each_intrinsic.mp h
    unfold expr
    exact reports_bind (honest_exprRows args hargs) fun _ => reports_pure _
  | .invoke _ name args, h => by
    obtain ⟨-, hargs⟩ := Expr.each_invoke.mp h
    unfold expr
    exact reports_bind (honest_exprRows args hargs) fun _ => reports_pure _
  | .assertion _ isEq expected name args, h => by
    obtain ⟨-, hexpected, hargs⟩ := Expr.each_assertion.mp h
    unfold expr
    refine reports_bind (honest_exprRows args hargs) fun _ => ?_
    refine reports_bind (honest_expr true expected hexpected) fun _ => ?_
    exact reports_ite (fun _ => reports_pure _) fun _ => reports_pure _
  | .assertHeap a offset count expected fromFile, _ => by
    unfold expr
    exact honest_some (honest_heapCheck _ _ _ _ _)
  | .harnessCall _ op args, h => by
    obtain ⟨-, hargs⟩ := Expr.each_harnessCall.mp h
    unfold expr
    exact reports_bind (honest_exprRows args hargs) fun _ => reports_pure _
  | .bare a k, _ => by
    unfold expr
    refine honest_some (honest_untranslatable (Expr.kindName k) (List.prefix_append _ _) ?_)
    exact kindName_ne k
  | .arrayInit a elem size elements hasInit, _ => by
    unfold expr
    refine honest_some (honest_untranslatable (Expr.kindName _) (List.prefix_append _ _) ?_)
    exact kindName_ne _

theorem honest_exprRows :
    ∀ rows : Option (List Expr), Expr.EachRow (Told env.program env.arena exprs) rows →
      Honest env exprs (exprRows env rows)
  | none, _ => reports_pure _
  | some l, h => honest_exprs l h

theorem honest_exprs :
    ∀ l : List Expr, Expr.EachOf (Told env.program env.arena exprs) l →
      Honest env exprs (Emit.exprs env l)
  | [], _ => reports_pure _
  | e :: rest, h => by
    obtain ⟨he, hrest⟩ := Expr.eachOf_cons.mp h
    unfold Emit.exprs
    refine reports_bind (honest_expr true e he) fun _ => ?_
    exact reports_bind (honest_exprs rest hrest) fun _ => reports_pure _

theorem honest_commaRows :
    ∀ rows : Option (List Expr), Expr.EachRow (Told env.program env.arena exprs) rows →
      Honest env exprs (commaRows env rows)
  | none, _ => reports_pure _
  | some l, h => honest_commaParts l h

theorem honest_commaParts :
    ∀ l : List Expr, Expr.EachOf (Told env.program env.arena exprs) l →
      Honest env exprs (commaParts env l)
  | [], _ => reports_pure _
  | e :: rest, h => by
    obtain ⟨he, hrest⟩ := Expr.eachOf_cons.mp h
    unfold commaParts
    refine reports_bind (reports_lookAtIf (by decide) _ e) fun _ => ?_
    refine reports_bind (honest_expr _ e he) fun _ => ?_
    exact reports_bind (honest_commaParts rest hrest) fun _ => reports_pure _

end

theorem honest_guard {cond : Expr} (h : cond.Each (Told env.program env.arena exprs))
    (index : LoopIndex) : Honest env exprs (guard env cond index) := by
  unfold guard
  refine reports_ite (fun _ => reports_pure _) fun _ => ?_
  exact reports_bind (honest_expr true cond h) fun _ => reports_pure _

theorem honest_effects : ∀ l : List Expr, (∀ e ∈ l, e.Each (Told env.program env.arena exprs)) →
    Honest env exprs (effects env l)
  | [], _ => reports_pure _
  | e :: rest, h => by
    obtain ⟨he, hrest⟩ := List.forall_mem_cons.mp h
    unfold effects
    refine reports_bind (reports_lookAt (by decide) e) fun _ => ?_
    refine reports_bind (honest_expr false e he) fun _ => ?_
    exact reports_bind (honest_effects rest hrest) fun _ => reports_pure _

theorem honest_varInits :
    ∀ l : List VarInit, (∀ v ∈ l, v.init.Each (Told env.program env.arena exprs)) →
      Honest env exprs (varInits env l)
  | [], _ => reports_pure _
  | v :: rest, h => by
    obtain ⟨hv, hrest⟩ := List.forall_mem_cons.mp h
    have hmore := honest_varInits rest hrest
    unfold varInits
    refine reports_ite (fun _ => hmore) fun _ => ?_
    refine reports_bind (honest_expr true v.init hv) fun _ => ?_
    refine reports_bind (honest_storeVariable _ _ _ _) fun _ => ?_
    exact reports_bind hmore fun _ => reports_pure _

theorem honest_caseValues (l : List Expr) : Honest env exprs (caseValues l) := by
  induction l with
  | nil => exact reports_pure _
  | cons e rest ih =>
    unfold caseValues
    split
    · exact reports_bind (reports_lookAt (by decide) e) fun _ => reports_problem (by decide) _ _
    · exact reports_bind ih fun _ => reports_pure _

theorem isError_checkLabels {labels : LabelTable} {span : Span} {group : Nat} {f : Failure}
    (index : Nat) (l : List Label) (h : checkLabels labels span group index l = .error f) :
    f.IsError .missingSlot := by
  induction l generalizing index with
  | nil => cases h
  | cons x rest ih =>
    unfold checkLabels at h
    simp only at h
    split at h
    · exact ih _ h
    · obtain rfl := Except.error.inj h
      exact .of_code (by decide) _ _

theorem honest_gotoLine (labels : LabelTable) (nest : Nest) (span : Span) (label : Bytes) :
    Honest env exprs (gotoLine labels nest span label) := by
  unfold gotoLine
  split
  · exact reports_problem (by decide) _ _
  · refine reports_ite (fun _ => reports_pure _) fun _ => ?_
    exact reports_problem (by decide) _ _

theorem honest_branchLine (nest : Nest) (span : Span) (isContinue : Bool) (target : LoopIndex) :
    Honest env exprs (branchLine nest span isContinue target) := by
  unfold branchLine
  simp only
  split
  · exact reports_pure _
  · exact reports_problem (by decide) _ _

section

variable {labels : LabelTable}

/-- The same of writing statements. -/
abbrev HonestlyTells (env : Env) (exprs : List Expr) {α : Type} (act : StmtM α) : Prop :=
  Tells (Justified env.program exprs) .missingSlot act

mutual

theorem tells_stmt (nest : Nest) (shape : Shape) :
    ∀ s : Stmt, s.Each (Told env.program env.arena exprs) →
      HonestlyTells env exprs (stmt env labels nest shape s)
  | .missing, _ => tells_pure _
  | .block _ rows, h => tells_blockRows nest shape rows (Stmt.each_block.mp h).2
  | .expr _ e, h => by
    unfold stmt
    refine tells_bind (tells_work (reports_lookAt (by decide) e)) fun _ => ?_
    refine tells_bind (tells_work (honest_expr false e (Stmt.each_expr.mp h).2)) fun x => ?_
    cases x <;> exact tells_pure _
  | .ite _ cond yes no, h => by
    obtain ⟨-, hcond, hyes, hno⟩ := Stmt.each_ite.mp h
    unfold stmt
    refine tells_bind (tells_work (honest_expr true cond hcond)) fun _ => ?_
    refine tells_bind (tells_stmt nest .arm yes hyes) fun _ => ?_
    refine tells_ite (fun _ => ?_) fun _ => ?_
    · exact tells_bind (tells_pure _) fun _ => tells_pure _
    · exact tells_bind (tells_stmt nest .arm no hno) fun _ => tells_pure _
  | .forLoop m own init cond post body, h => by
    obtain ⟨-, hinit, hcond, hbody, hpost⟩ := Stmt.each_forLoop.mp h
    unfold stmt
    refine tells_bind (tells_stmtRows nest init hinit) fun _ => ?_
    refine tells_bind (tells_indexOf m own) fun index => ?_
    refine tells_bind (tells_work (honest_guard hcond index)) fun _ => ?_
    refine tells_bind (tells_stmt _ .body body hbody) fun _ => ?_
    have heffects := honest_effects _ (Expr.eachRow_iff.mp hpost)
    exact tells_bind (tells_work heffects) fun _ => tells_pure _
  | .whileLoop m testLast own cond body, h => by
    obtain ⟨-, hcond, hbody⟩ := Stmt.each_whileLoop.mp h
    unfold stmt
    refine tells_bind (tells_indexOf m own) fun index => ?_
    refine tells_ite (fun _ => ?_) fun _ => ?_
    · refine tells_bind (tells_stmt _ .body body hbody) fun _ => ?_
      exact tells_bind (tells_work (honest_guard hcond index)) fun _ => tells_pure _
    · refine tells_bind (tells_work (honest_guard hcond index)) fun _ => ?_
      exact tells_bind (tells_stmt _ .body body hbody) fun _ => tells_pure _
  | .labelGroup m rows, h => by
    unfold stmt
    split
    · exact tells_throw (.of_code (by decide) _ _)
    · refine tells_ite (fun _ => tells_pure _) fun _ => ?_
      refine tells_bind (tells_work (reports_result fun f => isError_checkLabels _ _)) fun _ => ?_
      refine tells_bind (tells_sectionRows _ _ rows (Stmt.each_labelGroup.mp h).2) fun _ => ?_
      exact tells_pure _
  | .goto m label, _ => tells_work (honest_gotoLine labels nest m.span label)
  | .branch m isContinue target, _ => tells_work (honest_branchLine nest m.span isContinue target)
  | .ret _ value, h => by
    unfold stmt
    refine tells_ite (fun _ => tells_pure _) fun _ => ?_
    refine tells_bind (tells_work (honest_expr true value (Stmt.each_ret.mp h).2)) fun _ => ?_
    exact tells_pure _
  | .switch m own key cases, h => by
    obtain ⟨-, hkey, hcases⟩ := Stmt.each_switch.mp h
    unfold stmt
    refine tells_bind (tells_work (honest_expr true key hkey)) fun _ => ?_
    refine tells_bind (tells_work (reports_lookAt (by decide) key)) fun _ => ?_
    split
    · refine tells_bind (tells_work (reports_need (by decide) _ _)) fun _ => ?_
      exact tells_throw (.of_code (by decide) _ _)
    · refine tells_bind (tells_indexOf m own) fun index => ?_
      refine tells_bind (tells_caseRows _ _ false cases hcases) fun _ => ?_
      exact tells_bind (tells_caseRows _ _ true cases hcases) fun _ => tells_pure _
  | .varDecl _ vars, h => by
    unfold stmt
    exact tells_bind (tells_work (honest_varInits _ (Stmt.each_varDecl.mp h).2)) fun _ =>
      tells_pure _
  | .bare m kind, _ => by
    unfold stmt
    refine tells_bind (tells_work (reports_warn ?_ rfl)) fun _ => tells_pure _
    exact justified_of_start "statement " (by simp [Diagnostic.caution, List.append_assoc])
      (by decide)

theorem tells_blockRows (nest : Nest) (shape : Shape) :
    ∀ rows : Option (List Stmt), Stmt.EachRow (Told env.program env.arena exprs) rows →
      HonestlyTells env exprs (blockRows env labels nest shape rows)
  | none, _ => tells_pure _
  | some l, h => tells_blockItems nest shape l h

theorem tells_blockItems (nest : Nest) (shape : Shape) :
    ∀ l : List Stmt, Stmt.EachOf (Told env.program env.arena exprs) l →
      HonestlyTells env exprs (blockItems env labels nest shape l)
  | [], _ => tells_pure _
  | s :: rest, h => by
    obtain ⟨hs, hrest⟩ := Stmt.eachOf_cons.mp h
    unfold blockItems
    refine tells_ite (fun _ => tells_stmt nest shape s hs) fun _ => ?_
    refine tells_bind (tells_stmt nest .plain s hs) fun _ => ?_
    exact tells_bind (tells_stmts nest rest hrest) fun _ => tells_pure _

theorem tells_stmtRows (nest : Nest) :
    ∀ rows : Option (List Stmt), Stmt.EachRow (Told env.program env.arena exprs) rows →
      HonestlyTells env exprs (stmtRows env labels nest rows)
  | none, _ => tells_pure _
  | some l, h => tells_stmts nest l h

theorem tells_stmts (nest : Nest) :
    ∀ l : List Stmt, Stmt.EachOf (Told env.program env.arena exprs) l →
      HonestlyTells env exprs (stmts env labels nest l)
  | [], _ => tells_pure _
  | s :: rest, h => by
    obtain ⟨hs, hrest⟩ := Stmt.eachOf_cons.mp h
    unfold stmts
    refine tells_bind (tells_stmt nest .plain s hs) fun _ => ?_
    exact tells_bind (tells_stmts nest rest hrest) fun _ => tells_pure _

theorem tells_sectionRows (nest : Nest) (group : Nat) :
    ∀ rows : Option (List Label), Label.EachRow (Told env.program env.arena exprs) rows →
      HonestlyTells env exprs (sectionRows env labels nest group rows)
  | none, _ => tells_pure _
  | some l, h => tells_sections nest group 0 l h

theorem tells_sections (nest : Nest) (group index : Nat) :
    ∀ l : List Label, Label.EachOf (Told env.program env.arena exprs) l →
      HonestlyTells env exprs (sections env labels nest group index l)
  | [], _ => tells_pure _
  | .mk _ body :: rest, h => by
    obtain ⟨hbody, hrest⟩ := Stmt.eachLabel_cons.mp h
    unfold sections
    refine tells_bind (tells_stmtRows nest body hbody) fun _ => ?_
    exact tells_bind (tells_sections nest group (index + 1) rest hrest) fun _ => tells_pure _

theorem tells_caseRows (nest : Nest) (span : Span) (wanted : Bool) :
    ∀ rows : Option (List Case), Case.EachRow (Told env.program env.arena exprs) rows →
      HonestlyTells env exprs (caseRows env labels nest span wanted rows)
  | none, _ => tells_pure _
  | some l, h => tells_cases nest span wanted l h

theorem tells_cases (nest : Nest) (span : Span) (wanted : Bool) :
    ∀ l : List Case, Case.EachOf (Told env.program env.arena exprs) l →
      HonestlyTells env exprs (cases env labels nest span wanted l)
  | [], _ => tells_pure _
  | .mk values isDefault body :: rest, h => by
    obtain ⟨-, hbody, hrest⟩ := Stmt.eachCase_cons.mp h
    have hmore := tells_cases nest span wanted rest hrest
    unfold cases
    refine tells_ite (fun _ => ?_) fun _ => hmore
    refine tells_ite (fun _ => tells_throw (.of_code (by decide) _ _)) fun _ => ?_
    refine tells_bind (tells_work (honest_caseValues _)) fun _ => ?_
    refine tells_bind (tells_stmtRows nest body hbody) fun _ => ?_
    exact tells_bind hmore fun _ => tells_pure _

end

theorem tells_rootLines {root : Stmt} (h : root.Each (Told env.program env.arena exprs)) :
    HonestlyTells env exprs (rootLines env labels root) := by
  unfold rootLines
  split
  · exact tells_stmtRows {} _ (Stmt.each_block.mp h).2
  · exact tells_stmt {} .plain _ h

end

/-- Code is written against other locals, but the same program and memory. -/
theorem honest_bodyLines {env' : Env} (hprogram : env'.program = env.program)
    (harena : env'.arena = env.arena) (labels : LabelTable) (next : LoopIndex) {root : Stmt}
    (h : root.Each (Told env.program env.arena exprs)) :
    Honest env exprs (bodyLines env' labels next root) := by
  rw [← hprogram, ← harena] at h
  rw [Honest, ← hprogram]
  exact reports_bind (tells_rootLines h _) fun _ => reports_pure _

theorem isError_addLabels {span : Span} {group : Nat} {f : Failure} (index : Nat) (l : List Label)
    (t : LabelTable) (h : LabelTable.addLabels span group index l t = .error f) :
    f.IsError .missingSlot := by
  induction l generalizing index t with
  | nil => cases h
  | cons x rest ih =>
    unfold LabelTable.addLabels at h
    split at h
    · obtain rfl := Except.error.inj h
      exact .of_code (by decide) _ _
    · exact ih _ _ h

theorem isError_ofBody {root : Stmt} {f : Failure} (h : LabelTable.ofBody root = .error f) :
    f.IsError .missingSlot := by
  have hfold : ∀ (nodes : List Node) (t : LabelTable),
      nodes.foldlM LabelTable.addNode t = .error f → f.IsError .missingSlot := by
    intro nodes
    induction nodes with
    | nil =>
      intro t h
      cases h
    | cons x rest ih =>
      intro t h
      rw [List.foldlM_cons] at h
      cases hadd : LabelTable.addNode t x with
      | ok t' =>
        rw [hadd] at h
        exact ih t' h
      | error f' =>
        rw [hadd] at h
        obtain rfl := Except.error.inj h
        unfold LabelTable.addNode at hadd
        split at hadd
        · exact isError_addLabels _ _ _ hadd
        · cases hadd
  exact hfold _ _ h

theorem honest_funcLines (next : LoopIndex) {b : Body}
    (h : b.root.Each (Told env.program env.arena exprs)) :
    Honest env exprs (funcLines env next b) := by
  refine reports_within (reports_inMember ?_)
  refine reports_bind (reports_result fun f => isError_ofBody) fun labels => ?_
  refine reports_bind (honest_bodyLines ?_ ?_ labels next h) fun _ => reports_pure _
  · rfl
  · rfl

theorem honest_funcsLines : ∀ (next : LoopIndex) (bodies : List Body),
    (∀ b ∈ bodies, b.root.Each (Told env.program env.arena exprs)) →
      Honest env exprs (funcsLines env next bodies)
  | _, [], _ => reports_pure _
  | next, b :: rest, h => by
    obtain ⟨hb, hrest⟩ := List.forall_mem_cons.mp h
    refine reports_bind (honest_funcLines next hb) fun (_, next) => ?_
    exact reports_bind (honest_funcsLines next rest hrest) fun _ => reports_pure _

theorem honest_entryLines (next : LoopIndex) (hasCtors : Bool) (entry : Body) {root : Stmt}
    (h : root.Each (Told env.program env.arena exprs)) :
    Honest env exprs (entryLines env next hasCtors entry root) := by
  refine reports_within (reports_inMember ?_)
  refine reports_bind (reports_result fun f => isError_ofBody) fun labels => ?_
  refine reports_bind (honest_bodyLines ?_ ?_ labels next h) fun _ => reports_pure _
  · rfl
  · rfl

theorem honest_findSkipped (p : Program) (entry : Option FuncId) :
    ∀ bodies : List Body, Reports (Justified p exprs) .missingSlot (findSkipped p entry bodies)
  | [] => reports_pure _
  | b :: rest => by
    have hmore := honest_findSkipped p entry rest
    unfold findSkipped
    split
    · exact hmore
    · refine reports_bind (reports_need (by decide) _ _) fun _ => ?_
      refine reports_bind (reports_warn (fun hcode => ?_) rfl) fun _ => ?_
      · exact absurd hcode (by decide : Code.skippedFunction ≠ Code.untranslatable)
      · exact reports_bind hmore fun _ => reports_pure _

end Emit

end WastForge
