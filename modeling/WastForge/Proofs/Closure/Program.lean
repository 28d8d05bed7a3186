import WastForge.Proofs.Closure.Code
import WastForge.Proofs.Emit.Accounts
import WastForge.Proofs.Emit.Instance
import WastForge.Proofs.Support.Complete

/-!
# Modules are closed

The functions of a module and the directives behind it refer to what the module declares, so a run
of the directives never traps because a name is missing. A few names are left: functions that calls
find though they are not part of the module, the length of a string where there is no memory, and
operations of the harness whose operands have no code. Only functions among them are ever missed.
-/

namespace WastForge

open Emit Control Script

/-- The name is that of a parameter or local of the function. -/
def Script.FuncText.Declares (t : FuncText) (name : Bytes) : Prop :=
  name ∈ t.params.map (·.1) ∨ name ∈ t.locals.map (·.1)

/-- What the items declare for code whose locals are those of `scope`. -/
def Script.Declared (items : List Item) (scope : Bytes → Prop) : Reference → Prop
  | .func name => name ∈ funcNames items
  | .import_ name operands =>
    ∃ module field params, Item.import_ name module field params ∈ items ∧ params.length = operands
  | .local_ name => scope name

namespace Program

/-- The node is part of a body of the expanded program. -/
def Expands (p : Program) (n : Node) : Prop :=
  ∃ x, Support.expand p = .ok x ∧ ∃ b ∈ x.bodies, n ∈ Node.all b.root

/-- What the module of a program may refer to without declaring it. -/
inductive Leaks (p : Program) (out : ModuleOutput) : Reference → Prop where
  /-- A function that is not worked on: its type has a static constructor before it. -/
  | unworked {b : Body} (hb : b ∈ p.functions) (hwork : b ∉ p.bodies) :
    Leaks p out (.func (Name.func b.func.ref))
  /-- The entry point, which is called before it runs if it is a static constructor as well. -/
  | entry {b : Body} (hb : p.entryPoint? = some b) (hctor : b.func.isStaticCtor = true) :
    Leaks p out (.func (Name.func b.func.ref))
  /-- The length of a string, if there is no memory. -/
  | length {a : Annot} {s : Expr} (hs : p.Expands (.expr (.stringLength a s)))
    (hmemory : out.memorySize = 0) : Leaks p out (.func Name.stringLength)
  /-- An operation of the harness of whose operands one has no code. -/
  | blank {a : Annot} {op : HarnessOp} {rows : Option (List Expr)} {x : Expr} {n : Nat}
    (hop : p.Expands (.expr (.harnessCall a op rows))) (hx : x ∈ Rows.items rows)
    (hblank : x.isBlank = true) (hn : n < op.arity) :
    Leaks p out (.import_ ("$" ++ op.importName) n)

end Program

namespace Emit

variable {tt : TypeTable} {f : Func} {groups : Nat} {body : List Form} {env : Env} {name : Bytes}

theorem mem_keys_of_lookup {β : Type} {l : List (Bytes × β)} (h : (l.lookup name).isSome) :
    name ∈ l.map (·.1) := by
  obtain ⟨v, hv⟩ := Option.isSome_iff_exists.mp h
  obtain ⟨front, back, rfl, -⟩ := List.lookup_eq_some_iff.mp hv
  simp

/-- What the body of a function may name is declared in its text. -/
theorem declares_funcText (hsupported : unsupportedSignature? env.types f = none)
    (h : (env.inside f).Declares name) :
    (funcText env.types f groups body).Declares (Name.local_ name) := by
  have hlocal := mem_keys_of_lookup (h.resolve_left (by exact Bool.false_ne_true))
  rw [List.map_append, List.map_map, List.mem_append] at hlocal
  rcases hlocal with hlocal | hparam
  · obtain ⟨d, hd, rfl⟩ := List.mem_map.mp hlocal
    refine .inr (List.mem_map.mpr ⟨(Name.local_ d.1.name, d.2), ?_, rfl⟩)
    exact List.mem_append_left _ (List.mem_map.mpr ⟨d, hd, rfl⟩)
  · rw [paramTypes, List.map_map] at hparam
    obtain ⟨p, hp, rfl⟩ := List.mem_map.mp hparam
    rw [List.mem_reverse] at hp
    obtain ⟨kw, hkw⟩ := Option.isSome_iff_exists.mp (isSome_of_supported hsupported p hp)
    refine .inl (List.mem_map.mpr ⟨(Name.local_ p.name, kw), ?_, rfl⟩)
    exact List.mem_filterMap.mpr ⟨p, hp, by rw [hkw]; rfl⟩

/-- The locals of the label groups are declared. -/
theorem declares_currentLabel {g : Nat} (h : g < groups) :
    (funcText tt f groups body).Declares (Name.currentLabel g) := by
  refine .inr (List.mem_map.mpr ⟨(Name.currentLabel g, .i32), ?_, rfl⟩)
  exact List.mem_append_right _ (List.mem_map.mpr ⟨g, List.mem_range.mpr h, rfl⟩)

end Emit
namespace Emission

variable {e : Emission} {out : ModuleOutput} {funcs directives : List Line} {texts : List FuncText}
  {scope : Bytes → Prop}

/-- The name is declared, or it is one that is left. -/
def Covers (e : Emission) (out : ModuleOutput) (texts : List FuncText) (scope : Bytes → Prop)
    (r : Reference) : Prop :=
  Declared (e.items texts) scope r ∨ e.program.Leaks out r

/-- The operations of the harness that are used are imported with their operands. -/
theorem declared_import (e : Emission) (texts : List FuncText) (scope : Bytes → Prop)
    {op : HarnessOp} (hop : op ∈ e.expanded.use.imports) :
    Declared (e.items texts) scope (.import_ ("$" ++ op.importName) op.arity) := by
  have hitem : importItem op ∈ e.items texts := by
    simp only [items, moduleItems, List.append_assoc]
    exact List.mem_append_left _ (List.mem_map_of_mem hop)
  refine ⟨_, _, _, hitem, ?_⟩
  unfold HarnessOp.arity
  split
  · rfl
  · split
    · rfl
    · rfl

theorem declared_func {t : FuncText} (ht : t ∈ (e.items texts).filterMap Item.func?) :
    Declared (e.items texts) scope (.func t.name) :=
  List.mem_map_of_mem ht

theorem declared_written (htexts : List.Forall₂ (IsText e.env) e.written texts) {b : Body}
    (hb : b ∈ e.written) : Declared (e.items texts) scope (.func (Name.func b.func.ref)) := by
  show _ ∈ funcNames (e.items texts)
  rw [funcNames_items htexts, functionNames]
  refine List.mem_append_left _ (List.mem_append_left _ ?_)
  exact List.mem_map.mpr ⟨b, hb, rfl⟩

/-- A function that is not left out is covered, whether it is worked on or not. -/
theorem Writes.covers_func (h : e.Writes out funcs directives)
    (htexts : List.Forall₂ (IsText e.env) e.written texts) {b : Body} (hb : b ∈ e.program.functions)
    (hkept : b.id ∉ e.program.leftOut) (hentry : e.entry.map (·.id) ≠ some b.id) :
    e.Covers out texts scope (.func (Name.func b.func.ref)) := by
  by_cases hwork : b ∈ e.program.bodies
  · obtain ⟨b', hb', -, hfunc⟩ := h.exists_written hwork hkept hentry
    rw [← hfunc]
    exact .inl (declared_written htexts hb')
  · exact .inr (.unworked hb hwork)

/-- The accessors of strings are part of a module with memory. -/
theorem declared_accessor (hmemory : (e.arena.total != 0) = true) {t : FuncText}
    (ht : t ∈ stringTexts e.arena) : Declared (e.items texts) scope (.func t.name) := by
  refine declared_func ?_
  rw [funcs_items, if_pos hmemory]
  exact List.mem_append_right _ (List.mem_append_left _ ht)

/-- The length of a string is covered, with or without memory. -/
theorem Writes.covers_length (h : e.Writes out funcs directives) {a : Annot} {s : Expr}
    (hs : e.program.Expands (.expr (.stringLength a s))) :
    e.Covers out texts scope (.func Name.stringLength) := by
  by_cases hmemory : (e.arena.total != 0) = true
  · refine .inl (declared_accessor (t := anyLengthText) hmemory ?_)
    exact List.mem_append_right _ (List.mem_singleton.mpr rfl)
  · refine .inr (.length hs ?_)
    rw [h.output]
    exact (memorySize_eq_zero hmemory).symm

/-- The import of an operation is covered, whichever of its operands have code. -/
theorem covers_import {a : Annot} {op : HarnessOp} {rows : Option (List Expr)}
    {args : List (Option Form)} (hop : op ∈ e.expanded.use.imports)
    (hlength : (Rows.items rows).length = op.arity)
    (hexpands : e.program.Expands (.expr (.harnessCall a op rows))) (hfills : Fills rows args) :
    e.Covers out texts scope (.import_ ("$" ++ op.importName) (args.filterMap id).length) := by
  by_cases hblank : ∃ x ∈ Rows.items rows, x.isBlank = true
  · obtain ⟨x, hx, hblank⟩ := hblank
    have hle := hfills.length_le
    rw [hlength] at hle
    rcases hle.lt_or_eq with hlt | heq
    · exact .inr (.blank hexpands hx hblank hlt)
    · rw [heq]
      exact .inl (e.declared_import texts scope hop)
  · have hfull : ∀ x ∈ Rows.items rows, x.isBlank = false := by simpa using hblank
    rw [hfills.length_eq hfull, hlength]
    exact .inl (e.declared_import texts scope hop)

/-- What expansion makes refers to instructions that name nothing, to operations that are imported,
and to the length of a string. -/
theorem Writes.refers_node (h : e.Writes out funcs directives) (hfront : e.program.IsFrontEnd)
    {b : Body} (hb : b ∈ e.expanded.bodies) :
    Stmt.Each (Node.Refers (e.Covers out texts scope)) b.root := by
  intro n hn
  have hmade := Support.made_of_expand h.expanded hfront b hb n hn
  have hexpands : e.program.Expands n := ⟨e.expanded, h.expanded, b, hb, hn⟩
  cases n with
  | stmt s => trivial
  | expr x =>
    cases x with
    | intrinsic a w args =>
      have hnone : ∀ w ∈ SupportMember.instructions, w ∉ naming := by decide
      exact hnone w hmade
    | stringLength a s => exact h.covers_length hexpands
    | harnessCall a op rows =>
      exact fun args hfills => covers_import hmade.1 hmade.2 hexpands hfills
    | _ => trivial

/-- Code refers to functions that are covered, to the accessors of strings, and to its locals. -/
theorem Writes.allows (h : e.Writes out funcs directives)
    (htexts : List.Forall₂ (IsText e.env) e.written texts) (member : Bytes)
    {locals : Option (List (Bytes × TypeId))}
    (hscope : ∀ name, (e.envAt member locals).Declares name → scope (Name.local_ name)) :
    (e.envAt member locals).Allows (e.Covers out texts scope) where
  callee ref params b hcallee hkept hentry := by
    have hb : b ∈ e.program.functions := by
      unfold callee? at hcallee
      split at hcallee
      · rename_i hfound
        obtain rfl := Option.some.inj hcallee
        exact Program.mem_functions_of_lookup hfound
      · split at hcallee
        · exact Program.mem_functions_of_lookup hcallee
        · cases hcallee
    exact h.covers_func htexts hb hkept hentry
  string content slot hslot := by
    have hmem : slot ∈ e.arena.strings := List.mem_of_find?_eq_some hslot
    refine .inl (declared_accessor (t := firstText slot) ?_ ?_)
    · by_contra hzero
      rw [h.strings_eq_nil hzero] at hmem
      cases hmem
    · rw [stringTexts, h.sound.stringTable]
      exact List.mem_append_left _ (List.mem_flatMap.mpr ⟨slot, hmem, List.mem_cons_self⟩)
  local_ name hname := .inl (hscope name hname)

/-- The code of a function refers to what is covered. -/
theorem Writes.covers_text (h : e.Writes out funcs directives) (hfront : e.program.IsFrontEnd)
    (htexts : List.Forall₂ (IsText e.env) e.written texts) {b : Body} {t : FuncText}
    (hb : b ∈ e.written) (ht : IsText e.env b t) :
    ∀ f ∈ t.body, f.Refers (e.Covers out texts t.Declares) := by
  obtain ⟨labels, n, code, n', hlabels, hcode, rfl, -⟩ := ht
  have hinside : Inside (e.env.inside b.func) labels (e.Covers out texts
      (funcText e.env.types b.func labels.groups (Line.formsAll code)).Declares) :=
    { allows := h.allows htexts b.func.qualifiedName fun name =>
        declares_funcText (h.supported b hb)
      group := fun id g hg => .inl (declares_currentLabel (LabelTable.lt_of_group? hlabels hg)) }
  exact hinside.root (h.refers_node hfront (List.mem_of_mem_filter hb)) n code n' hcode

/-- The static constructors are covered, even one that is the entry point. -/
theorem Writes.covers_staticInit (h : e.Writes out funcs directives)
    (htexts : List.Forall₂ (IsText e.env) e.written texts) :
    ∀ f ∈ (staticInitText e.ctors).body, f.Refers (e.Covers out texts scope) := by
  intro f hf
  obtain ⟨b, hb, rfl⟩ := List.mem_map.mp hf
  obtain ⟨hmem, hkept⟩ := List.mem_filter.mp hb
  obtain ⟨⟨i, d⟩, hd, hfirst⟩ := List.mem_filterMap.mp hmem
  have hb : b ∈ e.program.functions :=
    Program.mem_functions.mpr ⟨i, d, hd, List.mem_of_find?_eq_some hfirst⟩
  refine Form.refers_named (fun r hr => ?_) (List.forall_mem_nil _)
  obtain rfl := List.mem_singleton.mp hr
  by_cases hentry : e.entry.map (·.id) = some b.id
  · obtain ⟨b', hb', hid⟩ := Option.map_eq_some_iff.mp hentry
    obtain rfl := Program.eq_of_id_eq (List.mem_of_find?_eq_some hb') hb hid
    have hctor := List.find?_some (p := fun b : Body => b.func.isStaticCtor) hfirst
    exact .inr (.entry hb' hctor)
  · exact h.covers_func htexts hb (by simpa using hkept) hentry

/-- The accessors refer to their parameters only. -/
theorem Writes.covers_accessor (h : e.Writes out funcs directives)
    (htexts : List.Forall₂ (IsText e.env) e.written texts) :
    ∀ t ∈ stringTexts e.arena ++ fieldTexts e.arena,
      ∀ f ∈ t.body, f.Refers (e.Covers out texts t.Declares) := by
  have hreturn {value : Form} {scope : Bytes → Prop}
      (hvalue : value.Refers (e.Covers out texts scope)) :
      ∀ f ∈ [Form.list [.atom "return", value]], f.Refers (e.Covers out texts scope) :=
    List.forall_mem_singleton.mpr
      (Form.refers_list (by decide) (List.forall_mem_singleton.mpr hvalue))
  have hparam {name : Bytes} {t : FuncText} (hname : t.Declares name) :
      (Form.words ["get_local", name]).Refers (e.Covers out texts t.Declares) := by
    refine Form.refers_named (fun r hr => ?_) (List.forall_mem_nil _)
    obtain rfl := List.mem_singleton.mp hr
    exact .inl hname
  -- an accessor names no locals of the program
  have hallows (scope : Bytes → Prop) :
      (e.envAt [] (some [])).Allows (e.Covers out texts scope) := by
    refine h.allows htexts [] fun name hname => ?_
    rcases hname with hname | hname <;> cases hname
  let K (scope : Bytes → Prop) : FormClass (e.envAt [] (some [])) := .referring (hallows scope)
  refine List.forall_mem_append.mpr ⟨forall_stringTexts ?_ ?_ ?_, forall_fieldTexts ?_ ?_⟩
  · intro s
    exact hreturn ((K _).holds_intConst .i32 _)
  · intro s
    refine hreturn (Form.refers_list (by decide) ?_)
    exact List.forall_mem_singleton.mpr ((K _).holds_intConst .i32 _)
  · refine hreturn (Form.refers_list (by decide) (List.forall_mem_singleton.mpr ?_))
    refine Form.refers_list (by decide) ?_
    rw [List.forall_mem_cons, List.forall_mem_singleton]
    exact ⟨hparam (.inl List.mem_cons_self), (K _).holds_intConst .i32 _⟩
  · intro f kw
    exact hreturn ((K _).holds_load ((K _).holds_intConst .i32 _))
  · intro f kw
    refine List.forall_mem_singleton.mpr ((K _).holds_store ((K _).holds_intConst .i32 _) ?_)
    exact (K _).part_some (hparam (t := setterText e.arena.types f kw) (.inl List.mem_cons_self))

/-- The code of every function of the module refers to what is covered. -/
theorem Writes.covers_items (h : e.Writes out funcs directives) (hfront : e.program.IsFrontEnd)
    (htexts : List.Forall₂ (IsText e.env) e.written texts) :
    ∀ t ∈ (e.items texts).filterMap Item.func?,
      ∀ f ∈ t.body, f.Refers (e.Covers out texts t.Declares) := by
  intro t ht
  rw [funcs_items, List.mem_append, List.mem_append] at ht
  rcases ht with (ht | ht) | ht
  · have hpairs := (List.forall₂_and_left (p := (· ∈ e.written)) _ _).mpr ⟨fun _ => id, htexts⟩
    obtain ⟨b, -, hb, hrel⟩ := exists_of_forall₂ hpairs ht
    exact h.covers_text hfront htexts hb hrel
  · split at ht
    · cases ht
    · obtain rfl := List.mem_singleton.mp ht
      exact h.covers_staticInit htexts
  · split at ht
    · exact h.covers_accessor htexts t ht
    · cases ht

/-- The directives refer to what is covered; at top level every local may be named. -/
theorem Writes.covers_directives (h : e.Writes out funcs directives)
    (hfront : e.program.IsFrontEnd) (htexts : List.Forall₂ (IsText e.env) e.written texts) :
    ∀ f ∈ Line.formsAll directives, f.Refers (e.Covers out texts fun _ => True) := by
  obtain ⟨next, -, hdirectives⟩ := h.code
  cases hentry : e.entry with
  | none =>
    rw [entryCode_none hentry] at hdirectives
    obtain rfl := Work.comes_pure hdirectives
    exact List.forall_mem_nil _
  | some b =>
    rw [entryCode_some hentry] at hdirectives
    obtain ⟨labels, code, n', hlabels, hcode, rfl⟩ := comes_entryLines hdirectives
    have hinside : Inside (e.envAt b.func.qualifiedName none) labels
        (e.Covers out texts fun _ => True) :=
      { allows := h.allows htexts b.func.qualifiedName fun _ _ => trivial
        group := fun _ _ _ => .inl trivial }
    have hroot : Stmt.Each (Node.Refers (e.Covers out texts fun _ => True)) (e.entryRoot b) := by
      unfold entryRoot
      cases hbody : e.expanded.body? b.id with
      | none => exact List.forall_mem_nil _
      | some b' => exact h.refers_node hfront (List.mem_of_find?_eq_some hbody)
    have hstart : AllRefer (e.Covers out texts fun _ => True) (.blank :: if !e.ctors.isEmpty then
        [.form (.list [.atom "invoke", .text Name.staticInitExport])] else []) := by
      split
      · refine refer_form (Form.refers_list (by decide) (List.forall_mem_singleton.mpr ?_))
        exact Form.refers_text _
      · exact refer_nil
    exact hstart.append (hinside.root hroot _ code n' hcode)

end Emission

namespace Script

variable {m : Module} {items : List Item} {name : Bytes}

theorem mem_of_export? {fn : Function} {declared : List (Bytes × Bytes)}
    (h : List.Forall₂ (IsExport m) m.exports declared) (hfn : m.export? name = some fn) :
    fn ∈ m.funcs := by
  obtain ⟨front, back, hsplit, -⟩ := List.lookup_eq_some_iff.mp hfn
  have hmem : (name, fn) ∈ m.exports := by
    rw [← List.mem_reverse, hsplit]
    exact List.mem_append_right _ List.mem_cons_self
  obtain ⟨w, -, -, hfound⟩ := exists_of_forall₂ h.flip hmem
  exact List.mem_of_find?_eq_some hfound

theorem isSome_import? {module field : Bytes} {params : List Keyword} (h : m.Has items)
    (hitem : Item.import_ name module field params ∈ items) : (m.import? name).isSome := by
  refine List.find?_isSome.mpr ⟨⟨name, module, field, params.length⟩, ?_, beq_iff_eq.mpr rfl⟩
  rw [List.mem_reverse, h.imports]
  exact List.mem_filterMap.mpr ⟨_, hitem, rfl⟩

theorem isSome_func? (h : m.Has items) (hname : name ∈ funcNames items) :
    (m.func? name).isSome := by
  obtain ⟨t, ht, rfl⟩ := List.mem_map.mp hname
  obtain ⟨fn, hfn, -⟩ := h.func?_of_mem ht
  rw [hfn]
  rfl

theorem Function.Is.declares {fn : Function} {t : FuncText} (h : fn.Is t)
    (hname : t.Declares name) : fn.Declares name := by
  unfold Function.Declares
  rw [h.params, h.locals, List.map_map]
  exact hname

/-- The directives are the forms that are no modules. -/
theorem mem_of_instantiateFrom {found : Option Module} {rev forms ds : List SourceForm}
    {n : SourceForm} (h : instantiateFrom found rev forms = .ok (m, ds)) (hn : n ∈ ds) :
    n ∈ rev ∨ (n ∈ forms ∧ n.head ≠ "module") := by
  induction forms generalizing found rev with
  | nil =>
    cases found with
    | none => cases h
    | some m' =>
      obtain ⟨-, rfl⟩ := Prod.mk.inj (Except.ok.inj h)
      exact .inl (List.mem_reverse.mp hn)
  | cons first rest ih =>
    rw [instantiateFrom] at h
    split at h
    · rename_i hhead
      rcases ih h with hmem | ⟨hmem, hne⟩
      · rcases List.mem_cons.mp hmem with rfl | hmem
        · exact .inr ⟨List.mem_cons_self, bne_iff_ne.mp hhead⟩
        · exact .inl hmem
      · exact .inr ⟨List.mem_cons_of_mem _ hmem, hne⟩
    · cases found with
      | some m' => cases h
      | none =>
        cases hm : moduleOf first with
        | error f =>
          rw [hm] at h
          cases h
        | ok m' =>
          rw [hm] at h
          rcases ih h with hmem | ⟨hmem, hne⟩
          · exact .inl hmem
          · exact .inr ⟨List.mem_cons_of_mem _ hmem, hne⟩

end Script

namespace Emission

variable {e : Emission} {out : ModuleOutput} {funcs directives : List Line} {texts : List FuncText}
  {m : Module}

/-- What is missed: functions that leak. -/
def Lacks (e : Emission) (out : ModuleOutput) (name : Bytes) : Prop :=
  e.program.Leaks out (.func name)

/-- The operations that the expanded program has are used. -/
theorem Writes.mem_imports (h : e.Writes out funcs directives) (hfront : e.program.IsFrontEnd)
    {a : Annot} {op : HarnessOp} {rows : Option (List Expr)}
    (hop : e.program.Expands (.expr (.harnessCall a op rows))) : op ∈ e.expanded.use.imports := by
  obtain ⟨x, hx, b, hb, hn⟩ := hop
  obtain rfl := Except.ok.inj (h.expanded.symm.trans hx)
  exact (Support.made_of_expand h.expanded hfront b hb _ hn).1

/-- The module answers what is covered. -/
theorem Writes.answers (h : e.Writes out funcs directives) (hfront : e.program.IsFrontEnd)
    (hhas : m.Has (e.items texts))
    {scope scope' : Bytes → Prop} (hscope : ∀ name, scope name → scope' name) {r : Reference}
    (hr : e.Covers out texts scope r) : m.Answers (e.Lacks out) scope' r := by
  rcases hr with hdeclared | hleaks
  · cases r with
    | func name => exact .inl (isSome_func? hhas hdeclared)
    | import_ name operands =>
      obtain ⟨module, field, params, hitem, -⟩ := hdeclared
      exact isSome_import? hhas hitem
    | local_ name => exact hscope name hdeclared
  · cases r with
    | func name => exact .inr hleaks
    | import_ name operands =>
      cases hleaks with
      | blank hop =>
        have hdeclared := e.declared_import texts scope (h.mem_imports hfront hop)
        obtain ⟨module, field, params, hitem, -⟩ := hdeclared
        exact isSome_import? hhas hitem
    | local_ name => cases hleaks

/-- The directives of an instance are the forms around the module. -/
theorem mem_directives {ns ds : List SourceForm} {n : SourceForm} {items : List Item}
    {before directives : List Form}
    (hforms : SourceForm.forms ns
      = before ++ .list (.atom "module" :: items.map Item.form) :: directives)
    (hm : instantiate ns = .ok (m, ds)) (hn : n ∈ ds) : n.form ∈ before ++ directives := by
  obtain ⟨hmem, hne⟩ := (mem_of_instantiateFrom hm hn).resolve_left List.not_mem_nil
  have hform : n.form ∈ SourceForm.forms ns := by
    rw [SourceForm.forms_eq_map]
    exact List.mem_map_of_mem hmem
  rw [hforms, List.mem_append, List.mem_cons] at hform
  rcases hform with hbefore | hmodule | hdirective
  · exact List.mem_append_left _ hbefore
  · exact absurd (head_of_form hmodule) hne
  · exact List.mem_append_right _ hdirective

/-- Only a name of more than one line stands before the module with forms. -/
theorem Writes.forms {ns : List SourceForm} (h : e.Writes out funcs directives)
    (hops : e.program.NamesOps) (hread : Script.read out.text = .ok ns) :
    ∃ before, SourceForm.forms ns
        = before ++ .list (.atom "module" :: Line.formsAll (e.moduleLines funcs))
          :: Line.formsAll directives
      ∧ (10 ∉ e.program.name → before = []) := by
  obtain ⟨before, n, behind, rfl, hn, hbehind⟩ := h.read_any hops hread
  have hforms : SourceForm.forms (before ++ n :: behind) = SourceForm.forms before
      ++ .list (.atom "module" :: Line.formsAll (e.moduleLines funcs))
        :: Line.formsAll directives := by
    rw [← hn, ← hbehind]
    simp only [SourceForm.forms_eq_map, List.map_append, List.map_cons]
  refine ⟨SourceForm.forms before, hforms, fun hname => ?_⟩
  obtain ⟨bs, bs', hfuncs, hdirectives, -⟩ := h.lands hops
  obtain ⟨ns', hread', hforms'⟩ := h.read hname hfuncs hdirectives
  obtain rfl := Except.ok.inj (hread.symm.trans hread')
  rw [hforms] at hforms'
  exact List.append_left_eq_self.mp hforms'

/-- The functions of the module find what their code refers to. -/
theorem Writes.resolves (h : e.Writes out funcs directives) (hfront : e.program.IsFrontEnd)
    (htexts : List.Forall₂ (IsText e.env) e.written texts) (hhas : m.Has (e.items texts)) :
    m.Resolves (e.Lacks out) := by
  intro name fn hfound n hn r hr
  have hfn : fn ∈ m.funcs := by
    rcases hfound with hfound | hfound
    · exact List.mem_of_find?_eq_some hfound
    · exact mem_of_export? hhas.exports hfound
  obtain ⟨t, ht, his⟩ := exists_of_forall₂ hhas.funcs.flip hfn
  have hform : n.form ∈ t.body := by
    rw [← his.body, SourceForm.forms_eq_map]
    exact List.mem_map_of_mem hn
  have hcovers := h.covers_items hfront htexts t ht n.form hform r hr
  exact h.answers hfront hhas (fun _ => his.declares) hcovers

/-- What runs misses only functions that leak. -/
theorem Writes.run {ns ds : List SourceForm} {env : MachineEnv} {n : SourceForm} {fuel : Nat}
    {s s' : Machine} {t : Trap} (h : e.Writes out funcs directives)
    (hfront : e.program.IsFrontEnd) (hread : Script.read out.text = .ok ns)
    (hm : instantiate ns = .ok (env.module, ds))
    (hn : n.form ∈ Line.formsAll directives ∨ n.form.references = [])
    (hrun : Eval.run env fuel {} n s = .error (.trap t) s') : t.Excused (e.Lacks out) := by
  obtain ⟨texts, htexts, hhas⟩ := h.has hfront.namesOps hread hm
  have hknown : Eval.Known env (e.Lacks out) (fun _ => True) n := by
    intro r hr
    rcases hn with hn | hnone
    · refine h.answers hfront hhas (fun _ => id) ?_
      exact h.covers_directives hfront htexts n.form hn r hr
    · rw [hnone] at hr
      cases hr
  -- at top level the machine has no locals of a function
  have hstands : Eval.Stands (fun _ => True) {} s := fun hfunc => nomatch hfunc
  have hfound := Eval.finds_run (h.resolves hfront htexts hhas) hknown fuel s hstands
  rw [hrun] at hfound
  exact hfound.1

end Emission

/-- If the node is an operation of the harness, then all its operands have code. -/
def Node.isFull : Node → Bool
  | .expr (.harnessCall _ _ rows) => (Rows.items rows).all fun x => !x.isBlank
  | _ => true

/-- Nothing of the program leaks: no type has a second static constructor, the entry point is none,
lengths of strings are only taken where there is memory, and all operands of operations have
code. -/
structure Program.Sealed (p : Program) (out : ModuleOutput) : Prop where
  ctors : p.SingleCtors
  entry : ∀ b, p.entryPoint? = some b → b.func.isStaticCtor = false
  length : out.memorySize ≠ 0 ∨ ∀ a s, ¬p.Expands (.expr (.stringLength a s))
  operands : ∀ n, p.Expands n → n.isFull = true

theorem Program.Sealed.not_leaks {p : Program} {out : ModuleOutput} (h : p.Sealed out)
    (r : Reference) : ¬p.Leaks out r := by
  intro hr
  cases hr with
  | unworked hb hwork => exact hwork (forall_mem_bodies_iff.mpr h.ctors _ hb)
  | entry hb hctor =>
    rw [h.entry _ hb] at hctor
    cases hctor
  | length hs hmemory =>
    rcases h.length with hne | hnone
    · exact hne hmemory
    · exact hnone _ _ hs
  | blank hop hx hblank _ =>
    have hcode := List.all_eq_true.mp (h.operands _ hop) _ hx
    rw [hblank] at hcode
    cases hcode

/-- The forms of a text are a module with these items and directives behind it, and both are closed:
they refer to what is declared, and what runs misses no name, except for those that leak. -/
structure Program.Closes (p : Program) (out : ModuleOutput) (ns : List SourceForm)
    (before : List Form) (items : List Item) (directives : List Form) : Prop where
  forms : SourceForm.forms ns
    = before ++ .list (.atom "module" :: items.map Item.form) :: directives
  /-- Only a name of more than one line brings forms of its own. -/
  remark : 10 ∉ p.name → before = []
  functions : ∀ t, Item.func t ∈ items → ∀ r ∈ Form.referencesAll t.body,
    Declared items t.Declares r ∨ p.Leaks out r
  /-- At top level every local may be named. -/
  topLevel : ∀ r ∈ Form.referencesAll directives,
    Declared items (fun _ => True) r ∨ p.Leaks out r
  /-- What runs are directives. -/
  runs : ∀ m ds, instantiate ns = .ok (m, ds) → ∀ n ∈ ds, n.form ∈ before ++ directives
  /-- A directive runs, or another form that refers to nothing itself, such as the invocation of an
  export. -/
  run : ∀ m ds, instantiate ns = .ok (m, ds) → ∀ env : MachineEnv, env.module = m →
    ∀ n, n.form ∈ directives ∨ n.form.references = [] → ∀ fuel s t s',
      Eval.run env fuel {} n s = .error (.trap t) s' →
        ∀ r, t.Misses r → ∃ name, r = .func name ∧ p.Leaks out (.func name)

/-- The text of a program is closed up to the names that leak, and nothing leaks of a program that
is sealed. -/
theorem Program.closes_of_emit {p : Program} {out : ModuleOutput} (hfront : p.IsFrontEnd)
    (h : Work.Comes p.emit out) :
    (10 ∉ p.name → ∃ ns, Script.read out.text = .ok ns)
      ∧ (∀ ns, Script.read out.text = .ok ns →
        ∃ before items directives, p.Closes out ns before items directives)
      ∧ (p.Sealed out → ∀ r, ¬p.Leaks out r) := by
  obtain ⟨e, funcs, directives, rfl, hwrites⟩ := writes_of_emit h
  refine ⟨fun hname => ?_, fun ns hread => ?_, Sealed.not_leaks⟩
  · obtain ⟨bs, bs', hfuncs, hdirectives, -⟩ := hwrites.lands hfront.namesOps
    obtain ⟨ns, hread, -⟩ := hwrites.read hname hfuncs hdirectives
    exact ⟨ns, hread⟩
  obtain ⟨before, hforms, hremark⟩ := hwrites.forms hfront.namesOps hread
  obtain ⟨texts, hitems, htexts⟩ := hwrites.items hfront.namesOps
  rw [hitems] at hforms
  refine ⟨before, e.items texts, Line.formsAll directives, ?_⟩
  exact
    { forms := hforms
      remark := hremark
      functions := fun t ht => Form.forall_referencesAll.mpr <|
        hwrites.covers_items hfront htexts t (List.mem_filterMap.mpr ⟨_, ht, rfl⟩)
      topLevel := Form.forall_referencesAll.mpr (hwrites.covers_directives hfront htexts)
      runs := fun m ds hm n hn => Emission.mem_directives hforms hm hn
      run := by
        rintro m ds hm env rfl n hn fuel s t s' hrun
        exact hwrites.run hfront hread hm hn hrun }

/-- A program that redirects its output, writes a string to it, and measures one. -/
def announcingProgram : Program :=
  let text (s : Bytes) : Expr :=
    .literal { type := TypeTable.string } { kind := .string, string := s }
  let number (n : Int64) : Expr := .literal { type := TypeTable.int32 } { kind := .int, int := n }
  let call (type : TypeId) (target : MemberRef) (args : List Expr) : Expr :=
    .call { type := type } target none true .missing (some args)
  let line : Expr := .variable { type := TypeTable.string } "line" true
  { name := "announcing"
    decls := some [{
      name := "T"
      funcs := some [
        { name := "Init", declaringType := "T", flags := 9, result := TypeTable.void
          body := .block { id := 1 } (some [
            .expr { id := 2 } (call TypeTable.void ⟨"Wasm.Test", "SetStdout"⟩ [text "log"])]) },
        { name := "Size", declaringType := "T", flags := 3, result := TypeTable.int32
          params := some [{ name := "line", type := TypeTable.string }]
          body := .block { id := 3 } (some [
            .ret { id := 4 } (.call { type := TypeTable.int32 } ⟨"System.String", "get_Length"⟩ none
              false line none)]) },
        { name := "Main", declaringType := "T", flags := 5, result := TypeTable.void
          body := .block { id := 5 } (some [
            .expr { id := 6 } (call TypeTable.void ⟨"Wasm.Test", "Write"⟩
              [number 0, call TypeTable.int32 ⟨"T", "Size"⟩ [text "hi"]])]) }] }] }

/-- Its two imports, its accessors and its functions are all that its text refers to. -/
theorem Program.closes_announcing :
    ∃ out ns before items directives, Work.Comes announcingProgram.emit out
      ∧ Script.read out.text = .ok ns ∧ out.imports = [.stdoutOpen, .stdoutWrite]
      ∧ announcingProgram.Closes out ns before items directives
      ∧ ∀ r, ¬announcingProgram.Leaks out r := by
  have hresult : announcingProgram.emit.result?.any (fun out =>
      out.memorySize ≠ 0 ∧ out.imports = [.stdoutOpen, .stdoutWrite]) := by decide +kernel
  obtain ⟨out, hout, hmeta⟩ := (Option.any_eq_true _ _).mp hresult
  obtain ⟨hmemory, himports⟩ := of_decide_eq_true hmeta
  have hcomes := Work.comes_of_result? hout
  have hfull : (Support.expand announcingProgram).toOption.all fun x =>
      ∀ b ∈ x.bodies, ∀ n ∈ Node.all b.root, n.isFull := by decide +kernel
  have hsealed : announcingProgram.Sealed out :=
    { ctors := by
        unfold SingleCtors
        decide
      entry := fun b hb => by
        obtain rfl := Option.some.inj hb
        rfl
      length := .inl hmemory
      operands := by
        rintro n ⟨x, hx, b, hb, hn⟩
        rw [hx] at hfull
        exact of_decide_eq_true hfull b hb n hn }
  obtain ⟨hread, hcloses, hleaks⟩ := closes_of_emit (by decide +kernel) hcomes
  obtain ⟨ns, hns⟩ := hread (by decide)
  obtain ⟨before, items, directives, h⟩ := hcloses ns hns
  exact ⟨out, ns, before, items, directives, hcomes, hns, himports, h, hleaks hsealed⟩

/-- A program of a type with two static constructors, whose second one is called. -/
def laterCtorProgram : Program :=
  let call (name : Bytes) : Expr :=
    .call { type := TypeTable.void } ⟨"T", name⟩ none true .missing none
  { name := "p"
    decls := some [{
      name := "T"
      funcs := some [
        { name := "A", declaringType := "T", flags := 9, result := TypeTable.void
          body := .block { id := 1 } none },
        { name := "B", declaringType := "T", flags := 9, result := TypeTable.void
          body := .block { id := 2 } none },
        { name := "F", declaringType := "T", flags := 1, result := TypeTable.void
          body := .block { id := 3 } (some [.expr { id := 4 } (call "B")]) },
        { name := "Main", declaringType := "T", flags := 5, result := TypeTable.void
          body := .block { id := 5 } (some [.expr { id := 6 } (call "F")]) }] }] }

/-- Not every text is closed: this module has a function that calls one that it does not declare,
and its run traps there. -/
theorem Program.call_of_later_ctor :
    laterCtorProgram.IsFrontEnd ∧ ∃ out m report, Work.Comes laterCtorProgram.emit out
      ∧ laterCtorProgram.module? = some m
      ∧ (∃ fn ∈ m.funcs, ∃ n ∈ fn.body, .func "$T_B" ∈ n.form.references) ∧ m.func? "$T_B" = none
      ∧ (Script.execute out.text { maxSteps := 1000 }).1 = .ok report ∧ report.traps = 1
      ∧ ("call to unknown function $T_B" : Bytes) <:+: report.printed := by
  have hmodule : laterCtorProgram.module?.any fun m =>
      (∃ fn ∈ m.funcs, ∃ n ∈ fn.body, .func "$T_B" ∈ n.form.references)
        ∧ (m.func? "$T_B").isNone := by decide +kernel
  have hresult : laterCtorProgram.emit.result?.any fun out =>
      (Script.execute out.text { maxSteps := 1000 }).1.toOption.any fun report =>
        report.traps = 1 ∧ ("call to unknown function $T_B" : Bytes) <:+: report.printed := by
    decide +kernel
  obtain ⟨m, hm, hcalls⟩ := (Option.any_eq_true _ _).mp hmodule
  obtain ⟨hcall, hnone⟩ := of_decide_eq_true hcalls
  obtain ⟨out, hout, hreport⟩ := (Option.any_eq_true _ _).mp hresult
  obtain ⟨report, hrun, htrap⟩ := (Option.any_eq_true _ _).mp hreport
  obtain ⟨htraps, hprinted⟩ := of_decide_eq_true htrap
  exact ⟨by decide +kernel, out, m, report, Work.comes_of_result? hout, hm, hcall,
    Option.isNone_iff_eq_none.mp hnone, ok_of_toOption hrun, htraps, hprinted⟩

end WastForge
