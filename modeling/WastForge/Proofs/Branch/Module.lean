import Mathlib
import WastForge.Proofs.Branch.Statement
import WastForge.Proofs.Branch.Written
import WastForge.Proofs.Emit.Items

/-!
# Modules as text

The items of a module can be read back, and only the functions of the program have branches: those
in the code of a function, and of the entry point, are the jumps of its body.
-/

namespace WastForge.Emit

open Form Script

theorem operand_words {w : Bytes} {ws : List Bytes} (hw : w ∈ declaring)
    (hws : ∀ w ∈ ws, Token.isWord w) : (Form.words (w :: ws)).Operand := by
  have hall : ∀ w ∈ declaring, Token.isWord w ∧ Opcode.ofName w = .unknown ∧ w ≠ "br"
      ∧ w ≠ "block" ∧ w ≠ "loop" := by
    decide
  obtain ⟨hword, hunknown, hbr, hblock, hloop⟩ := hall w hw
  refine ⟨?_, ?_, fun around => ?_⟩
  · refine (areReadable_iff _).mpr fun f hf => ?_
    obtain ⟨v, hv, rfl⟩ := List.mem_map.mp hf
    rcases List.mem_cons.mp hv with rfl | hv
    · exact hword
    · exact hws v hv
  · refine (safe_list hunknown).mpr (safeAll_iff.mpr fun f hf => ?_)
    obtain ⟨v, _, rfl⟩ := List.mem_map.mp hf
    trivial
  · refine (branches_list hbr hblock hloop).trans (branchesAll_eq_nil fun f hf around => ?_)
    obtain ⟨v, _, rfl⟩ := List.mem_map.mp hf
    rfl

theorem Keyword.isWord_text (kw : Keyword) : Token.isWord kw.text := by
  cases kw <;> decide

theorem operand_declaration {word name : Bytes} (hword : word ∈ declaring)
    (hname : Token.isWord name) (kw : Keyword) : (declaration word name kw).Operand := by
  refine operand_words hword ?_
  simp only [List.forall_mem_cons]
  exact ⟨hname, Keyword.isWord_text kw, List.forall_mem_nil _⟩

theorem operand_declarations {word : Bytes} (hword : word ∈ declaring)
    {l : List (Bytes × Keyword)} (hl : ∀ d ∈ l, Token.isWord d.1) :
    ∀ f ∈ declarations word l, f.Operand := by
  intro f hf
  obtain ⟨d, hd, rfl⟩ := List.mem_map.mp hf
  exact operand_declaration hword (hl d hd) d.2

theorem operand_result (result : Option Keyword) :
    ∀ f ∈ resultDeclaration result, f.Operand := by
  cases result with
  | none => exact List.forall_mem_nil _
  | some kw =>
    refine List.forall_mem_singleton.mpr (operand_words (by decide) ?_)
    exact List.forall_mem_singleton.mpr (Keyword.isWord_text kw)

/-- A function on one line. -/
theorem plain_funcText {t : FuncText} (hname : Token.isWord t.name)
    (hparams : ∀ d ∈ t.params, Token.isWord d.1) (hlocals : ∀ d ∈ t.locals, Token.isWord d.1)
    (hbody : ∀ f ∈ t.body, f.Plain) : t.form.Plain := by
  refine plain_of_operands (fun _ h => h) (by decide) (by decide) (by decide) ?_
  simp only [List.forall_mem_cons, List.forall_mem_append]
  exact ⟨operand_atom hname, operand_declarations (by decide) hparams,
    operand_declarations (by decide) hlocals, operand_result _, fun f hf => (hbody f hf).operand⟩

theorem isWord_dollar {w : Bytes} (h : ∀ b ∈ w, Token.isWordByte b) :
    Token.isWord (("$" : Bytes) ++ w) :=
  isWord_append (by decide) (by decide) h

theorem Name.isWord_func (ref : MemberRef) : Token.isWord (Name.func ref) :=
  isWord_dollar fun _ hb => Name.isWordByte_escape hb

theorem Name.isWord_fieldGetter (ref : MemberRef) : Token.isWord (Name.fieldGetter ref) :=
  isWord_append (by decide) (by decide) fun _ hb => Name.isWordByte_escape hb

theorem Name.isWord_fieldSetter (ref : MemberRef) : Token.isWord (Name.fieldSetter ref) :=
  isWord_append (by decide) (by decide) fun _ hb => Name.isWordByte_escape hb

theorem Name.isWord_stringOf (offset : UInt32) {rest : Bytes} (h : rest.all Token.isWordByte) :
    Token.isWord ("$__string_" ++ Bytes.ofNat offset.toNat ++ rest) := by
  rw [List.append_assoc]
  refine isWord_append (by decide) (by decide) fun b hb => ?_
  rcases List.mem_append.mp hb with hb | hb
  · exact Token.isWordByte_ofNat hb
  · exact List.all_eq_true.mp h b hb

theorem plain_getLocal {name : Bytes} (h : Token.isWord name) :
    (Form.words ["get_local", name]).Plain := by
  refine plain_of_operands (fun _ hfs => ⟨fun _ _ => List.not_mem_nil, hfs⟩) (by decide)
    (by decide) (by decide) (List.forall_mem_singleton.mpr ?_)
  exact operand_atom h

theorem plain_returnText {name : Bytes} {params : List (Bytes × Keyword)} {kw : Keyword}
    {value : Form} (hname : Token.isWord name) (hparams : ∀ d ∈ params, Token.isWord d.1)
    (hvalue : value.Plain) : (returnText name params kw value).form.Plain :=
  plain_funcText hname hparams (List.forall_mem_nil _) (List.forall_mem_singleton.mpr
    (plain_app (by decide) (by decide) (List.forall_mem_singleton.mpr hvalue)))

/-- Where code stands does not matter for an instruction that is written without it. -/
def anywhere : Env := { program := {}, arena := default }

theorem plain_intConst (kw : Keyword) (n : Int) : (Instruction.intConst kw n).Plain :=
  (FormClass.plain anywhere).holds_intConst kw n

theorem plain_load {tt : TypeTable} {t : TypeId} {kw : Keyword} {address : Form}
    (h : address.Plain) : (Instruction.load tt t kw address).Plain :=
  (FormClass.plain anywhere).holds_load h

theorem plain_store {tt : TypeTable} {t : TypeId} {kw : Keyword} {address value : Form}
    (h : address.Plain) (hvalue : value.Plain) :
    (Instruction.store tt t kw address (some value)).Plain :=
  (FormClass.plain anywhere).holds_store h ((FormClass.plain anywhere).part_some hvalue)

theorem plain_stringTexts (a : Arena) : ∀ t ∈ stringTexts a, t.form.Plain := by
  have hload : ∀ f : Form, f.Plain → (Form.list [.atom "i32.load", f]).Plain := fun f hf =>
    plain_app (by decide) (by decide) (List.forall_mem_singleton.mpr hf)
  refine forall_stringTexts (fun s => ?_) (fun s => ?_) ?_
  · exact plain_returnText (Name.isWord_stringOf s.offset (by decide)) (List.forall_mem_nil _)
      (plain_intConst _ _)
  · exact plain_returnText (Name.isWord_stringOf s.offset (by decide)) (List.forall_mem_nil _)
      (hload _ (plain_intConst _ _))
  · refine plain_returnText (by decide) (by decide) (hload _ ?_)
    refine plain_app (by decide) (by decide) ?_
    simp only [List.forall_mem_cons]
    exact ⟨plain_getLocal (by decide), plain_intConst _ _, List.forall_mem_nil _⟩

theorem plain_fieldTexts (a : Arena) : ∀ t ∈ fieldTexts a, t.form.Plain := by
  have haddress : ∀ f : FieldSlot, (addressOf f).Plain := fun f => plain_intConst .i32 _
  have hvalue : Token.isWord "$value" := by decide
  refine forall_fieldTexts (fun f kw => ?_) (fun f kw => ?_)
  · exact plain_returnText (Name.isWord_fieldGetter _) (List.forall_mem_nil _)
      (plain_load (haddress f))
  · exact plain_funcText (Name.isWord_fieldSetter _) (List.forall_mem_singleton.mpr hvalue)
      (List.forall_mem_nil _) (List.forall_mem_singleton.mpr
        (plain_store (haddress f) (plain_getLocal hvalue)))

variable {around : List Bytes} {bs : List Branch} {lines : List Line}

theorem operand_import (op : HarnessOp) : ∀ f, some f ∈ [some (Form.atom ("$" ++ op.importName)),
    some (.text "harness"), some (.text ((Bytes.after? "__" op.importName).getD op.importName)),
    importParams op] → f.Operand := by
  have hname : Token.isWord ("$" ++ op.importName) := by
    unfold HarnessOp.importName
    split
    · decide
    split <;> decide
  simp only [List.mem_cons, List.not_mem_nil, or_false, Option.some.injEq]
  rintro f (rfl | rfl | rfl | hf)
  · exact operand_atom hname
  · exact operand_text _
  · exact operand_text _
  · unfold importParams at hf
    split at hf
    · obtain rfl := Option.some.inj hf
      exact operand_words (by decide) (by decide)
    split at hf
    · obtain rfl := Option.some.inj hf
      exact operand_words (by decide) (by decide)
    · cases hf

theorem written_importLines (ops : List HarnessOp) : Written around (importLines ops) [] := by
  refine .each fun l hl => ?_
  unfold importLines at hl
  split at hl
  · cases hl
  · rcases List.mem_cons.mp hl with rfl | hl
    · exact .inl rfl
    · obtain ⟨op, _, rfl⟩ := List.mem_map.mp hl
      refine .inr ⟨_, ?_, rfl⟩
      refine plain_of_operands (fun _ h => h) (by decide) (by decide) (by decide) ?_
      exact forall_filterMap_id (operand_import op)

theorem plain_export (publicName : Bytes) {name : Bytes} (h : Token.isWord name) :
    (Item.export_ publicName name).form.Plain := by
  refine plain_of_operands (fun _ h => h) (by decide) (by decide) (by decide) ?_
  simp only [List.forall_mem_cons]
  exact ⟨operand_text _, operand_atom h, List.forall_mem_nil _⟩

/-- A function over several lines. -/
theorem written_function {parts : List Form} (hparts : ∀ f ∈ parts, f.Operand)
    (h : Written around lines bs) :
    Written around [.group (some (.atom "func") :: parts.map some) lines] bs := by
  refine h.instruction (by decide) (by decide) (by decide) (fun f hf => ?_) fun _ hfs => hfs
  obtain ⟨g, hg, heq⟩ := List.mem_map.mp hf
  obtain rfl := Option.some.inj heq
  exact hparts g hg

theorem written_staticInitLines (ctors : List Body) :
    Written around (staticInitLines ctors) [] := by
  unfold staticInitLines
  split
  · exact .nil
  · have hcalls : Written around
        (ctors.map fun b => .form (.words ["call", Name.func b.func.ref])) [] := by
      refine .each fun l hl => ?_
      obtain ⟨b, _, rfl⟩ := List.mem_map.mp hl
      refine .inr ⟨_, ?_, rfl⟩
      refine plain_of_operands (fun _ h => h) (by decide) (by decide) (by decide) ?_
      exact List.forall_mem_singleton.mpr (operand_atom (Name.isWord_func _))
    have hname : ∀ f ∈ [Form.atom Name.staticInit], f.Operand :=
      List.forall_mem_singleton.mpr (operand_atom (by decide))
    exact (Written.blank.append (written_function hname hcalls)).append
      (Written.of_plain (plain_export Name.staticInitExport (by decide)))

theorem written_stringLines (a : Arena) : Written around (stringLines a) [] := by
  rw [stringLines_eq]
  refine .each fun l hl => ?_
  rcases List.mem_cons.mp hl with rfl | hl
  · exact .inl rfl
  · obtain ⟨t, ht, rfl⟩ := List.mem_map.mp hl
    exact .inr ⟨_, plain_stringTexts a t ht, rfl⟩

theorem written_fieldLines (a : Arena) : Written around (fieldLines a) [] := by
  rw [fieldLines_eq]
  split
  · exact .nil
  · refine .each fun l hl => ?_
    rcases List.mem_cons.mp hl with rfl | hl
    · exact .inl rfl
    · obtain ⟨t, ht, rfl⟩ := List.mem_map.mp hl
      exact .inr ⟨_, plain_fieldTexts a t ht, rfl⟩

theorem written_exportLines (exported : List Body) : Written around (exportLines exported) [] := by
  unfold exportLines
  split
  · exact .nil
  · refine .each fun l hl => ?_
    rcases List.mem_cons.mp hl with rfl | hl
    · exact .inl rfl
    · obtain ⟨b, _, rfl⟩ := List.mem_map.mp hl
      exact .inr ⟨_, plain_export b.func.publicName (Name.isWord_func _), rfl⟩

theorem written_memoryLines (a : Arena) : Written around (memoryLines a) [] := by
  have hsegments : Written around (a.stringTable.map fun s => .form (.list [.atom "segment",
      .atom (Bytes.ofNat s.offset.toNat), .text s.segment])) [] := by
    refine .each fun l hl => ?_
    obtain ⟨s, _, rfl⟩ := List.mem_map.mp hl
    refine .inr ⟨_, ?_, rfl⟩
    refine plain_of_operands (fun _ h => h) (by decide) (by decide) (by decide) ?_
    simp only [List.forall_mem_cons]
    exact ⟨operand_atom (Token.isWord_ofNat _), operand_text _, List.forall_mem_nil _⟩
  refine Written.blank.append (hsegments.instruction (by decide) (by decide) (by decide) ?_
    fun _ hfs => hfs)
  have hsize : (Form.atom (Bytes.ofNat a.total.toNat)).Operand :=
    operand_atom (Token.isWord_ofNat _)
  intro f hf
  rcases List.mem_pair.mp hf with hf | hf
  · exact Option.some.inj hf ▸ hsize
  · exact Option.some.inj hf ▸ hsize

/-- The lines of a module around the code of its functions. -/
theorem written_moduleLines {x : Expanded} {a : Arena} {ctors exported : List Body}
    {funcs : List Line} (h : Written around funcs bs) :
    Written around (moduleLines x a ctors exported funcs) bs := by
  have haccessors : Written around
      (if a.total != 0 then stringLines a ++ fieldLines a else []) [] := by
    split
    · exact (written_stringLines a).append (written_fieldLines a)
    · exact .nil
  have hmemory : Written around (if a.total != 0 then memoryLines a else []) [] := by
    split
    · exact written_memoryLines a
    · exact .nil
  have hall := (((((written_importLines x.use.imports).append h).append
    (written_staticInitLines ctors)).append haccessors).append
    (written_exportLines exported)).append hmemory
  simp only [List.nil_append, List.append_nil] at hall
  exact hall

end WastForge.Emit

namespace WastForge.Control

open Emit Script

/-- The body names only instructions that expressions may have. -/
abbrev Body.NamesOps (b : Body) : Prop := ∀ x ∈ Node.all b.root, x.Names IsOp

variable {env : Env} {root : Stmt} {labels : LabelTable}

/-- The branches in the code of a body hit its jumps. -/
theorem lands_root (h : Hosted root labels) {n n' : LoopNumbers} {lines : List Line}
    (he : Emits (rootLines env labels root) n lines n') : Lands [] (root.jumps []) n lines n' := by
  have hroot : Stmt.Each (· ∈ Node.all root) root := fun _ hx => hx
  cases root with
  | block m rows => exact lands_stmtRows h {} rows (Stmt.each_block.mp hroot).2 .nil he
  | _ =>
    have hstmt : Emits (stmt env labels {} .plain _) n lines n' := he
    exact lands_stmt h {} .plain _ hroot .nil hstmt

/-- The forms that open a function are operands. -/
theorem operand_funcHead (tt : TypeTable) (f : Func) (groups : Nat) :
    ∃ parts, funcHead tt f (declared tt f) groups = .atom "func" :: parts
      ∧ ∀ g ∈ parts, g.Operand := by
  refine ⟨_, rfl, ?_⟩
  simp only [List.forall_mem_append, List.forall_mem_map, List.append_eq, List.forall_mem_singleton]
  refine ⟨⟨⟨⟨Form.operand_atom (Name.isWord_func _), fun p _ => ?_⟩, fun l _ => ?_⟩,
    fun g _ => ?_⟩, ?_⟩
  · have hname := Name.isWord_local p.name
    cases tt.valueKeyword? p.type with
    | none =>
      show (Form.words ["param", Name.local_ p.name]).Operand
      exact operand_words (by decide) (List.forall_mem_singleton.mpr hname)
    | some kw => exact operand_declaration (by decide) hname kw
  · exact operand_declaration (by decide) (Name.isWord_local _) _
  · exact operand_declaration (by decide) (Name.isWord_currentLabel g) _
  · cases tt.valueKeyword? f.result with
    | none => exact List.forall_mem_nil _
    | some kw => exact operand_result (some kw)

/-- The text of a function: its declarations, and the code of its body. -/
def IsText (env : Env) (b : Body) (t : FuncText) : Prop :=
  ∃ labels n code n', LabelTable.ofBody b.root = .ok labels
    ∧ Emits (rootLines (env.inside b.func) labels b.root) n code n'
    ∧ t = funcText env.types b.func labels.groups (Line.formsAll code)
    ∧ ∀ f ∈ t.body, f.IsInstruction

/-- The branches in the lines of a function hit the jumps of its body. -/
theorem lands_func {b : Body} {next next' : LoopIndex} {lines : List Line} (hb : Body.NamesOps b)
    (h : Work.Comes (funcLines env next b) (lines, next')) :
    ∃ js bs n', (b.root.jumps []).run { next := next } = (js, n') ∧ next' = n'.next
      ∧ Written [] lines bs ∧ List.Forall₂ Branch.Reaches bs js := by
  obtain ⟨labels, code, n', hlabels, hcode, rfl, rfl⟩ := comes_funcLines h
  obtain ⟨js, bs, hrun, hwritten, hhits⟩ := lands_root ⟨hlabels, hb⟩ hcode
  obtain ⟨parts, hhead, hparts⟩ := operand_funcHead env.types b.func labels.groups
  refine ⟨js, bs, n', hrun, rfl, ?_, hhits⟩
  rw [hhead]
  exact Written.blank.append (written_function hparts hwritten)

/-- The lines of a function are its text. -/
theorem text_func {b : Body} {next next' : LoopIndex} {lines : List Line} (hb : Body.NamesOps b)
    (hsupported : unsupportedSignature? env.types b.func = none)
    (h : Work.Comes (funcLines env next b) (lines, next')) :
    ∃ t, Line.formsAll lines = [t.form] ∧ IsText env b t := by
  obtain ⟨labels, code, n', hlabels, hcode, _, rfl⟩ := comes_funcLines h
  obtain ⟨js, bs, _, hwritten, _⟩ := lands_root ⟨hlabels, hb⟩ hcode
  refine ⟨funcText env.types b.func labels.groups (Line.formsAll code), ?_, labels, _, code, n',
    hlabels, hcode, rfl, hwritten.instructions⟩
  rw [← form_funcText _ _ hsupported]
  simp [Line.formsAll, Line.forms]

theorem lands_funcs {bodies : List Body} {next next' : LoopIndex} {lines : List Line}
    (hbodies : ∀ b ∈ bodies, Body.NamesOps b)
    (h : Work.Comes (funcsLines env next bodies) (lines, next')) :
    ∃ js bs, Program.bodiesJumps next bodies = (js, next') ∧ Written [] lines bs
      ∧ List.Forall₂ Branch.Reaches bs js := by
  induction bodies generalizing next lines with
  | nil =>
    obtain ⟨rfl, rfl⟩ := Prod.mk.inj (Work.comes_pure h)
    exact ⟨[], [], rfl, .nil, .nil⟩
  | cons b rest ih =>
    rw [List.forall_mem_cons] at hbodies
    unfold funcsLines at h
    obtain ⟨⟨first, next₁⟩, hfirst, h⟩ := Work.comes_bind h
    obtain ⟨⟨more, next₂⟩, hmore, h⟩ := Work.comes_bind h
    obtain ⟨rfl, rfl⟩ := Prod.mk.inj (Work.comes_pure h)
    obtain ⟨js₁, bs₁, n₁, hrun, rfl, hwritten₁, hhits₁⟩ := lands_func hbodies.1 hfirst
    obtain ⟨js₂, bs₂, hrest, hwritten₂, hhits₂⟩ := ih hbodies.2 hmore
    refine ⟨js₁ ++ js₂, bs₁ ++ bs₂, ?_, hwritten₁.append hwritten₂, List.rel_append hhits₁ hhits₂⟩
    rw [Program.bodiesJumps, hrun]
    simp only [hrest]

/-- If the lines of each function are a text, then those of several are their texts. -/
theorem texts_of_funcs {R : Body → FuncText → Prop} {bodies : List Body} {next next' : LoopIndex}
    {lines : List Line}
    (hfunc : ∀ b ∈ bodies, ∀ {next next' : LoopIndex} {lines : List Line},
      Work.Comes (funcLines env next b) (lines, next') →
        ∃ t, Line.formsAll lines = [t.form] ∧ R b t)
    (h : Work.Comes (funcsLines env next bodies) (lines, next')) :
    ∃ texts, Line.formsAll lines = texts.map FuncText.form ∧ List.Forall₂ R bodies texts := by
  induction bodies generalizing next lines with
  | nil =>
    obtain ⟨rfl, rfl⟩ := Prod.mk.inj (Work.comes_pure h)
    exact ⟨[], rfl, .nil⟩
  | cons b rest ih =>
    rw [List.forall_mem_cons] at hfunc
    unfold funcsLines at h
    obtain ⟨⟨first, next₁⟩, hfirst, h⟩ := Work.comes_bind h
    obtain ⟨⟨more, next₂⟩, hmore, h⟩ := Work.comes_bind h
    obtain ⟨rfl, rfl⟩ := Prod.mk.inj (Work.comes_pure h)
    obtain ⟨t, hform, ht⟩ := hfunc.1 hfirst
    obtain ⟨texts, hforms, htexts⟩ := ih hfunc.2 hmore
    refine ⟨t :: texts, ?_, .cons ht htexts⟩
    rw [Line.formsAll_append, hform, hforms]
    rfl

theorem text_funcs {bodies : List Body} {next next' : LoopIndex} {lines : List Line}
    (hbodies : ∀ b ∈ bodies, Body.NamesOps b)
    (hsupported : ∀ b ∈ bodies, unsupportedSignature? env.types b.func = none)
    (h : Work.Comes (funcsLines env next bodies) (lines, next')) :
    ∃ texts, Line.formsAll lines = texts.map FuncText.form
      ∧ List.Forall₂ (IsText env) bodies texts :=
  texts_of_funcs (fun b hb => text_func (hbodies b hb) (hsupported b hb)) h

/-- The branches in the directives of the entry point go where the jumps of its body reach. -/
theorem lands_entry {b : Body} {root : Stmt} {next : LoopIndex} {hasCtors : Bool}
    {lines : List Line} (hroot : ∀ x ∈ Node.all root, x.Names IsOp)
    (h : Work.Comes (entryLines env next hasCtors b root) lines) :
    ∃ js bs, (Program.bodiesJumps next [{ b with root := root }]).1 = js ∧ Written [] lines bs
      ∧ List.Forall₂ Branch.Reaches bs js := by
  obtain ⟨labels, code, n', hlabels, hcode, rfl⟩ := comes_entryLines h
  obtain ⟨js, bs, hrun, hwritten, hhits⟩ := lands_root ⟨hlabels, hroot⟩ hcode
  have hstart : Written [] (if hasCtors then
      [.form (.list [.atom "invoke", .text Name.staticInitExport])] else []) [] := by
    split
    · refine .of_plain
        (Form.plain_of_operands (fun _ h => h) (by decide) (by decide) (by decide) ?_)
      exact List.forall_mem_singleton.mpr (Form.operand_text _)
    · exact .nil
  refine ⟨js, bs, ?_, (Written.blank.append hstart).append hwritten, hhits⟩
  have hjumps : (root.jumps []).run { next := next } = (js, n') := hrun
  simp only [Program.bodiesJumps, hjumps, List.append_nil]

end WastForge.Control
