import Mathlib
import WastForge.Proofs.Emit.Emits
import WastForge.Proofs.Script.Item

/-!
# The items of a module

Which items the lines of a module are: imports, functions, accessors, exports and memory. Each is
written as a form of its own.
-/

namespace WastForge.Emit

open Script

/-- An operation of the harness, with the types of its operands. -/
def importItem (op : HarnessOp) : Item :=
  let name := op.importName
  .import_ ("$" ++ name) "harness" ((Bytes.after? "__" name).getD name)
    (if op = .stdoutOpen then [.i32] else if op = .stdoutWrite then [.i32, .i32] else [])

/-- The function that runs the static constructors. -/
def staticInitText (ctors : List Body) : FuncText where
  name := Name.staticInit
  body := ctors.map fun b => .words ["call", Name.func b.func.ref]

/-- The function that runs the static constructors, and its export. -/
def staticInitItems (ctors : List Body) : List Item :=
  if ctors.isEmpty then []
  else [.func (staticInitText ctors), .export_ Name.staticInitExport Name.staticInit]

/-- A function that returns a value. -/
def returnText (name : Bytes) (params : List (Bytes × Keyword)) (kw : Keyword) (value : Form) :
    FuncText where
  name := name
  params := params
  result := some kw
  body := [.list [.atom "return", value]]

/-- The function that gives the address of a string. -/
def firstText (s : StringSlot) : FuncText :=
  returnText (Name.stringFirst s.offset) [] .i32 (Instruction.intConst .i32 s.firstChar.toNat)

/-- The function that gives the length of a string. -/
def lengthText (s : StringSlot) : FuncText :=
  returnText (Name.stringLengthAt s.offset) [] .i32
    (.list [.atom "i32.load", Instruction.intConst .i32 s.offset.toNat])

/-- The function that gives the length of any string. -/
def anyLengthText : FuncText :=
  returnText Name.stringLength [("$str", .i32)] .i32
    (.list [.atom "i32.load",
      .list [.atom "i32.sub", .words ["get_local", "$str"], Instruction.intConst .i32 (4 : Nat)]])

/-- The function that reads a field. -/
def getterText (tt : TypeTable) (f : FieldSlot) (kw : Keyword) : FuncText :=
  returnText (Name.fieldGetter f.field) [] kw (Instruction.load tt f.type kw (addressOf f))

/-- The function that writes a field. -/
def setterText (tt : TypeTable) (f : FieldSlot) (kw : Keyword) : FuncText where
  name := Name.fieldSetter f.field
  params := [("$value", kw)]
  body := [Instruction.store tt f.type kw (addressOf f) (some (.words ["get_local", "$value"]))]

/-- The functions of the strings. -/
def stringTexts (a : Arena) : List FuncText :=
  (a.stringTable.flatMap fun s => [firstText s, lengthText s]) ++ [anyLengthText]

/-- The functions of a field. -/
def fieldText (tt : TypeTable) (f : FieldSlot) : List FuncText :=
  (tt.valueKeyword? f.type).elim [] fun kw =>
    getterText tt f kw :: if f.readOnly then [] else [setterText tt f kw]

/-- The functions of the fields. -/
def fieldTexts (a : Arena) : List FuncText := a.fieldTable.flatMap (fieldText a.types)

section texts

variable {P : FuncText → Prop} {a : Arena}

/-- What holds of the functions of every string, and of the one for any, holds of all of them. -/
theorem forall_stringTexts (hfirst : ∀ s, P (firstText s)) (hlength : ∀ s, P (lengthText s))
    (hany : P anyLengthText) : ∀ t ∈ stringTexts a, P t := by
  refine List.forall_mem_append.mpr ⟨fun t ht => ?_, List.forall_mem_singleton.mpr hany⟩
  obtain ⟨s, _, ht⟩ := List.mem_flatMap.mp ht
  rcases List.mem_pair.mp ht with rfl | rfl
  · exact hfirst s
  · exact hlength s

/-- The functions of fields read or write one. -/
theorem forall_fieldTexts (hgetter : ∀ f kw, P (getterText a.types f kw))
    (hsetter : ∀ f kw, P (setterText a.types f kw)) : ∀ t ∈ fieldTexts a, P t := by
  intro t ht
  obtain ⟨f, _, ht⟩ := List.mem_flatMap.mp ht
  unfold fieldText at ht
  cases hkw : a.types.valueKeyword? f.type with
  | none =>
    rw [hkw] at ht
    cases ht
  | some kw =>
    rw [hkw] at ht
    rcases List.mem_cons.mp ht with rfl | ht
    · exact hgetter f kw
    · split at ht
      · cases ht
      · obtain rfl := List.mem_singleton.mp ht
        exact hsetter f kw

end texts

/-- The exports of functions. -/
def exportItems (exported : List Body) : List Item :=
  exported.map fun b => .export_ b.func.publicName (Name.func b.func.ref)

/-- The memory. -/
def memoryItem (a : Arena) : Item :=
  .memory a.total.toUInt32 (a.stringTable.map fun s => ⟨s.offset, s.segment⟩)

/-- The items of a module with the functions `funcs`. -/
def moduleItems (x : Expanded) (a : Arena) (ctors exported : List Body) (funcs : List FuncText) :
    List Item :=
  let hasMemory := a.total != 0
  x.use.imports.map importItem ++ funcs.map .func ++ staticInitItems ctors
    ++ (if hasMemory then (stringTexts a ++ fieldTexts a).map .func else [])
    ++ exportItems exported ++ (if hasMemory then [memoryItem a] else [])

theorem formsAll_map {α : Type} (f : α → Form) (l : List α) :
    Line.formsAll (l.map fun a => .form (f a)) = l.map f := by
  induction l with
  | nil => rfl
  | cons a l ih =>
    rw [List.map_cons, Line.formsAll, ih]
    rfl

theorem form_importItem (op : HarnessOp) :
    Form.app "import" [some (.atom ("$" ++ op.importName)), some (.text "harness"),
      some (.text ((Bytes.after? "__" op.importName).getD op.importName)), importParams op]
      = (importItem op).form := by
  by_cases hopen : op = .stdoutOpen
  · subst hopen
    rfl
  · by_cases hwrite : op = .stdoutWrite
    · subst hwrite
      rfl
    · simp only [importParams, importItem, if_neg hopen, if_neg hwrite]
      rfl

theorem formsAll_importLines (ops : List HarnessOp) :
    Line.formsAll (importLines ops) = (ops.map importItem).map Item.form := by
  cases ops with
  | nil => rfl
  | cons op ops =>
    have hlines : importLines (op :: ops)
        = .blank :: (op :: ops).map fun op => .form (importItem op).form := by
      simp only [importLines, form_importItem]
      rfl
    rw [hlines, Line.formsAll, formsAll_map, List.map_map]
    rfl

theorem formsAll_staticInitLines (ctors : List Body) :
    Line.formsAll (staticInitLines ctors) = (staticInitItems ctors).map Item.form := by
  unfold staticInitLines staticInitItems
  split
  · rfl
  · simp only [Line.formsAll, Line.forms, formsAll_map]
    rfl

theorem stringLines_eq (a : Arena) :
    stringLines a = .blank :: (stringTexts a).map fun t => .form t.form := by
  unfold stringLines stringTexts
  rw [List.map_append, List.map_flatMap]
  rfl

theorem fieldLines_eq (a : Arena) :
    fieldLines a = if a.fieldTable.isEmpty then []
      else .blank :: (fieldTexts a).map fun t => .form t.form := by
  unfold fieldLines fieldTexts
  rw [List.map_flatMap]
  simp only
  congr 3
  funext f
  unfold fieldText
  cases hkw : a.types.valueKeyword? f.type with
  | none => rfl
  | some kw =>
    simp only [Option.elim]
    cases f.readOnly with
    | true => rfl
    | false => rfl

theorem formsAll_stringLines (a : Arena) :
    Line.formsAll (stringLines a) = (stringTexts a).map FuncText.form := by
  rw [stringLines_eq, Line.formsAll, formsAll_map]
  rfl

theorem formsAll_fieldLines (a : Arena) :
    Line.formsAll (fieldLines a) = (fieldTexts a).map FuncText.form := by
  rw [fieldLines_eq]
  split
  · rename_i hempty
    rw [fieldTexts, List.isEmpty_iff.mp hempty]
    rfl
  · rw [Line.formsAll, formsAll_map]
    rfl

theorem formsAll_exportLines (exported : List Body) :
    Line.formsAll (exportLines exported) = (exportItems exported).map Item.form := by
  unfold exportLines exportItems exportLine
  cases exported with
  | nil => rfl
  | cons b l =>
    rw [if_neg (by simp), Line.formsAll, formsAll_map, List.map_map]
    rfl

theorem formsAll_memoryLines {a : Arena} (h : a.total < 0x100000000) :
    Line.formsAll (memoryLines a) = [(memoryItem a).form] := by
  have htotal : a.total.toUInt32.toNat = a.total.toNat := by
    rw [UInt64.toNat_toUInt32]
    exact Nat.mod_eq_of_lt h
  unfold memoryLines memoryItem
  simp only [Line.formsAll, Line.forms, formsAll_map, Item.form, htotal, List.map_map]
  rfl

/-- The lines of a module are its items. -/
theorem formsAll_moduleLines {x : Expanded} {a : Arena} {ctors exported : List Body}
    {funcs : List Line} {texts : List FuncText} (ha : a.total < 0x100000000)
    (hfuncs : Line.formsAll funcs = texts.map FuncText.form) :
    Line.formsAll (moduleLines x a ctors exported funcs)
      = (moduleItems x a ctors exported texts).map Item.form := by
  have hfunc : ∀ l : List FuncText, (l.map Item.func).map Item.form = l.map FuncText.form :=
    fun l => List.map_map
  unfold moduleLines moduleItems
  simp only [Line.formsAll_append, List.map_append, formsAll_importLines, hfuncs,
    formsAll_staticInitLines, formsAll_exportLines, hfunc]
  cases a.total != 0 with
  | false => rfl
  | true =>
    simp only [if_true, Line.formsAll_append, formsAll_stringLines, formsAll_fieldLines,
      formsAll_memoryLines ha, hfunc, List.map_append]
    rfl

/-- The locals that a function declares. -/
def declared (tt : TypeTable) (f : Func) : List (Local × Keyword) :=
  declaredLocals tt (paramTypes f) (Rows.items f.locals)

/-- What the body of a function is written against. -/
def Env.inside (env : Env) (f : Func) : Env :=
  { env with
    member := f.qualifiedName
    locals := some (((declared env.types f).map fun d => (d.1.name, d.1.type)) ++ paramTypes f) }

/-- A function of the program with its code. -/
def funcText (tt : TypeTable) (f : Func) (groups : Nat) (body : List Form) : FuncText where
  name := Name.func f.ref
  params := (Rows.items f.params).filterMap fun p =>
    (tt.valueKeyword? p.type).map fun kw => (Name.local_ p.name, kw)
  locals := ((declared tt f).map fun d => (Name.local_ d.1.name, d.2))
    ++ (List.range groups).map fun g => (Name.currentLabel g, .i32)
  result := tt.valueKeyword? f.result
  body := body

theorem form_params {tt : TypeTable} {l : List Local}
    (h : ∀ p ∈ l, (tt.valueKeyword? p.type).isSome) :
    (l.map fun p => Form.app "param" [some (.atom (Name.local_ p.name)),
      (tt.valueKeyword? p.type).map fun kw => .atom kw.text])
      = declarations "param" (l.filterMap fun p =>
        (tt.valueKeyword? p.type).map fun kw => (Name.local_ p.name, kw)) := by
  induction l with
  | nil => rfl
  | cons p l ih =>
    rw [List.forall_mem_cons] at h
    obtain ⟨kw, hkw⟩ := Option.isSome_iff_exists.mp h.1
    rw [List.map_cons, ih h.2, hkw, List.filterMap_cons, hkw]
    rfl

/-- What is supported has parameters with values. -/
theorem isSome_of_supported {tt : TypeTable} {f : Func} (h : unsupportedSignature? tt f = none) :
    ∀ p ∈ Rows.items f.params, (tt.valueKeyword? p.type).isSome := by
  unfold unsupportedSignature? at h
  split at h
  · cases h
  split at h
  · cases h
  · rename_i hfind
    intro p hp
    have hnone := List.find?_eq_none.mp hfind p hp
    simpa [Option.isSome_iff_ne_none] using hnone

theorem form_funcText {tt : TypeTable} {f : Func} (groups : Nat) (body : List Form)
    (h : unsupportedSignature? tt f = none) :
    .list (funcHead tt f (declared tt f) groups ++ body) = (funcText tt f groups body).form := by
  have hlocals : declarations "local" (funcText tt f groups body).locals
      = (declared tt f).map (fun d => declaration "local" (Name.local_ d.1.name) d.2)
        ++ (List.range groups).map (fun g => declaration "local" (Name.currentLabel g) .i32) := by
    simp only [declarations, funcText, List.map_append, List.map_map]
    rfl
  rw [FuncText.form, hlocals]
  simp only [funcHead, form_params (isSome_of_supported h), funcText, List.append_assoc,
    List.cons_append, List.nil_append]
  cases tt.valueKeyword? f.result with
  | none => rfl
  | some kw => rfl

section

variable {env : Env} {next next' : LoopIndex} {b : Body} {lines : List Line}

theorem comes_bodyLines {labels : LabelTable} {root : Stmt}
    (h : Work.Comes (bodyLines env labels next root) (lines, next')) :
    ∃ numbers, Emits (rootLines env labels root) { next := next } lines numbers
      ∧ next' = numbers.next := by
  obtain ⟨⟨code, numbers⟩, hcode, h⟩ := Work.comes_bind h
  obtain ⟨rfl, rfl⟩ := Prod.mk.inj (Work.comes_pure h)
  exact ⟨numbers, hcode, rfl⟩

/-- The lines of a function are its declarations and its code. -/
theorem comes_funcLines (h : Work.Comes (funcLines env next b) (lines, next')) :
    ∃ labels code numbers, LabelTable.ofBody b.root = .ok labels
      ∧ Emits (rootLines (env.inside b.func) labels b.root) { next := next } code numbers
      ∧ next' = numbers.next
      ∧ lines = [.blank, .group
        ((funcHead env.types b.func (declared env.types b.func) labels.groups).map some) code] := by
  unfold funcLines at h
  obtain ⟨labels, hlabels, h⟩ := Work.comes_bind (Work.comes_inMember (Work.comes_within h))
  obtain ⟨⟨code, next₁⟩, hcode, h⟩ := Work.comes_bind h
  obtain ⟨rfl, rfl⟩ := Prod.mk.inj (Work.comes_pure h)
  obtain ⟨numbers, hemits, rfl⟩ := comes_bodyLines hcode
  exact ⟨labels, code, numbers, Work.comes_result hlabels, hemits, rfl, rfl⟩

/-- The lines of the entry point are its code. -/
theorem comes_entryLines {hasCtors : Bool} {root : Stmt}
    (h : Work.Comes (entryLines env next hasCtors b root) lines) :
    ∃ labels code numbers, LabelTable.ofBody root = .ok labels
      ∧ Emits (rootLines { env with member := b.func.qualifiedName } labels root)
        { next := next } code numbers
      ∧ lines = .blank :: (if hasCtors then
        [.form (.list [.atom "invoke", .text Name.staticInitExport])] else []) ++ code := by
  unfold entryLines at h
  obtain ⟨labels, hlabels, h⟩ := Work.comes_bind (Work.comes_inMember (Work.comes_within h))
  obtain ⟨⟨code, next₁⟩, hcode, h⟩ := Work.comes_bind h
  obtain rfl := Work.comes_pure h
  obtain ⟨numbers, hemits, _⟩ := comes_bodyLines hcode
  exact ⟨labels, code, numbers, Work.comes_result hlabels, hemits, rfl⟩

end

end WastForge.Emit
