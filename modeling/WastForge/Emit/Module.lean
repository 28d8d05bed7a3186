import WastForge.Emit.Stmt
import WastForge.Layout.Placement
import WastForge.Support.Expand

/-!
# Modules

The text of a whole program: a module with its imports, functions, accessors, exports and memory,
and behind it the statements of the entry point as directives.
-/

namespace WastForge

/-- A finished module. -/
structure ModuleOutput where
  text : Bytes := []
  heapSize : UInt32 := 0
  memorySize : UInt32 := 0
  /-- The exports in the order in which they are declared. -/
  exports : List Bytes := []
  imports : List HarnessOp := []
  /-- The functions that were left out. -/
  skipped : List Bytes := []
  deriving Repr, DecidableEq, Inhabited

namespace Emit

/-- Why a function cannot be part of a module, if it cannot. There is no text for it if it is a
matter of a type without an end to its name. -/
def unsupportedSignature? (tt : TypeTable) (f : Func) : Option (Option Bytes) :=
  if !f.isStatic then some (some "instance methods are not supported")
  else
    match (Rows.items f.params).find? fun p => (tt.valueKeyword? p.type).isNone with
    | some p =>
      some ((tt.name? p.type).map fun typeName =>
        "parameter " ++ p.name ++ " has unsupported type " ++ typeName)
    | none =>
      if (tt.keyword? f.result).isNone then
        some ((tt.name? f.result).map fun typeName =>
          "result type " ++ typeName ++ " is unsupported")
      else none

/-- Find the functions that are left out, and warn of each. -/
def findSkipped (p : Program) (entry : Option FuncId) : List Body → Work (List FuncId)
  | [] => pure []
  | b :: rest => do
    match if entry = some b.id then none else unsupportedSignature? p.types b.func with
    | none => findSkipped p entry rest
    | some text =>
      let why ← Work.need .endless text
      let name := b.func.qualifiedName
      Work.warn
        { Diagnostic.caution .skippedFunction b.func.span
            ("function " ++ name ++ " skipped: " ++ why) with
          member := name }
      let more ← findSkipped p entry rest
      return b.id :: more

/-- The static constructors that are part of the module, in the order of their types. -/
def staticCtors (p : Program) (skipped : List FuncId) : List Body :=
  (p.indexedDecls.filterMap fun (i, d) => d.staticCtor? i).filter fun b => !skipped.contains b.id

/-- The types of the parameters by name; of two parameters with one name the last one counts. -/
def paramTypes (f : Func) : List (Bytes × TypeId) :=
  (Rows.items f.params).reverse.map fun p => (p.name, p.type)

/-- The locals that are declared: those of a machine type whose name is new. -/
def declaredLocals (tt : TypeTable) (known : List (Bytes × TypeId)) :
    List Local → List (Local × Keyword)
  | [] => []
  | l :: rest =>
    match tt.valueKeyword? l.type with
    | some kw =>
      if (known.lookup l.name).isSome then declaredLocals tt known rest
      else (l, kw) :: declaredLocals tt ((l.name, l.type) :: known) rest
    | none => declaredLocals tt known rest

/-- The declaration of a parameter or local. -/
def declaration (word name : Bytes) (kw : Keyword) : Form := .words [word, name, kw.text]

/-- The forms that open a function. -/
def funcHead (tt : TypeTable) (f : Func) (locals : List (Local × Keyword)) (groups : Nat) :
    List Form :=
  let params := (Rows.items f.params).map fun p =>
    Form.app "param" [some (.atom (Name.local_ p.name)),
      (tt.valueKeyword? p.type).map fun kw => .atom kw.text]
  [.atom "func", .atom (Name.func f.ref)] ++ params
    ++ locals.map (fun (l, kw) => declaration "local" (Name.local_ l.name) kw)
    ++ (List.range groups).map (fun g => declaration "local" (Name.currentLabel g) .i32)
    ++ (match tt.valueKeyword? f.result with
      | some kw => [.words ["result", kw.text]]
      | none => [])

/-- The lines of a body, with the number for the next loop without an index. -/
def bodyLines (env : Env) (labels : LabelTable) (next : LoopIndex) (root : Stmt) :
    Work (List Line × LoopIndex) := do
  let (lines, numbers) ← (rootLines env labels root).run { next := next }
  return (lines, numbers.next)

/-- The lines of a function. -/
def funcLines (env : Env) (next : LoopIndex) (b : Body) : Work (List Line × LoopIndex) :=
  let f := b.func
  Work.within .function f.qualifiedName <| Work.inMember f.qualifiedName do
    let labels ← (LabelTable.ofBody b.root : Result LabelTable)
    let locals := declaredLocals env.types (paramTypes f) (Rows.items f.locals)
    let names := (locals.map fun (l, _) => (l.name, l.type)) ++ paramTypes f
    let env := { env with member := f.qualifiedName, locals := some names }
    let (lines, next) ← bodyLines env labels next b.root
    let head := funcHead env.types f locals labels.groups
    return ([.blank, .group (head.map some) lines], next)

/-- The lines of several functions. -/
def funcsLines (env : Env) (next : LoopIndex) : List Body → Work (List Line × LoopIndex)
  | [] => pure ([], next)
  | b :: rest => do
    let (first, next) ← funcLines env next b
    let (more, next) ← funcsLines env next rest
    return (first ++ more, next)

/-- The directives of the entry point. -/
def entryLines (env : Env) (next : LoopIndex) (hasCtors : Bool) (entry : Body) (root : Stmt) :
    Work (List Line) :=
  let f := entry.func
  Work.within .function f.qualifiedName <| Work.inMember f.qualifiedName do
    let labels ← (LabelTable.ofBody root : Result LabelTable)
    let start : List Line :=
      if hasCtors then [.form (.list [.atom "invoke", .text Name.staticInitExport])] else []
    let (lines, _) ← bodyLines { env with member := f.qualifiedName } labels next root
    return .blank :: start ++ lines

/-- The types of the operands of an operation of the harness. -/
def importParams (op : HarnessOp) : Option Form :=
  if op = .stdoutOpen then some (.words ["param", "i32"])
  else if op = .stdoutWrite then some (.words ["param", "i32", "i32"])
  else none

/-- The imports of the operations that are used. -/
def importLines (ops : List HarnessOp) : List Line :=
  let one (op : HarnessOp) : Line :=
    let name := op.importName
    .form (.app "import" [some (.atom ("$" ++ name)), some (.text "harness"),
      some (.text ((Bytes.after? "__" name).getD name)), importParams op])
  if ops.isEmpty then [] else .blank :: ops.map one

/-- An export of a function under a name. -/
def exportLine (publicName name : Bytes) : Line :=
  .form (.list [.atom "export", .text publicName, .atom name])

/-- The function that runs the static constructors, and its export. -/
def staticInitLines (ctors : List Body) : List Line :=
  if ctors.isEmpty then []
  else
    [.blank,
      .group [some (.atom "func"), some (.atom Name.staticInit)]
        (ctors.map fun b => .form (.words ["call", Name.func b.func.ref])),
      exportLine Name.staticInitExport Name.staticInit]

/-- A function on one line that returns a value. -/
def returning (name : Bytes) (params : List Form) (kw : Keyword) (value : Form) : Line :=
  .form (.list ([.atom "func", .atom name] ++ params
    ++ [.words ["result", kw.text], .list [.atom "return", value]]))

/-- The functions that give addresses and lengths of strings. -/
def stringLines (a : Arena) : List Line :=
  let address (n : Nat) : Form := Instruction.intConst .i32 n
  let one (s : StringSlot) : List Line :=
    [returning (Name.stringFirst s.offset) [] .i32 (address s.firstChar.toNat),
     returning (Name.stringLengthAt s.offset) [] .i32
      (.list [.atom "i32.load", address s.offset.toNat])]
  .blank :: a.stringTable.flatMap one
    ++ [returning Name.stringLength [.words ["param", "$str", "i32"]] .i32
      (.list [.atom "i32.load", .list [.atom "i32.sub", .words ["get_local", "$str"], address 4]])]

/-- The functions that read and write static fields. -/
def fieldLines (a : Arena) : List Line :=
  let one (f : FieldSlot) : List Line :=
    match a.types.valueKeyword? f.type with
    | none => []
    | some kw =>
      returning (Name.fieldGetter f.field) [] kw (Instruction.load a.types f.type kw (addressOf f))
        :: if f.readOnly then []
          else
            [.form (.list [.atom "func", .atom (Name.fieldSetter f.field),
              declaration "param" "$value" kw,
              Instruction.store a.types f.type kw (addressOf f)
                (some (.words ["get_local", "$value"]))])]
  if a.fieldTable.isEmpty then [] else .blank :: a.fieldTable.flatMap one

/-- The exports of functions. -/
def exportLines (exported : List Body) : List Line :=
  if exported.isEmpty then []
  else .blank :: exported.map fun b => exportLine b.func.publicName (Name.func b.func.ref)

/-- The memory with one segment for every string. The slots of fields start as zeros. -/
def memoryLines (a : Arena) : List Line :=
  let size := some (Form.atom (Bytes.ofNat a.total.toNat))
  let segment (s : StringSlot) : Line :=
    .form (.list [.atom "segment", .atom (Bytes.ofNat s.offset.toNat), .text s.segment])
  [.blank, .group [some (.atom "memory"), size, size] (a.stringTable.map segment)]

/-- The lines of the module itself, around the lines of its functions. -/
def moduleLines (x : Expanded) (a : Arena) (ctors exported : List Body) (funcs : List Line) :
    List Line :=
  let hasMemory := a.total != 0
  let accessors := if hasMemory then stringLines a ++ fieldLines a else []
  let memory := if hasMemory then memoryLines a else []
  importLines x.use.imports ++ funcs ++ staticInitLines ctors ++ accessors ++ exportLines exported
    ++ memory

/-- Write the module of an expanded program. -/
def emitPass (p : Program) (x : Expanded) (a : Arena) : Work ModuleOutput :=
  Work.within .pass "emit" do
    let entry := p.entryPoint?
    let entryId := entry.map (·.id)
    let skipped ← findSkipped p entryId p.bodies
    let ctors := staticCtors p skipped
    let env : Env := { program := p, arena := a, skipped := skipped, entry := entryId }
    let written := x.bodies.filter fun b => entryId ≠ some b.id && !skipped.contains b.id
    let exported := written.filter (·.func.isExported)
    let (funcs, next) ← funcsLines env ({} : LoopNumbers).next written
    let directives ←
      match entry with
      | none => pure []
      | some b =>
        entryLines env next (!ctors.isEmpty) b
          (((x.body? b.id).map (·.root)).getD .missing)
    let lines : List Line :=
      [.comment p.name, .blank,
        .group [some (.atom "module")] (moduleLines x a ctors exported funcs)]
    return {
      text := Line.renderAll 0 (lines ++ directives)
      heapSize := a.heapSize
      memorySize := a.total.toUInt32
      exports := (if ctors.isEmpty then [] else [Name.staticInitExport])
        ++ exported.map fun b => b.func.publicName
      imports := x.use.imports
      skipped := (p.bodies.filter fun b => skipped.contains b.id).map fun b =>
        b.func.qualifiedName }

end Emit

/-- Write the module of a program: expand its support calls, lay out its memory, write its code. -/
def Program.emit (p : Program) : Work ModuleOutput :=
  Work.within .program p.name do
    let x ← Support.expandPass p
    let a ← Arena.ofProgram p (x.heapSize p.entryPoint?) x.bodies
    Emit.emitPass p x a

end WastForge
