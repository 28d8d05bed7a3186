import WastForge.Diagnostic.Basic
import WastForge.Document.Tree
import WastForge.Program.Walk

/-!
# Reading documents

A document is read from the front; what follows it is ignored. The type table must contain the
builtin types, and the statements of a program must have different numbers.
-/

namespace WastForge.Document

open Pack

/-- A parameter or local variable. -/
def updateLocal : Update Local :=
  updateRecord {} [
    ("Name", fun l => return { l with name := ← readText }),
    ("Type", fun l => return { l with type := ← readU32 })]

/-- A function while it is read; `func` has all but its variables. -/
structure FuncDraft where
  func : Func := {}
  params : Slots Local := {}
  locals : Slots Local := {}

/-- The function that was read. -/
def FuncDraft.toFunc (d : FuncDraft) : Func :=
  { d.func with params := d.params.items, locals := d.locals.items }

/-- A part of a function that is not a list of variables. -/
def funcPart (update : Update Func) : Update FuncDraft := fun d =>
  return { d with func := ← update d.func }

/-- A function. -/
def updateFunc (stmt : Update Stmt) : Update FuncDraft :=
  updateRecord {} [
    ("Name", funcPart fun f => return { f with name := ← readText }),
    ("DeclaringType", funcPart fun f => return { f with declaringType := ← readText }),
    ("Params", fun d => return { d with params := ← updateSlots {} updateLocal d.params }),
    ("Locals", fun d => return { d with locals := ← updateSlots {} updateLocal d.locals }),
    ("Result", funcPart fun f => return { f with result := ← readU32 }),
    ("Flags", funcPart fun f => return { f with flags := ← readU8 }),
    ("ExportName", funcPart fun f => return { f with exportName := ← readText }),
    ("Body", funcPart fun f => return { f with body := ← stmt f.body }),
    ("Span", funcPart fun f => return { f with span := ← updateSpan f.span })]

/-- A static field. -/
def updateField : Update FieldDecl :=
  updateRecord {} [
    ("Name", fun f => return { f with name := ← readText }),
    ("Type", fun f => return { f with type := ← readU32 }),
    ("ReadOnly", fun f => return { f with readOnly := ← readBool }),
    ("Span", fun f => return { f with span := ← updateSpan f.span })]

/-- A type declaration while it is read. -/
structure DeclDraft where
  name : Bytes := []
  fields : Slots (Option FieldDecl) := {}
  funcs : Slots (Option FuncDraft) := {}
  span : Span := {}

/-- Whether none of the functions is left out. -/
def DeclDraft.isWhole (d : DeclDraft) : Bool := (Rows.items d.funcs.items).all (·.isSome)

/-- The type declaration that was read, with the functions that are there. -/
def DeclDraft.toDecl (d : DeclDraft) : TypeDecl where
  name := d.name
  fields := d.fields.items
  funcs := d.funcs.items.map fun l => l.filterMap fun f => f.map (·.toFunc)
  span := d.span

/-- A type declaration. -/
def updateDecl (stmt : Update Stmt) : Update DeclDraft :=
  updateRecord {} [
    ("Name", fun d => return { d with name := ← readText }),
    ("Fields", fun d => return { d with
      fields := ← updateSlots none (updateOptional {} updateField) d.fields }),
    ("Funcs", fun d => return { d with
      funcs := ← updateSlots none (updateOptional {} (updateFunc stmt)) d.funcs }),
    ("Span", fun d => return { d with span := ← updateSpan d.span })]

/-- A type descriptor. -/
def updateDescriptor : Update Descriptor :=
  updateRecord {} [
    ("Kind", fun d => return { d with kind := .ofCode (← readU8) }),
    ("Elem", fun d => return { d with elem := ← readU32 }),
    ("Width", fun d => return { d with width := ← readU8 }),
    ("Payload", fun d => return { d with payload := ← readU32 })]

/-- A field of a struct. -/
def updateStructField : Update StructField :=
  updateRecord {} [
    ("Name", fun f => return { f with name := ← readText }),
    ("Type", fun f => return { f with type := ← readU32 })]

/-- A nominal slot while it is read. -/
structure NominalDraft where
  name : Bytes := []
  fields : Slots StructField := {}

/-- The nominal slot that was read. -/
def NominalDraft.toNominal (d : NominalDraft) : Nominal := ⟨d.name, Rows.items d.fields.items⟩

/-- A nominal slot. -/
def updateNominal : Update NominalDraft :=
  updateRecord {} [
    ("Name", fun n => return { n with name := ← readText }),
    ("Fields", fun n => return { n with fields := ← updateSlots {} updateStructField n.fields })]

/-- A document as it is read, before it is checked. -/
structure Draft where
  schema : UInt16 := 0
  name : Bytes := []
  files : List Bytes := []
  types : Slots Descriptor := {}
  nominals : Slots NominalDraft := {}
  decls : Slots (Option DeclDraft) := {}

/-- Whether no declaration is left out, and no function of one. -/
def Draft.isWhole (d : Draft) : Bool := (Rows.items d.decls.items).all fun t => t.any (·.isWhole)

/-- A document whose statements are read by `stmt`. -/
def readDraft (stmt : Update Stmt) : Reader Draft :=
  readRecord {} [
    ("Schema", fun d => return { d with schema := ← readU16 }),
    ("Name", fun d => return { d with name := ← readText }),
    ("Files", fun d => return { d with files := ← updateTexts d.files }),
    ("Types", fun d => return { d with types := ← updateSlots {} updateDescriptor d.types }),
    ("Nominals", fun d => return { d with nominals := ← updateSlots {} updateNominal d.nominals }),
    ("Decls", fun d => return { d with
      decls := ← updateSlots none (updateOptional {} (updateDecl stmt)) d.decls })]

/-- What is wrong with a document that cannot be read. -/
def problemOf : Error → Diagnostic
  | .malformed => .fatal .decodeFailed {} "decode IR"
  | .nodeLength what n =>
    .fatal .decodeFailed {}
      ("decode IR: " ++ what ++ " node has " ++ Bytes.ofNat n ++ " fields, want 4")
  | .unknownKind what kind file line col =>
    .fatal .unknownKind ⟨.ofNat file, .ofNat line, .ofNat col⟩
      ("unknown " ++ what ++ " kind " ++ Bytes.ofNat kind)

/-- The statements of a body in visiting order. -/
def statements (root : Stmt) : List Stmt :=
  (Node.all root).filterMap fun
    | .stmt s => some s
    | .expr _ => none

/-- Check the numbers of statements against those `seen` before, and add them. -/
def checkIds (member : Bytes) (seen : List UInt32) : List Stmt → Result (List UInt32)
  | [] => .ok seen
  | s :: rest =>
    if s.mark.id = 0 || seen.contains s.mark.id then
      .error (.problem ((Diagnostic.fatal .duplicateNode s.mark.span
        ("statement id " ++ Bytes.ofNat s.mark.id.toNat ++ " is missing or reused")).inMember
          member))
    else checkIds member (s.mark.id :: seen) rest

/-- Check that no two statements of a program have the same number, and none has zero. -/
def checkProgram (p : Program) : Result Unit := do
  let _ ← p.bodies.foldlM
    (fun seen b => checkIds b.func.qualifiedName seen (statements b.root)) []

/-- The program of a document that was read. Its functions are asked for their statements, those
that are left out as well. -/
def Draft.toProgram (d : Draft) : Result Program := do
  if d.schema ≠ version then
    Result.problem .schemaMismatch {}
      ("IR schema " ++ Bytes.ofNat d.schema.toNat ++ ", expected "
        ++ Bytes.ofNat version.toNat)
  else
    match TypeTable.restore (Rows.items d.types.items)
        ((Rows.items d.nominals.items).map (·.toNominal)) with
    | .error e => Result.problem .decodeFailed {} ("restore type table: " ++ e.message)
    | .ok types =>
      if d.isWhole then
        let p : Program :=
          { name := d.name, types := types, files := FileSet.addAll {} d.files
            decls := d.decls.items.map fun l => l.filterMap fun t => t.map (·.toDecl) }
        checkProgram p
        return p
      else throw (.crash .absent)

/-- Read the program of a document. No tree is deeper than the document is long. -/
def read (data : Bytes) : Result Program :=
  match (readDraft (updateStmt (data.length + 1))).run data with
  | .error e => .error (.problem (problemOf e))
  | .ok (draft, _) => draft.toProgram

end WastForge.Document
