import WastForge.Program.Basic

/-!
# Drafts

A draft is a program that is being put together: types, fields and functions are declared one
after the other, and every statement gets a number of its own. The place of a statement may be said
at any time; it is filled in when the draft is finished.
-/

namespace WastForge

/-- A program that is being put together. -/
structure Draft where
  program : Program := {}
  /-- The number of the latest statement. -/
  lastId : UInt32 := 0
  /-- The places of statements by their numbers, the latest first. -/
  places : List (UInt32 × Span) := []
  deriving Inhabited

/-- Work on a draft. -/
abbrev DraftM := StateM Draft

namespace Stmt

/-- The mark with its place filled in. -/
def placedMark (places : List (UInt32 × Span)) (m : Mark) : Mark :=
  match places.lookup m.id with
  | some span => { m with span := span }
  | none => m

mutual

/-- The statement with the places of all its parts filled in. -/
def placed (places : List (UInt32 × Span)) : Stmt → Stmt
  | .missing => .missing
  | .bare m k => .bare (placedMark places m) k
  | .block m stmts => .block (placedMark places m) (placedRows places stmts)
  | .expr m e => .expr (placedMark places m) e
  | .ite m c yes no => .ite (placedMark places m) c (placed places yes) (placed places no)
  | .forLoop m i init c post body =>
    .forLoop (placedMark places m) i (placedRows places init) c post (placed places body)
  | .whileLoop m last i c body => .whileLoop (placedMark places m) last i c (placed places body)
  | .labelGroup m labels => .labelGroup (placedMark places m) (placedLabelRows places labels)
  | .goto m label => .goto (placedMark places m) label
  | .branch m isContinue target => .branch (placedMark places m) isContinue target
  | .ret m e => .ret (placedMark places m) e
  | .switch m i key cases => .switch (placedMark places m) i key (placedCaseRows places cases)
  | .varDecl m vars => .varDecl (placedMark places m) vars

/-- The statements of a list, placed. -/
def placedRows (places : List (UInt32 × Span)) : Option (List Stmt) → Option (List Stmt)
  | none => none
  | some l => some (placedList places l)

/-- The statements of a list, placed. -/
def placedList (places : List (UInt32 × Span)) : List Stmt → List Stmt
  | [] => []
  | s :: rest => placed places s :: placedList places rest

/-- The statements behind labels, placed. -/
def placedLabelRows (places : List (UInt32 × Span)) : Option (List Label) → Option (List Label)
  | none => none
  | some l => some (placedLabels places l)

/-- The statements behind labels, placed. -/
def placedLabels (places : List (UInt32 × Span)) : List Label → List Label
  | [] => []
  | .mk name body :: rest => .mk name (placedRows places body) :: placedLabels places rest

/-- The statements of the arms of a switch, placed. -/
def placedCaseRows (places : List (UInt32 × Span)) : Option (List Case) → Option (List Case)
  | none => none
  | some l => some (placedCases places l)

/-- The statements of the arms of a switch, placed. -/
def placedCases (places : List (UInt32 × Span)) : List Case → List Case
  | [] => []
  | .mk values isDefault body :: rest =>
    .mk values isDefault (placedRows places body) :: placedCases places rest

end

end Stmt

namespace Draft

/-- A draft of a program without declarations. -/
def ofName (name : Bytes) : Draft := { program := { name := name } }

/-- The program of a draft, with the places of all statements. -/
def finish (d : Draft) : Program :=
  let placed (f : Func) : Func := { f with body := f.body.placed d.places }
  { d.program with
    decls := d.program.decls.map fun ds => ds.map fun t =>
      { t with funcs := t.funcs.map fun fs => fs.map placed } }

/-- The program that some work on an empty draft leaves. -/
def build (name : Bytes) (work : DraftM Unit) : Program := (work.run (ofName name)).2.finish

end Draft

namespace DraftM

/-- Change the program. -/
def modifyProgram (f : Program → Program) : DraftM Unit :=
  modify fun d => { d with program := f d.program }

/-- A type that the table of the program has from now on. -/
def intern (desc : Descriptor) : DraftM TypeId := modifyGet fun d =>
  let (types, id) := d.program.types.intern desc
  (id, { d with program := { d.program with types := types } })

/-- The number of a source file. -/
def file (path : Bytes) : DraftM UInt32 := modifyGet fun d =>
  let (files, id) := d.program.files.add path
  (id, { d with program := { d.program with files := files } })

/-- The position of the type with a name, which is declared when it is named first. -/
def type (name : Bytes) : DraftM Nat := do
  let p := (← get).program
  match p.type? name with
  | some (i, _) => return i
  | none =>
    modifyProgram fun p => { p with decls := some (Rows.items p.decls ++ [{ name := name }]) }
    return (Rows.items p.decls).length

/-- Change a type. -/
def modifyType (i : Nat) (f : TypeDecl → TypeDecl) : DraftM Unit :=
  modifyProgram fun p => { p with decls := p.decls.map (·.modify i f) }

/-- Declare a static field. -/
def staticField (typeName name : Bytes) (type : TypeId) (readOnly : Bool) : DraftM Unit := do
  let i ← DraftM.type typeName
  modifyType i fun t =>
    { t with
      fields := some
        (Rows.items t.fields ++ [some { name := name, type := type, readOnly := readOnly }]) }

/-- The type of the result of a function, which is nothing if none is given. -/
def resultType (t : TypeId) : TypeId := if t = 0 then TypeTable.void else t

/-- Declare a static function; `flags` are those that it has besides. -/
def func (typeName name : Bytes) (result : TypeId) (flags : UInt8) : DraftM FuncId := do
  let i ← DraftM.type typeName
  let f : Func :=
    { name := name
      declaringType := typeName
      result := resultType result
      flags := flags ||| 1 }
  let count := match (← get).program.decls with
    | some ds => ((ds[i]?).map fun t => (Rows.items t.funcs).length).getD 0
    | none => 0
  modifyType i fun t => { t with funcs := some (Rows.items t.funcs ++ [f]) }
  return ⟨i, count⟩

/-- Change a function. -/
def modifyFunc (id : FuncId) (f : Func → Func) : DraftM Unit :=
  modifyType id.decl fun t => { t with funcs := t.funcs.map (·.modify id.index f) }

/-- A function as it is now. -/
def getFunc (id : FuncId) : DraftM Func := do
  let decls := Rows.items (← get).program.decls
  return ((decls[id.decl]?).bind fun t => (Rows.items t.funcs)[id.index]?).getD {}

/-- Add a parameter; the answer is the expression that reads it. -/
def param (id : FuncId) (name : Bytes) (type : TypeId) : DraftM Expr := do
  modifyFunc id fun f => { f with params := some (Rows.items f.params ++ [⟨name, type⟩]) }
  return .variable ⟨type, {}⟩ name true

/-- Add a local variable; the answer is the expression that reads it. -/
def localVar (id : FuncId) (name : Bytes) (type : TypeId) : DraftM Expr := do
  modifyFunc id fun f => { f with locals := some (Rows.items f.locals ++ [⟨name, type⟩]) }
  return .variable ⟨type, {}⟩ name false

/-- Export a function; an empty name stands for its own. -/
def exportAs (id : FuncId) (name : Bytes) : DraftM Unit :=
  modifyFunc id fun f => { f with flags := f.flags ||| 2, exportName := name }

end DraftM

end WastForge
