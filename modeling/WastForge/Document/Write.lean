import WastForge.Document.Pack
import WastForge.Program.Basic

/-!
# Writing documents

A program as a document: a record with the version of the format, the name, the paths of the
files, the type table and the declarations. An expression or statement is a list of four: its
kind, its type or number, its place and a record of the rest.
-/

namespace WastForge.Document

/-- The version of the format. -/
def version : UInt16 := 1

open Pack in
/-- A place. -/
def writeSpan (s : Span) : Bytes :=
  record [("File", u32 s.file), ("Line", u32 s.line), ("Col", u32 s.col)]

open Pack in
/-- A member. -/
def writeRef (m : MemberRef) : Bytes := record [("Type", text m.type), ("Name", text m.name)]

open Pack in
/-- A node: its kind, its type or number, its place and its contents. -/
def writeNode (kind : UInt8) (word : UInt32) (span : Span) (contents : Bytes) : Bytes :=
  array [u8 kind, u32 word, writeSpan span, contents]

open Pack in
/-- A literal. -/
def writeLiteral (l : Literal) : Bytes :=
  record [("Kind", u8 l.kind.code), ("IntValue", i64 l.int), ("FloatValue", double l.float),
    ("BoolValue", bool l.bool), ("StringValue", text l.string)]

mutual

/-- An expression. -/
def writeExpr (e : Expr) : Bytes :=
  match e with
  | .missing => Pack.nil
  | .bare a kind => writeNode kind a.type a.span Pack.nil
  | .literal a l => writeNode 1 a.type a.span (writeLiteral l)
  | .variable a name isParam =>
    writeNode 2 a.type a.span
      (Pack.record [("Name", Pack.text name), ("IsParam", Pack.bool isParam)])
  | .binary a op l r =>
    writeNode 3 a.type a.span
      (Pack.record [("Op", Pack.u8 op.code), ("Left", writeExpr l), ("Right", writeExpr r)])
  | .unary a op x =>
    writeNode 4 a.type a.span (Pack.record [("Op", Pack.u8 op.code), ("Operand", writeExpr x)])
  | .call a target params isStatic receiver args =>
    writeNode 5 a.type a.span
      (Pack.record [("Target", writeRef target), ("ParamTypes", Pack.rows Pack.u32 params),
        ("Static", Pack.bool isStatic), ("Receiver", writeExpr receiver),
        ("Args", writeExprRows args)])
  | .field a target isStatic receiver =>
    writeNode 6 a.type a.span
      (Pack.record [("Field", writeRef target), ("Static", Pack.bool isStatic),
        ("Receiver", writeExpr receiver)])
  | .property a target getter setter isStatic receiver =>
    writeNode 7 a.type a.span
      (Pack.record [("Property", writeRef target), ("Getter", writeRef getter),
        ("Setter", writeRef setter), ("Static", Pack.bool isStatic),
        ("Receiver", writeExpr receiver)])
  | .cast a x => writeNode 8 a.type a.span (Pack.record [("Operand", writeExpr x)])
  | .reference a x => writeNode 9 a.type a.span (Pack.record [("Referent", writeExpr x)])
  | .comma a xs => writeNode 10 a.type a.span (Pack.record [("Exprs", writeExprRows xs)])
  | .conditional a c x y =>
    writeNode 11 a.type a.span
      (Pack.record [("Cond", writeExpr c), ("Then", writeExpr x), ("Else", writeExpr y)])
  | .arrayInit a elem size elements hasInit =>
    writeNode 12 a.type a.span
      (Pack.record [("Elem", Pack.u32 elem), ("Size", writeExpr size),
        ("Elements", writeExprRows elements), ("HasInit", Pack.bool hasInit)])
  | .memory a isStore target aligned address value =>
    writeNode (if isStore then 14 else 13) a.type a.span
      (Pack.record [("Target", Pack.u32 target), ("Aligned", Pack.bool aligned),
        ("Address", writeExpr address), ("Value", writeExpr value)])
  | .stringLength a s => writeNode 15 a.type a.span (Pack.record [("String", writeExpr s)])
  | .intrinsic a op args =>
    writeNode 16 a.type a.span (Pack.record [("Op", Pack.text op), ("Args", writeExprRows args)])
  | .invoke a exportName args =>
    writeNode 17 a.type a.span
      (Pack.record [("Export", Pack.text exportName), ("Args", writeExprRows args)])
  | .assertion a isEq expected exportName args =>
    writeNode (if isEq then 19 else 18) a.type a.span
      (Pack.record [("Expected", writeExpr expected), ("Export", Pack.text exportName),
        ("Args", writeExprRows args)])
  | .assertHeap a offset count expected fromFile =>
    writeNode 20 a.type a.span
      (Pack.record [("Offset", Pack.i64 offset), ("Count", Pack.i64 count),
        ("Expected", Pack.text expected), ("FromFile", Pack.bool fromFile)])
  | .harnessCall a op args =>
    writeNode 21 a.type a.span
      (Pack.record [("Op", Pack.u8 op.code), ("Args", writeExprRows args)])

/-- A list of expressions that may be left out. -/
def writeExprRows : Option (List Expr) → Bytes
  | none => Pack.nil
  | some l => Pack.array (writeExprs l)

/-- The expressions of a list. -/
def writeExprs : List Expr → List Bytes
  | [] => []
  | e :: rest => writeExpr e :: writeExprs rest

end

/-- A variable of a declaration. -/
def writeVar (v : VarInit) : Bytes :=
  Pack.record [("Name", Pack.text v.name), ("Init", writeExpr v.init)]

mutual

/-- A statement. -/
def writeStmt (s : Stmt) : Bytes :=
  match s with
  | .missing => Pack.nil
  | .bare m kind => writeNode kind m.id m.span Pack.nil
  | .block m stmts => writeNode 1 m.id m.span (Pack.record [("Stmts", writeStmtRows stmts)])
  | .expr m e => writeNode 2 m.id m.span (Pack.record [("Expr", writeExpr e)])
  | .ite m c x y =>
    writeNode 3 m.id m.span
      (Pack.record [("Cond", writeExpr c), ("Then", writeStmt x), ("Else", writeStmt y)])
  | .forLoop m index init cond post body =>
    writeNode 4 m.id m.span
      (Pack.record [("Index", Pack.i32 index), ("Init", writeStmtRows init),
        ("Cond", writeExpr cond), ("Post", writeExprRows post), ("Body", writeStmt body)])
  | .whileLoop m testLast index cond body =>
    writeNode (if testLast then 6 else 5) m.id m.span
      (Pack.record [("Index", Pack.i32 index), ("Cond", writeExpr cond),
        ("Body", writeStmt body)])
  | .labelGroup m labels =>
    writeNode 7 m.id m.span (Pack.record [("Labels", writeLabelRows labels)])
  | .goto m label => writeNode 8 m.id m.span (Pack.record [("Label", Pack.text label)])
  | .branch m isContinue target =>
    writeNode (if isContinue then 10 else 9) m.id m.span
      (Pack.record [("Target", Pack.i32 target)])
  | .ret m value => writeNode 11 m.id m.span (Pack.record [("Value", writeExpr value)])
  | .switch m index key cases =>
    writeNode 12 m.id m.span
      (Pack.record [("Index", Pack.i32 index), ("Key", writeExpr key),
        ("Cases", writeCaseRows cases)])
  | .varDecl m vars =>
    writeNode 13 m.id m.span (Pack.record [("Vars", Pack.rows writeVar vars)])

/-- A list of statements that may be left out. -/
def writeStmtRows : Option (List Stmt) → Bytes
  | none => Pack.nil
  | some l => Pack.array (writeStmts l)

/-- The statements of a list. -/
def writeStmts : List Stmt → List Bytes
  | [] => []
  | s :: rest => writeStmt s :: writeStmts rest

/-- A list of labels that may be left out. -/
def writeLabelRows : Option (List Label) → Bytes
  | none => Pack.nil
  | some l => Pack.array (writeLabels l)

/-- The labels of a list. -/
def writeLabels : List Label → List Bytes
  | [] => []
  | .mk name body :: rest =>
    Pack.record [("Name", Pack.text name), ("Body", writeStmtRows body)] :: writeLabels rest

/-- A list of arms that may be left out. -/
def writeCaseRows : Option (List Case) → Bytes
  | none => Pack.nil
  | some l => Pack.array (writeCases l)

/-- The arms of a list. -/
def writeCases : List Case → List Bytes
  | [] => []
  | .mk values isDefault body :: rest =>
    Pack.record [("Values", writeExprRows values), ("Default", Pack.bool isDefault),
      ("Body", writeStmtRows body)] :: writeCases rest

end

open Pack in
/-- A parameter or local variable. -/
def writeLocal (l : Local) : Bytes := record [("Name", text l.name), ("Type", u32 l.type)]

open Pack in
/-- A function. -/
def writeFunc (f : Func) : Bytes :=
  record [("Name", text f.name), ("DeclaringType", text f.declaringType),
    ("Params", rows writeLocal f.params), ("Locals", rows writeLocal f.locals),
    ("Result", u32 f.result), ("Flags", u8 f.flags), ("ExportName", text f.exportName),
    ("Body", writeStmt f.body), ("Span", writeSpan f.span)]

open Pack in
/-- A static field. -/
def writeField (f : FieldDecl) : Bytes :=
  record [("Name", text f.name), ("Type", u32 f.type), ("ReadOnly", bool f.readOnly),
    ("Span", writeSpan f.span)]

open Pack in
/-- A type declaration. -/
def writeDecl (d : TypeDecl) : Bytes :=
  record [("Name", text d.name), ("Fields", rows (optional writeField) d.fields),
    ("Funcs", rows writeFunc d.funcs), ("Span", writeSpan d.span)]

open Pack in
/-- A type descriptor. -/
def writeDescriptor (d : Descriptor) : Bytes :=
  record [("Kind", u8 d.kind.code), ("Elem", u32 d.elem), ("Width", u8 d.width),
    ("Payload", u32 d.payload)]

open Pack in
/-- A field of a struct. -/
def writeStructField (f : StructField) : Bytes :=
  record [("Name", text f.name), ("Type", u32 f.type)]

open Pack in
/-- A nominal slot. A struct without fields has no list of them. -/
def writeNominal (n : Nominal) : Bytes :=
  record [("Name", text n.name), ("Fields", rows writeStructField (Rows.ofList n.fields))]

open Pack in
/-- The document of a program. -/
def write (p : Program) : Bytes :=
  record [("Schema", u16 version), ("Name", text p.name),
    ("Files", array (p.files.paths.map text)),
    ("Types", array (p.types.types.map writeDescriptor)),
    ("Nominals", array (p.types.nominals.map writeNominal)),
    ("Decls", rows writeDecl p.decls)]

end WastForge.Document
