import WastForge.Document.Write

/-!
# Reading trees

Expressions and statements are read from nodes: lists of a kind, a type or number, a place and
contents. A node that is read over an earlier one has the kind, the type or number and the
contents of its own, but its place is read over the earlier place.
-/

namespace WastForge.Document

open Pack

/-- A place. -/
def updateSpan : Update Span :=
  updateRecord {} [
    ("File", fun s => return { s with file := ← readU32 }),
    ("Line", fun s => return { s with line := ← readU32 }),
    ("Col", fun s => return { s with col := ← readU32 })]

/-- A member. -/
def updateRef : Update MemberRef :=
  updateRecord {} [
    ("Type", fun m => return { m with type := ← readText }),
    ("Name", fun m => return { m with name := ← readText })]

/-- A literal. -/
def readLiteral : Reader Literal :=
  readRecord { kind := .ofCode 0 } [
    ("Kind", fun l => return { l with kind := .ofCode (← readU8) }),
    ("IntValue", fun l => return { l with int := ← readI64 }),
    ("FloatValue", fun l => return { l with float := ← readDouble }),
    ("BoolValue", fun l => return { l with bool := ← readBool }),
    ("StringValue", fun l => return { l with string := ← readText })]

/-- The start of a node over one with the place `old`: its kind, its type or number and its place,
or nothing for a missing node. -/
def readNodeStart (what : Bytes) (old : Span) : Reader (Option (UInt8 × UInt32 × Span)) := do
  match ← head with
  | .nil => return none
  | .array n =>
    if n ≠ 4 then throw (.nodeLength what n)
    let kind ← readU8
    let word ← readU32
    let span ← updateSpan old
    return some (kind, word, span)
  | _ => malformed

/-- A node of an unknown kind. -/
def unknownKind {α : Type} (what : Bytes) (kind : UInt8) (s : Span) : Reader α :=
  throw (.unknownKind what kind.toNat s.file.toNat s.line.toNat s.col.toNat)

/-- The contents of an expression of a kind; `expr` reads its operands. -/
def readExprContents (expr : Update Expr) (kind : UInt8) (a : Annot) : Reader Expr :=
  let exprs : Update (Slots Expr) := updateSlots .missing expr
  match kind.toNat with
  | 1 => return .literal a (← readLiteral)
  | 2 => do
    let (name, isParam) ← readRecord ([], false) [
      ("Name", fun (_, p) => return (← readText, p)),
      ("IsParam", fun (n, _) => return (n, ← readBool))]
    return .variable a name isParam
  | 3 => do
    let (op, l, r) ← readRecord (BinaryOp.ofCode 0, Expr.missing, Expr.missing) [
      ("Op", fun (_, l, r) => return (.ofCode (← readU8), l, r)),
      ("Left", fun (op, l, r) => return (op, ← expr l, r)),
      ("Right", fun (op, l, r) => return (op, l, ← expr r))]
    return .binary a op l r
  | 4 => do
    let (op, x) ← readRecord (UnaryOp.ofCode 0, Expr.missing) [
      ("Op", fun (_, x) => return (.ofCode (← readU8), x)),
      ("Operand", fun (op, x) => return (op, ← expr x))]
    return .unary a op x
  | 5 => do
    let (target, params, isStatic, receiver, args) ←
      readRecord (({} : MemberRef), none, false, Expr.missing, {}) [
        ("Target", fun (t, p, s, r, l) => return (← updateRef t, p, s, r, l)),
        ("ParamTypes", fun (t, _, s, r, l) => return (t, ← readRows readU32, s, r, l)),
        ("Static", fun (t, p, _, r, l) => return (t, p, ← readBool, r, l)),
        ("Receiver", fun (t, p, s, r, l) => return (t, p, s, ← expr r, l)),
        ("Args", fun (t, p, s, r, l) => return (t, p, s, r, ← exprs l))]
    return .call a target params isStatic receiver args.items
  | 6 => do
    let (target, isStatic, receiver) ← readRecord (({} : MemberRef), false, Expr.missing) [
      ("Field", fun (t, s, r) => return (← updateRef t, s, r)),
      ("Static", fun (t, _, r) => return (t, ← readBool, r)),
      ("Receiver", fun (t, s, r) => return (t, s, ← expr r))]
    return .field a target isStatic receiver
  | 7 => do
    let (target, getter, setter, isStatic, receiver) ←
      readRecord (({} : MemberRef), ({} : MemberRef), ({} : MemberRef), false, Expr.missing) [
        ("Property", fun (t, g, w, s, r) => return (← updateRef t, g, w, s, r)),
        ("Getter", fun (t, g, w, s, r) => return (t, ← updateRef g, w, s, r)),
        ("Setter", fun (t, g, w, s, r) => return (t, g, ← updateRef w, s, r)),
        ("Static", fun (t, g, w, _, r) => return (t, g, w, ← readBool, r)),
        ("Receiver", fun (t, g, w, s, r) => return (t, g, w, s, ← expr r))]
    return .property a target getter setter isStatic receiver
  | 8 => return .cast a (← readRecord .missing [("Operand", expr)])
  | 9 => return .reference a (← readRecord .missing [("Referent", expr)])
  | 10 => return .comma a (← readRecord {} [("Exprs", exprs)]).items
  | 11 => do
    let (c, x, y) ← readRecord (Expr.missing, Expr.missing, Expr.missing) [
      ("Cond", fun (c, x, y) => return (← expr c, x, y)),
      ("Then", fun (c, x, y) => return (c, ← expr x, y)),
      ("Else", fun (c, x, y) => return (c, x, ← expr y))]
    return .conditional a c x y
  | 12 => do
    let (elem, size, elements, hasInit) ← readRecord ((0 : TypeId), Expr.missing, {}, false) [
      ("Elem", fun (_, s, l, h) => return (← readU32, s, l, h)),
      ("Size", fun (t, s, l, h) => return (t, ← expr s, l, h)),
      ("Elements", fun (t, s, l, h) => return (t, s, ← exprs l, h)),
      ("HasInit", fun (t, s, l, _) => return (t, s, l, ← readBool))]
    return .arrayInit a elem size elements.items hasInit
  | 13 | 14 => do
    let (target, aligned, address, value) ←
      readRecord ((0 : TypeId), false, Expr.missing, Expr.missing) [
        ("Target", fun (_, l, x, v) => return (← readU32, l, x, v)),
        ("Aligned", fun (t, _, x, v) => return (t, ← readBool, x, v)),
        ("Address", fun (t, l, x, v) => return (t, l, ← expr x, v)),
        ("Value", fun (t, l, x, v) => return (t, l, x, ← expr v))]
    return .memory a (kind = 14) target aligned address value
  | 15 => return .stringLength a (← readRecord .missing [("String", expr)])
  | 16 => do
    let (op, args) ← readRecord ([], {}) [
      ("Op", fun (_, l) => return (← readText, l)),
      ("Args", fun (o, l) => return (o, ← exprs l))]
    return .intrinsic a op args.items
  | 17 => do
    let (exportName, args) ← readRecord ([], {}) [
      ("Export", fun (_, l) => return (← readText, l)),
      ("Args", fun (n, l) => return (n, ← exprs l))]
    return .invoke a exportName args.items
  | 18 | 19 => do
    let (expected, exportName, args) ← readRecord (Expr.missing, [], {}) [
      ("Expected", fun (x, n, l) => return (← expr x, n, l)),
      ("Export", fun (x, _, l) => return (x, ← readText, l)),
      ("Args", fun (x, n, l) => return (x, n, ← exprs l))]
    return .assertion a (kind = 19) expected exportName args.items
  | 20 => do
    let (offset, count, expected, fromFile) ←
      readRecord ((0 : Int64), (0 : Int64), [], false) [
        ("Offset", fun (_, n, x, f) => return (← readI64, n, x, f)),
        ("Count", fun (o, _, x, f) => return (o, ← readI64, x, f)),
        ("Expected", fun (o, n, _, f) => return (o, n, ← readText, f)),
        ("FromFile", fun (o, n, x, _) => return (o, n, x, ← readBool))]
    return .assertHeap a offset count expected fromFile
  | 21 => do
    let (op, args) ← readRecord (({} : HarnessOp), {}) [
      ("Op", fun (_, l) => return (⟨← readU8⟩, l)),
      ("Args", fun (o, l) => return (o, ← exprs l))]
    return .harnessCall a op args.items
  | _ => unknownKind "expression" kind a.span

/-- What nothing makes of an earlier expression: it stays missing, or loses all it has. -/
def clearedExpr : Expr → Expr
  | .missing => .missing
  | _ => .bare {} 0

/-- An expression of at most `depth` levels. -/
def updateExpr : Nat → Update Expr
  | 0, _ => malformed
  | depth + 1, old => do
    match ← readNodeStart "expression" old.span with
    | none => return clearedExpr old
    | some (kind, type, span) => readExprContents (updateExpr depth) kind ⟨type, span⟩

/-- A variable of a declaration. -/
def updateVar (expr : Update Expr) : Update VarInit :=
  updateRecord {} [
    ("Name", fun v => return { v with name := ← readText }),
    ("Init", fun v => return { v with init := ← expr v.init })]

/-- A label while it is read. -/
structure LabelDraft where
  name : Bytes := []
  body : Slots Stmt := {}

/-- The label that was read. -/
def LabelDraft.toLabel (d : LabelDraft) : Label := .mk d.name d.body.items

/-- A label with its statements. -/
def updateLabel (stmt : Update Stmt) : Update LabelDraft :=
  updateRecord {} [
    ("Name", fun d => return { d with name := ← readText }),
    ("Body", fun d => return { d with body := ← updateSlots .missing stmt d.body })]

/-- An arm of a switch while it is read. -/
structure CaseDraft where
  values : Slots Expr := {}
  isDefault : Bool := false
  body : Slots Stmt := {}

/-- The arm that was read. -/
def CaseDraft.toCase (d : CaseDraft) : Case := .mk d.values.items d.isDefault d.body.items

/-- An arm of a switch. -/
def updateCase (expr : Update Expr) (stmt : Update Stmt) : Update CaseDraft :=
  updateRecord {} [
    ("Values", fun d => return { d with values := ← updateSlots .missing expr d.values }),
    ("Default", fun d => return { d with isDefault := ← readBool }),
    ("Body", fun d => return { d with body := ← updateSlots .missing stmt d.body })]

/-- The contents of a statement of a kind; `expr` and `stmt` read its parts. -/
def readStmtContents (expr : Update Expr) (stmt : Update Stmt) (kind : UInt8) (m : Mark) :
    Reader Stmt :=
  let stmts : Update (Slots Stmt) := updateSlots .missing stmt
  match kind.toNat with
  | 1 => return .block m (← readRecord {} [("Stmts", stmts)]).items
  | 2 => return .expr m (← readRecord .missing [("Expr", expr)])
  | 3 => do
    let (c, x, y) ← readRecord (Expr.missing, Stmt.missing, Stmt.missing) [
      ("Cond", fun (c, x, y) => return (← expr c, x, y)),
      ("Then", fun (c, x, y) => return (c, ← stmt x, y)),
      ("Else", fun (c, x, y) => return (c, x, ← stmt y))]
    return .ite m c x y
  | 4 => do
    let (index, init, cond, post, body) ←
      readRecord ((0 : LoopIndex), {}, Expr.missing, {}, Stmt.missing) [
        ("Index", fun (_, i, c, p, b) => return (← readI32, i, c, p, b)),
        ("Init", fun (n, i, c, p, b) => return (n, ← stmts i, c, p, b)),
        ("Cond", fun (n, i, c, p, b) => return (n, i, ← expr c, p, b)),
        ("Post", fun (n, i, c, p, b) => return (n, i, c, ← updateSlots .missing expr p, b)),
        ("Body", fun (n, i, c, p, b) => return (n, i, c, p, ← stmt b))]
    return .forLoop m index init.items cond post.items body
  | 5 | 6 => do
    let (index, cond, body) ← readRecord ((0 : LoopIndex), Expr.missing, Stmt.missing) [
      ("Index", fun (_, c, b) => return (← readI32, c, b)),
      ("Cond", fun (n, c, b) => return (n, ← expr c, b)),
      ("Body", fun (n, c, b) => return (n, c, ← stmt b))]
    return .whileLoop m (kind = 6) index cond body
  | 7 => do
    let labels ← readRecord {} [("Labels", updateSlots {} (updateLabel stmt))]
    return .labelGroup m (labels.items.map fun l => l.map (·.toLabel))
  | 8 => return .goto m (← readRecord [] [("Label", fun _ => readText)])
  | 9 | 10 => return .branch m (kind = 10) (← readRecord 0 [("Target", fun _ => readI32)])
  | 11 => return .ret m (← readRecord .missing [("Value", expr)])
  | 12 => do
    let (index, key, cases) ← readRecord ((0 : LoopIndex), Expr.missing, {}) [
      ("Index", fun (_, k, l) => return (← readI32, k, l)),
      ("Key", fun (n, k, l) => return (n, ← expr k, l)),
      ("Cases", fun (n, k, l) => return (n, k, ← updateSlots {} (updateCase expr stmt) l))]
    return .switch m index key (cases.items.map fun l => l.map (·.toCase))
  | 13 => return .varDecl m (← readRecord {} [("Vars", updateSlots {} (updateVar expr))]).items
  | _ => unknownKind "statement" kind m.span

/-- What nothing makes of an earlier statement: it stays missing, or loses all it has. -/
def clearedStmt : Stmt → Stmt
  | .missing => .missing
  | _ => .bare {} 0

/-- A statement of at most `depth` levels. -/
def updateStmt : Nat → Update Stmt
  | 0, _ => malformed
  | depth + 1, old => do
    match ← readNodeStart "statement" old.mark.span with
    | none => return clearedStmt old
    | some (kind, id, span) =>
      readStmtContents (updateExpr depth) (updateStmt depth) kind ⟨id, span⟩

end WastForge.Document
