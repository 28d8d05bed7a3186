import WastForge.Draft.Basic

/-!
# Trees of a draft

The expressions and statements that a draft is made of.
-/

namespace WastForge

/-!
## Expressions of a draft

Expressions are built with the type of their value, which follows from their parts where it can.
-/

namespace Expr

/-- A literal of a type. -/
def ofLiteral (type : TypeId) (l : Literal) : Expr := .literal ⟨type, {}⟩ l

/-- An `int32` literal. -/
def i32 (n : Int64) : Expr := ofLiteral TypeTable.int32 { kind := .int, int := n }

/-- An `int64` literal. -/
def i64 (n : Int64) : Expr := ofLiteral TypeTable.int64 { kind := .int, int := n }

/-- A `uint8` literal. -/
def u8 (n : UInt8) : Expr :=
  ofLiteral TypeTable.uint8 { kind := .int, int := Int64.ofNat n.toNat }

/-- A `float64` literal, by its bits. -/
def f64 (bits : UInt64) : Expr := ofLiteral TypeTable.float64 { kind := .float, float := bits }

/-- A `float32` literal, by the bits of the `float64` of the same value. -/
def f32 (bits : UInt64) : Expr := ofLiteral TypeTable.float32 { kind := .float, float := bits }

/-- A truth value. -/
def ofBool (b : Bool) : Expr := ofLiteral TypeTable.bool { kind := .bool, bool := b }

/-- A character, by its number. -/
def char (n : Int64) : Expr := ofLiteral TypeTable.char { kind := .char, int := n }

/-- A string literal. -/
def string (s : Bytes) : Expr := ofLiteral TypeTable.string { kind := .string, string := s }

/-- The null reference of a type. -/
def null (t : TypeId) : Expr := ofLiteral t { kind := .null }

/-- The zero of a type. -/
def zero (t : TypeId) : Expr := ofLiteral t { kind := .default }

/-- Two operands and an operator. Comparisons and logical operators give a truth value, all others
have the type of the left operand. -/
def op2 (op : BinaryOp) (l r : Expr) : Expr :=
  let logical := op.isComparison || op = .logicalAnd || op = .logicalOr
  .binary ⟨if logical then TypeTable.bool else l.type, {}⟩ op l r

/-- An assignment. -/
def assign (l r : Expr) : Expr := op2 .assign l r

/-- An operand and an operator. -/
def op1 (op : UnaryOp) (x : Expr) : Expr :=
  .unary ⟨if op = .not then TypeTable.bool else x.type, {}⟩ op x

/-- A call with given types of the parameters; without a receiver it is static. -/
def callTo (target : MemberRef) (result : TypeId) (params : Option (List TypeId)) (receiver : Expr)
    (args : List Expr) : Expr :=
  .call ⟨DraftM.resultType result, {}⟩ target params receiver.isMissing receiver (Rows.ofList args)

/-- A static call whose parameters have the types of the arguments. -/
def callStatic (target : MemberRef) (result : TypeId) (args : List Expr) : Expr :=
  callTo target result (some (args.map (·.type))) .missing args

/-- A call on a receiver whose parameters have the types of the arguments. -/
def callMethod (target : MemberRef) (result : TypeId) (receiver : Expr) (args : List Expr) : Expr :=
  callTo target result (some (args.map (·.type))) receiver args

/-- A static property, which is read and written through its accessors. -/
def staticProperty (typeName name : Bytes) (type : TypeId) : Expr :=
  .property ⟨type, {}⟩ ⟨typeName, name⟩ ⟨typeName, "get_" ++ name⟩ ⟨typeName, "set_" ++ name⟩ true
    .missing

/-- A conversion to a type. -/
def convert (t : TypeId) (x : Expr) : Expr := .cast ⟨t, {}⟩ x

/-- Expressions one after the other; the last one gives the value. -/
def sequence (xs : List Expr) : Expr :=
  .comma ⟨match xs.getLast? with
    | some e => e.type
    | none => TypeTable.void, {}⟩ (Rows.ofList xs)

/-- A choice between two expressions. -/
def choose (c yes no : Expr) : Expr := .conditional ⟨yes.type, {}⟩ c yes no

end Expr

namespace DraftM

/-- A static call to a function of the draft. -/
def callFunc (id : FuncId) (args : List Expr) : DraftM Expr := do
  let f ← getFunc id
  return .callTo f.ref f.result (some ((Rows.items f.params).map (·.type))) .missing args

/-- A static field, with its type if it is declared. -/
def fieldExpr (typeName name : Bytes) : DraftM Expr := do
  let ref : MemberRef := ⟨typeName, name⟩
  let type := (((← get).program.field? ref).map (·.type)).getD 0
  return .field ⟨type, {}⟩ ref true .missing

/-- A reference to an expression. -/
def reference (x : Expr) : DraftM Expr := do
  let t ← intern { kind := .pointer, elem := x.type }
  return .reference ⟨t, {}⟩ x

/-- A new array of given elements. -/
def arrayOf (elem : TypeId) (xs : List Expr) : DraftM Expr := do
  let t ← intern { kind := .array, elem := elem }
  return .arrayInit ⟨t, {}⟩ elem (.i32 (Int64.ofNat xs.length)) (Rows.ofList xs) true

/-- A new array of a size. -/
def newArray (elem : TypeId) (size : Expr) : DraftM Expr := do
  let t ← intern { kind := .array, elem := elem }
  return .arrayInit ⟨t, {}⟩ elem size none false

end DraftM

end WastForge

namespace WastForge.DraftM

/-!
## Statements of a draft

Every statement gets the next number when it is built, after its parts.
-/

/-- The mark of the next statement. -/
def nextMark : DraftM Mark := modifyGet fun d =>
  (⟨d.lastId + 1, {}⟩, { d with lastId := d.lastId + 1 })

/-- Statements one after the other. -/
def block (stmts : List Stmt) : DraftM Stmt := return .block (← nextMark) (Rows.ofList stmts)

/-- An expression for its effect. -/
def eval (e : Expr) : DraftM Stmt := return .expr (← nextMark) e

/-- A choice; without another branch the last part is missing. -/
def ite (c : Expr) (yes no : Stmt) : DraftM Stmt := return .ite (← nextMark) c yes no

/-- A `for` loop. -/
def forLoop (init : List Stmt) (c : Expr) (post : List Expr) (body : List Stmt) : DraftM Stmt := do
  let body ← block body
  return .forLoop (← nextMark) noIndex (Rows.ofList init) c (Rows.ofList post) body

/-- A loop that tests its condition first. -/
def whileLoop (c : Expr) (body : List Stmt) : DraftM Stmt := do
  let body ← block body
  return .whileLoop (← nextMark) false noIndex c body

/-- A loop that tests its condition last. -/
def doLoop (c : Expr) (body : List Stmt) : DraftM Stmt := do
  let body ← block body
  return .whileLoop (← nextMark) true noIndex c body

/-- A label and the statements behind it. -/
def label (name : Bytes) (body : List Stmt) : Label := .mk name (Rows.ofList body)

/-- Labels that can be jumped to. -/
def labelGroup (labels : List Label) : DraftM Stmt :=
  return .labelGroup (← nextMark) (Rows.ofList labels)

/-- A jump to a label. -/
def goto (name : Bytes) : DraftM Stmt := return .goto (← nextMark) name

/-- Leave the innermost loop or switch. -/
def breakLoop : DraftM Stmt := return .branch (← nextMark) false noIndex

/-- Start the next round of the innermost loop. -/
def continueLoop : DraftM Stmt := return .branch (← nextMark) true noIndex

/-- Return a value, which may be missing. -/
def ret (e : Expr) : DraftM Stmt := return .ret (← nextMark) e

/-- An arm of a switch. -/
def arm (values : List Expr) (body : List Stmt) : Case :=
  .mk (Rows.ofList values) false (Rows.ofList body)

/-- The default arm of a switch. -/
def defaultArm (body : List Stmt) : Case := .mk none true (Rows.ofList body)

/-- A switch. -/
def switch (key : Expr) (arms : List Case) : DraftM Stmt :=
  return .switch (← nextMark) noIndex key (Rows.ofList arms)

/-- A variable with its first value. -/
def initial (v init : Expr) : VarInit :=
  match v with
  | .variable _ name _ => ⟨name, init⟩
  | _ => ⟨[], init⟩

/-- Give variables their first values. -/
def declare (vars : List VarInit) : DraftM Stmt := return .varDecl (← nextMark) (Rows.ofList vars)

/-- Say where a statement stands. -/
def placeAt (s : Stmt) (span : Span) : DraftM Stmt := do
  modify fun d => { d with places := (s.mark.id, span) :: d.places }
  return s

/-- Give a function its body. -/
def body (id : FuncId) (stmts : List Stmt) : DraftM Unit := do
  let root ← block stmts
  modifyFunc id fun f => { f with body := root }

end WastForge.DraftM
