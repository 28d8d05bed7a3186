import WastForge.Program.Operator
import WastForge.Source
import WastForge.Types.Descriptor

/-!
# Expressions and statements

The trees that function bodies are made of. Any expression or statement may be missing, and any
list may be left out of a document; a list that is left out reads as an empty one.
-/

namespace WastForge

/-- A list that may be left out. -/
abbrev Rows (α : Type) := Option (List α)

/-- The elements of a list that may be left out. -/
def Rows.items {α : Type} (r : Rows α) : List α := r.getD []

/-- A list that is left out when it is empty. -/
def Rows.ofList {α : Type} (l : List α) : Rows α := if l.isEmpty then none else some l

/-- A member by its declaring type and its name. -/
structure MemberRef where
  type : Bytes := []
  name : Bytes := []
  deriving Repr, DecidableEq, Inhabited

namespace MemberRef

/-- The qualified name. -/
def text (m : MemberRef) : Bytes := m.type ++ "::" ++ m.name

/-- Whether no member is named. -/
def isZero (m : MemberRef) : Bool := m.type.isEmpty && m.name.isEmpty

end MemberRef

/-- A literal. Its kind says which of the values counts; the others are kept for the document. -/
structure Literal where
  kind : LiteralKind
  /-- The value of an integer or a character. -/
  int : Int64 := 0
  /-- The bits of a floating point number. -/
  float : UInt64 := 0
  bool : Bool := false
  string : Bytes := []
  deriving Repr, DecidableEq, Inhabited

/-- What every expression has: the type of its value and its place in the source. -/
structure Annot where
  type : TypeId := 0
  span : Span := {}
  deriving Repr, DecidableEq, Inhabited

/-- An expression. -/
inductive Expr where
  /-- No expression. -/
  | missing
  /-- A node whose contents are missing, with the number of its kind. -/
  | bare (a : Annot) (kind : UInt8)
  | literal (a : Annot) (value : Literal)
  | variable (a : Annot) (name : Bytes) (isParam : Bool)
  | binary (a : Annot) (op : BinaryOp) (left right : Expr)
  | unary (a : Annot) (op : UnaryOp) (operand : Expr)
  /-- A call; the types of the parameters choose among overloads, if they are given. -/
  | call (a : Annot) (target : MemberRef) (params : Option (List TypeId)) (isStatic : Bool)
      (receiver : Expr) (args : Option (List Expr))
  | field (a : Annot) (target : MemberRef) (isStatic : Bool) (receiver : Expr)
  | property (a : Annot) (target getter setter : MemberRef) (isStatic : Bool) (receiver : Expr)
  | cast (a : Annot) (operand : Expr)
  | reference (a : Annot) (referent : Expr)
  | comma (a : Annot) (exprs : Option (List Expr))
  | conditional (a : Annot) (cond yes no : Expr)
  /-- A new array, either of a size or of given elements. -/
  | arrayInit (a : Annot) (elem : TypeId) (size : Expr) (elements : Option (List Expr))
      (hasInit : Bool)
  /-- A load from memory or a store to it. -/
  | memory (a : Annot) (isStore : Bool) (target : TypeId) (aligned : Bool) (address value : Expr)
  | stringLength (a : Annot) (string : Expr)
  /-- An instruction by its name. -/
  | intrinsic (a : Annot) (op : Bytes) (args : Option (List Expr))
  /-- An invocation of an export. -/
  | invoke (a : Annot) (exportName : Bytes) (args : Option (List Expr))
  /-- An invocation of an export whose result is checked. -/
  | assertion (a : Annot) (isEq : Bool) (expected : Expr) (exportName : Bytes)
      (args : Option (List Expr))
  /-- A check of the memory against a text or a file. -/
  | assertHeap (a : Annot) (offset count : Int64) (expected : Bytes) (fromFile : Bool)
  | harnessCall (a : Annot) (op : HarnessOp) (args : Option (List Expr))
  deriving Inhabited

namespace Expr

/-- The type and place of an expression. -/
def annot : Expr → Annot
  | .missing => {}
  | .bare a _ | .literal a _ | .variable a _ _ | .binary a _ _ _ | .unary a _ _
  | .call a _ _ _ _ _ | .field a _ _ _ | .property a _ _ _ _ _ | .cast a _ | .reference a _
  | .comma a _ | .conditional a _ _ _ | .arrayInit a _ _ _ _ | .memory a _ _ _ _ _
  | .stringLength a _ | .intrinsic a _ _ | .invoke a _ _ | .assertion a _ _ _ _
  | .assertHeap a _ _ _ _ | .harnessCall a _ _ => a

/-- The type of the value of an expression. -/
def type (e : Expr) : TypeId := e.annot.type

/-- The place of an expression. -/
def span (e : Expr) : Span := e.annot.span

/-- The number of the kind of an expression. -/
def kind : Expr → UInt8
  | .missing => 0
  | .bare _ k => k
  | .literal .. => 1
  | .variable .. => 2
  | .binary .. => 3
  | .unary .. => 4
  | .call .. => 5
  | .field .. => 6
  | .property .. => 7
  | .cast .. => 8
  | .reference .. => 9
  | .comma .. => 10
  | .conditional .. => 11
  | .arrayInit .. => 12
  | .memory _ isStore _ _ _ _ => if isStore then 14 else 13
  | .stringLength .. => 15
  | .intrinsic .. => 16
  | .invoke .. => 17
  | .assertion _ isEq _ _ _ => if isEq then 19 else 18
  | .assertHeap .. => 20
  | .harnessCall .. => 21

/-- The name of a kind of expression. -/
def kindName (kind : UInt8) : Bytes :=
  match kind.toNat with
  | 1 => "Literal"
  | 2 => "Variable"
  | 3 => "BinaryOp"
  | 4 => "UnaryOp"
  | 5 => "Call"
  | 6 => "FieldAccess"
  | 7 => "PropertyAccess"
  | 8 => "Cast"
  | 9 => "Reference"
  | 10 => "Comma"
  | 11 => "Conditional"
  | 12 => "ArrayInit"
  | 13 => "GetMemory"
  | 14 => "SetMemory"
  | 15 => "StringLength"
  | 16 => "Intrinsic"
  | 17 => "Invoke"
  | 18 => "AssertReturn"
  | 19 => "AssertEq"
  | 20 => "AssertHeapEq"
  | 21 => "HarnessCall"
  | _ => "Unknown"

/-- Whether there is no expression. -/
def isMissing : Expr → Bool
  | .missing => true
  | _ => false

/-- The literal of a literal expression. -/
def literal? : Expr → Option Literal
  | .literal _ l => some l
  | _ => none

/-- The value of an integer, character or truth literal. -/
def intConstant? (e : Expr) : Option Int64 :=
  match e.literal? with
  | some l =>
    match l.kind with
    | .int | .char => some l.int
    | .bool => some (if l.bool then 1 else 0)
    | _ => none
  | none => none

/-- The value of a string literal. -/
def stringConstant? (e : Expr) : Option Bytes :=
  match e.literal? with
  | some l => if l.kind = .string then some l.string else none
  | none => none

mutual

/-- Whether the value of an expression is fixed: literals, and operators and instructions on
such expressions. -/
def isConstant : Expr → Bool
  | .literal _ _ => true
  | .intrinsic _ _ args => rowsConstant args
  | .cast _ x => x.isConstant
  | .unary _ op x => !op.isIncrement && x.isConstant
  | .binary _ op l r => !op.isAssignment && l.isConstant && r.isConstant
  | _ => false

/-- Whether all expressions of a list are constant. -/
def rowsConstant : Option (List Expr) → Bool
  | none => true
  | some l => allConstant l

/-- Whether all expressions of a list are constant. -/
def allConstant : List Expr → Bool
  | [] => true
  | e :: rest => e.isConstant && allConstant rest

end

end Expr

/-- The index by which a loop or switch is targeted; a negative one is no index. -/
abbrev LoopIndex := Int32

/-- No index. -/
def noIndex : LoopIndex := -1

/-- Whether an index is one. -/
def LoopIndex.isValid (i : LoopIndex) : Bool := 0 ≤ i

/-- What every statement has: its number in the function and its place in the source. -/
structure Mark where
  id : UInt32 := 0
  span : Span := {}
  deriving Repr, DecidableEq, Inhabited

/-- A variable of a declaration, with its first value if there is one. -/
structure VarInit where
  name : Bytes := []
  init : Expr := .missing
  deriving Inhabited

mutual

/-- A statement. -/
inductive Stmt where
  /-- No statement. -/
  | missing
  /-- A node whose contents are missing, with the number of its kind. -/
  | bare (m : Mark) (kind : UInt8)
  | block (m : Mark) (stmts : Option (List Stmt))
  | expr (m : Mark) (value : Expr)
  | ite (m : Mark) (cond : Expr) (yes no : Stmt)
  | forLoop (m : Mark) (index : LoopIndex) (init : Option (List Stmt)) (cond : Expr)
      (post : Option (List Expr)) (body : Stmt)
  /-- A loop that tests its condition first, or with `testLast` last. -/
  | whileLoop (m : Mark) (testLast : Bool) (index : LoopIndex) (cond : Expr) (body : Stmt)
  | labelGroup (m : Mark) (labels : Option (List Label))
  | goto (m : Mark) (label : Bytes)
  /-- A break or a continue. -/
  | branch (m : Mark) (isContinue : Bool) (target : LoopIndex)
  | ret (m : Mark) (value : Expr)
  | switch (m : Mark) (index : LoopIndex) (key : Expr) (cases : Option (List Case))
  | varDecl (m : Mark) (vars : Option (List VarInit))

/-- A label and the statements behind it. -/
inductive Label where
  | mk (name : Bytes) (body : Option (List Stmt))

/-- An arm of a switch. -/
inductive Case where
  | mk (values : Option (List Expr)) (isDefault : Bool) (body : Option (List Stmt))

end

instance : Inhabited Stmt := ⟨.missing⟩

/-- The name of a label. -/
def Label.name : Label → Bytes
  | .mk n _ => n

/-- The statements behind a label. -/
def Label.body : Label → Rows Stmt
  | .mk _ b => b

/-- The values of an arm. -/
def Case.values : Case → Rows Expr
  | .mk v _ _ => v

/-- Whether an arm is the default one. -/
def Case.isDefault : Case → Bool
  | .mk _ d _ => d

/-- The statements of an arm. -/
def Case.body : Case → Rows Stmt
  | .mk _ _ b => b

namespace Stmt

/-- The number and place of a statement. -/
def mark : Stmt → Mark
  | .missing => {}
  | .bare m _ | .block m _ | .expr m _ | .ite m _ _ _ | .forLoop m _ _ _ _ _
  | .whileLoop m _ _ _ _ | .labelGroup m _ | .goto m _ | .branch m _ _ | .ret m _
  | .switch m _ _ _ | .varDecl m _ => m

/-- The number of the kind of a statement. -/
def kind : Stmt → UInt8
  | .missing => 0
  | .bare _ k => k
  | .block .. => 1
  | .expr .. => 2
  | .ite .. => 3
  | .forLoop .. => 4
  | .whileLoop _ testLast _ _ _ => if testLast then 6 else 5
  | .labelGroup .. => 7
  | .goto .. => 8
  | .branch _ isContinue _ => if isContinue then 10 else 9
  | .ret .. => 11
  | .switch .. => 12
  | .varDecl .. => 13

/-- The name of a kind of statement. -/
def kindName (kind : UInt8) : Bytes :=
  match kind.toNat with
  | 1 => "Block"
  | 2 => "ExprStmt"
  | 3 => "If"
  | 4 => "ForLoop"
  | 5 => "WhileLoop"
  | 6 => "DoLoop"
  | 7 => "LabelGroup"
  | 8 => "Goto"
  | 9 => "Break"
  | 10 => "Continue"
  | 11 => "Return"
  | 12 => "Switch"
  | 13 => "VariableDeclaration"
  | _ => "Unknown"

/-- Whether there is no statement. -/
def isMissing : Stmt → Bool
  | .missing => true
  | _ => false

/-- Whether a kind of statement always jumps away. -/
def kindJumps (kind : UInt8) : Bool := kind = 8 || kind = 9 || kind = 10 || kind = 11

mutual

/-- Whether a statement ends in a jump: it is one, or a block whose last statement ends in one. -/
def isTerminal : Stmt → Bool
  | .bare _ k => kindJumps k
  | .goto .. | .branch .. | .ret .. => true
  | .block _ stmts => rowsTerminal stmts
  | _ => false

/-- Whether the last statement of a list ends in a jump. -/
def rowsTerminal : Option (List Stmt) → Bool
  | none => false
  | some l => lastTerminal l

/-- Whether the last statement of a list ends in a jump. -/
def lastTerminal : List Stmt → Bool
  | [] => false
  | s :: rest => if rest.isEmpty then s.isTerminal else lastTerminal rest

end

end Stmt

end WastForge
