import WastForge.Program.Tree

/-!
# Visiting trees

The nodes of a body in the order in which a visitor meets them: a statement before its parts, an
expression before its operands. A visitor may decline to go below a node.
-/

namespace WastForge

/-- A statement or an expression. -/
inductive Node where
  | stmt (s : Stmt)
  | expr (e : Expr)

/-- The expressions among `l` that are there. -/
def Expr.present (l : List Expr) : List Expr := l.filter (!·.isMissing)

/-- The operands of an expression. A missing operand of an operator counts; a missing receiver,
size, address or expected value does not. -/
def Expr.children : Expr → List Expr
  | .binary _ _ l r => [l, r]
  | .unary _ _ x => [x]
  | .call _ _ _ _ receiver args => Expr.present [receiver] ++ Rows.items args
  | .field _ _ _ receiver => Expr.present [receiver]
  | .property _ _ _ _ _ receiver => Expr.present [receiver]
  | .cast _ x => [x]
  | .reference _ x => [x]
  | .comma _ xs => Rows.items xs
  | .conditional _ c a b => [c, a, b]
  | .arrayInit _ _ size elements hasInit =>
    if hasInit then Rows.items elements else Expr.present [size]
  | .memory _ _ _ _ address value => Expr.present [address, value]
  | .stringLength _ s => [s]
  | .intrinsic _ _ args => Rows.items args
  | .invoke _ _ args => Rows.items args
  | .assertion _ _ expected _ args => Expr.present [expected] ++ Rows.items args
  | .harnessCall _ _ args => Rows.items args
  | _ => []

namespace Node

/-- The name of the kind of a node. -/
def kindName : Node → Bytes
  | .stmt s => Stmt.kindName s.kind
  | .expr e => Expr.kindName e.kind

variable (descend : Node → Bool)

/-- The node and, if the visitor goes on, what lies below it. -/
def below (n : Node) (parts : List Node) : List Node :=
  n :: if descend n then parts else []

mutual

/-- The nodes of an expression. -/
def ofExpr (e : Expr) : List Node :=
  match e with
  | .missing => []
  | .binary _ _ l r => below descend (.expr e) (ofExpr l ++ ofExpr r)
  | .unary _ _ x => below descend (.expr e) (ofExpr x)
  | .call _ _ _ _ receiver args => below descend (.expr e) (ofExpr receiver ++ ofExprRows args)
  | .field _ _ _ receiver => below descend (.expr e) (ofExpr receiver)
  | .property _ _ _ _ _ receiver => below descend (.expr e) (ofExpr receiver)
  | .cast _ x => below descend (.expr e) (ofExpr x)
  | .reference _ x => below descend (.expr e) (ofExpr x)
  | .comma _ xs => below descend (.expr e) (ofExprRows xs)
  | .conditional _ c a b => below descend (.expr e) (ofExpr c ++ ofExpr a ++ ofExpr b)
  | .arrayInit _ _ size elements hasInit =>
    below descend (.expr e) (if hasInit then ofExprRows elements else ofExpr size)
  | .memory _ _ _ _ address value => below descend (.expr e) (ofExpr address ++ ofExpr value)
  | .stringLength _ s => below descend (.expr e) (ofExpr s)
  | .intrinsic _ _ args => below descend (.expr e) (ofExprRows args)
  | .invoke _ _ args => below descend (.expr e) (ofExprRows args)
  | .assertion _ _ expected _ args => below descend (.expr e) (ofExpr expected ++ ofExprRows args)
  | .harnessCall _ _ args => below descend (.expr e) (ofExprRows args)
  | .bare .. | .literal .. | .variable .. | .assertHeap .. => [.expr e]

/-- The nodes of a list of expressions that may be left out. -/
def ofExprRows : Option (List Expr) → List Node
  | none => []
  | some l => ofExprs l

/-- The nodes of a list of expressions. -/
def ofExprs : List Expr → List Node
  | [] => []
  | e :: rest => ofExpr e ++ ofExprs rest

end

mutual

/-- The nodes of a statement. -/
def ofStmt (s : Stmt) : List Node :=
  match s with
  | .missing => []
  | .block _ stmts => below descend (.stmt s) (ofStmtRows stmts)
  | .expr _ e => below descend (.stmt s) (ofExpr descend e)
  | .ite _ c a b => below descend (.stmt s) (ofExpr descend c ++ ofStmt a ++ ofStmt b)
  | .forLoop _ _ init cond post body =>
    below descend (.stmt s)
      (ofStmtRows init ++ ofExpr descend cond ++ ofStmt body ++ ofExprRows descend post)
  | .whileLoop _ testLast _ cond body =>
    below descend (.stmt s)
      (if testLast then ofStmt body ++ ofExpr descend cond else ofExpr descend cond ++ ofStmt body)
  | .labelGroup _ labels => below descend (.stmt s) (ofLabelRows labels)
  | .ret _ value => below descend (.stmt s) (ofExpr descend value)
  | .switch _ _ key cases => below descend (.stmt s) (ofExpr descend key ++ ofCaseRows cases)
  | .varDecl _ vars =>
    below descend (.stmt s) ((Rows.items vars).flatMap fun v => ofExpr descend v.init)
  | .bare .. | .goto .. | .branch .. => [.stmt s]

/-- The nodes of a list of statements that may be left out. -/
def ofStmtRows : Option (List Stmt) → List Node
  | none => []
  | some l => ofStmts l

/-- The nodes of a list of statements. -/
def ofStmts : List Stmt → List Node
  | [] => []
  | s :: rest => ofStmt s ++ ofStmts rest

/-- The nodes of the labels of a group. -/
def ofLabelRows : Option (List Label) → List Node
  | none => []
  | some l => ofLabels l

/-- The nodes of a list of labels. -/
def ofLabels : List Label → List Node
  | [] => []
  | .mk _ body :: rest => ofStmtRows body ++ ofLabels rest

/-- The nodes of the arms of a switch. -/
def ofCaseRows : Option (List Case) → List Node
  | none => []
  | some l => ofCases l

/-- The nodes of a list of arms. -/
def ofCases : List Case → List Node
  | [] => []
  | .mk values _ body :: rest => ofExprRows descend values ++ ofStmtRows body ++ ofCases rest

end

/-- All nodes of a body. -/
def all (root : Stmt) : List Node := ofStmt (fun _ => true) root

end Node

end WastForge
