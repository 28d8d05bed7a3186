import WastForge.Program.Tree

/-!
# Mapping expressions

A mapper sees every expression of a body from the leaves up and may replace it or leave it. A
tree in which nothing is replaced is left as it is.
-/

namespace WastForge

/-- What a mapper does with an expression: replace it or leave it (`none`). The monad lets it fail
or keep count of what it met. -/
abbrev Mapper (m : Type → Type) := Expr → m (Option Expr)

namespace Transform

variable {m : Type → Type} [Monad m]

/-- The new part, or the old one if it was left. -/
def keep {α : Type} (old : α) (new : Option α) : α := new.getD old

/-- Show a node to the mapper once its parts are done: `rebuilt` is the node with new parts, if
any part is new. -/
def visit (f : Mapper m) (old : Expr) (rebuilt : Option Expr) : m (Option Expr) := do
  match ← f (keep old rebuilt) with
  | some e => pure (some e)
  | none => pure rebuilt

/-- Rebuild a node with one part. -/
def one {α β : Type} (mk : α → β) (new : Option α) : Option β := new.map mk

/-- Rebuild a node with two parts if either is new. -/
def two {α β γ : Type} (mk : α → β → γ) (a : α) (b : β) (newA : Option α) (newB : Option β) :
    Option γ :=
  if newA.isSome || newB.isSome then some (mk (keep a newA) (keep b newB)) else none

/-- Rebuild a node with three parts if any is new. -/
def three {α β γ δ : Type} (mk : α → β → γ → δ) (a : α) (b : β) (c : γ)
    (newA : Option α) (newB : Option β) (newC : Option γ) : Option δ :=
  if newA.isSome || newB.isSome || newC.isSome then
    some (mk (keep a newA) (keep b newB) (keep c newC))
  else none

variable (f : Mapper m)

mutual

/-- Map an expression. -/
def expr (e : Expr) : m (Option Expr) :=
  match e with
  | .missing => pure none
  | .binary a op l r => do
    let l' ← expr l
    let r' ← expr r
    visit f e (two (.binary a op) l r l' r')
  | .unary a op x => do visit f e (one (.unary a op) (← expr x))
  | .call a target params isStatic receiver args => do
    let receiver' ← expr receiver
    let args' ← exprRows args
    visit f e (two (.call a target params isStatic) receiver args receiver' args')
  | .field a target isStatic receiver => do
    visit f e (one (.field a target isStatic) (← expr receiver))
  | .property a target getter setter isStatic receiver => do
    visit f e (one (.property a target getter setter isStatic) (← expr receiver))
  | .cast a x => do visit f e (one (.cast a) (← expr x))
  | .reference a x => do visit f e (one (.reference a) (← expr x))
  | .comma a xs => do visit f e (one (.comma a) (← exprRows xs))
  | .conditional a c x y => do
    let c' ← expr c
    let x' ← expr x
    let y' ← expr y
    visit f e (three (.conditional a) c x y c' x' y')
  | .arrayInit a elem size elements hasInit => do
    if hasInit then
      visit f e (one (.arrayInit a elem size · hasInit) (← exprRows elements))
    else
      visit f e (one (.arrayInit a elem · elements hasInit) (← expr size))
  | .memory a isStore target aligned address value => do
    let address' ← expr address
    let value' ← expr value
    visit f e (two (.memory a isStore target aligned) address value address' value')
  | .stringLength a s => do visit f e (one (.stringLength a) (← expr s))
  | .intrinsic a op args => do visit f e (one (.intrinsic a op) (← exprRows args))
  | .invoke a exportName args => do visit f e (one (.invoke a exportName) (← exprRows args))
  | .assertion a isEq expected exportName args => do
    let expected' ← expr expected
    let args' ← exprRows args
    visit f e (two (.assertion a isEq · exportName ·) expected args expected' args')
  | .harnessCall a op args => do visit f e (one (.harnessCall a op) (← exprRows args))
  | .bare .. | .literal .. | .variable .. | .assertHeap .. => visit f e none

/-- Map a list of expressions that may be left out. -/
def exprRows : Option (List Expr) → m (Option (Option (List Expr)))
  | none => pure none
  | some l => do return (← exprs l).map some

/-- Map a list of expressions from left to right. -/
def exprs : List Expr → m (Option (List Expr))
  | [] => pure none
  | e :: rest => do
    let e' ← expr e
    let rest' ← exprs rest
    pure (two List.cons e rest e' rest')

end

/-- Map the variables of a declaration. -/
def vars : List VarInit → m (Option (List VarInit))
  | [] => pure none
  | v :: rest => do
    let v' ← expr f v.init
    let rest' ← vars rest
    pure (two List.cons v rest (v'.map fun e => { v with init := e }) rest')

mutual

/-- Map the expressions of a statement. -/
def stmt (s : Stmt) : m (Option Stmt) :=
  match s with
  | .block m stmts => do return one (.block m) (← stmtRows stmts)
  | .expr m e => do return one (.expr m) (← expr f e)
  | .ite m c x y => do
    let c' ← expr f c
    let x' ← stmt x
    let y' ← stmt y
    return three (.ite m) c x y c' x' y'
  | .forLoop m index init cond post body => do
    let init' ← stmtRows init
    let cond' ← expr f cond
    let body' ← stmt body
    let post' ← exprRows f post
    if init'.isSome || cond'.isSome || body'.isSome || post'.isSome then
      return some (.forLoop m index (keep init init') (keep cond cond') (keep post post')
        (keep body body'))
    else return none
  | .whileLoop m testLast index cond body => do
    let cond' ← expr f cond
    let body' ← stmt body
    return two (.whileLoop m testLast index) cond body cond' body'
  | .labelGroup m labels => do return one (.labelGroup m) (← labelRows labels)
  | .ret m value => do return one (.ret m) (← expr f value)
  | .switch m index key cases => do
    let key' ← expr f key
    let cases' ← caseRows cases
    return two (.switch m index) key cases key' cases'
  | .varDecl m list => do
    match list with
    | none => return none
    | some l => return one (.varDecl m) ((← vars f l).map some)
  | .missing | .bare .. | .goto .. | .branch .. => pure none

/-- Map a list of statements that may be left out. -/
def stmtRows : Option (List Stmt) → m (Option (Option (List Stmt)))
  | none => pure none
  | some l => do return (← stmts l).map some

/-- Map a list of statements from first to last. -/
def stmts : List Stmt → m (Option (List Stmt))
  | [] => pure none
  | s :: rest => do
    let s' ← stmt s
    let rest' ← stmts rest
    pure (two List.cons s rest s' rest')

/-- Map the labels of a group that may be left out. -/
def labelRows : Option (List Label) → m (Option (Option (List Label)))
  | none => pure none
  | some l => do return (← labels l).map some

/-- Map the labels of a group. -/
def labels : List Label → m (Option (List Label))
  | [] => pure none
  | .mk name body :: rest => do
    let body' ← stmtRows body
    let rest' ← labels rest
    pure (two List.cons (.mk name body) rest (one (.mk name) body') rest')

/-- Map the arms of a switch that may be left out. -/
def caseRows : Option (List Case) → m (Option (Option (List Case)))
  | none => pure none
  | some l => do return (← cases l).map some

/-- Map the arms of a switch. -/
def cases : List Case → m (Option (List Case))
  | [] => pure none
  | .mk values isDefault body :: rest => do
    let values' ← exprRows f values
    let body' ← stmtRows body
    let rest' ← cases rest
    pure (two List.cons (.mk values isDefault body) rest
      (two (.mk · isDefault ·) values body values' body') rest')

end

/-- The body with all expressions mapped, and whether it was left as it is. -/
def body (root : Stmt) : m (Stmt × Bool) := do
  let new ← stmt f root
  return (keep root new, new.isNone)

end Transform

end WastForge
