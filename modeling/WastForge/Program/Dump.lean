import WastForge.Number.FloatText
import WastForge.Program.Basic
import WastForge.Text.Quoted

/-!
# Programs as text

A listing of a program for people: one line per field, function, variable and statement, indented
by two blanks per level.
-/

namespace WastForge.Dump

/-- A literal. -/
def literal (l : Literal) : Bytes :=
  match l.kind with
  | .int => Bytes.ofInt l.int.toInt
  | .float => FloatStyle.message.write .double l.float.toNat
  | .bool => if l.bool then "true" else "false"
  | .char => Quoted.char l.int.toInt32.toInt
  | .string => Quoted.text l.string
  | .null => "null"
  | .default => "default"
  | .unknown _ => "?"

/-- An operator around its operand. -/
def unary (op : UnaryOp) (x : Bytes) : Bytes :=
  match op with
  | .postInc => x ++ "++"
  | .postDec => x ++ "--"
  | .preInc => "++" ++ x
  | .preDec => "--" ++ x
  | op => op.token ++ x

/-- Parts with commas between them. -/
def commas (parts : List Bytes) : Bytes := Bytes.join ", " parts

variable (tt : TypeTable)

mutual

/-- An expression on one line. -/
def expr (e : Expr) : Option Bytes :=
  match e with
  | .missing => some "_"
  | .bare _ k => some ("<" ++ Expr.kindName k ++ ">")
  | .literal _ l => some (literal l)
  | .variable _ name _ => some name
  | .binary _ op l r => return "(" ++ (← expr l) ++ " " ++ op.token ++ " " ++ (← expr r) ++ ")"
  | .unary _ op x => (expr x).map (unary op)
  | .call _ target _ _ receiver args => do
    let front : Bytes ← if receiver.isMissing then pure [] else pure ((← expr receiver) ++ ".")
    return front ++ target.text ++ "(" ++ commas (← exprRows args) ++ ")"
  | .field _ target _ receiver =>
    if receiver.isMissing then some target.text
    else return (← expr receiver) ++ "." ++ target.name
  | .property _ target _ _ _ _ => some target.text
  | .cast a x => return "(" ++ (← tt.name? a.type) ++ ")" ++ (← expr x)
  | .reference _ x => return "&" ++ (← expr x)
  | .comma _ xs => return "(" ++ commas (← exprRows xs) ++ ")"
  | .conditional _ c x y =>
    return "(" ++ (← expr c) ++ " ? " ++ (← expr x) ++ " : " ++ (← expr y) ++ ")"
  | .arrayInit _ elem size elements hasInit => do
    let made := "new " ++ (← tt.name? elem)
    if hasInit then return made ++ "[] \x7b" ++ commas (← exprRows elements) ++ "\x7d"
    else return made ++ "[" ++ (← expr size) ++ "]"
  | .memory _ isStore target _ address value => do
    let place := "." ++ (← tt.name? target) ++ "[" ++ (← expr address) ++ "]"
    if isStore then return "store" ++ place ++ " = " ++ (← expr value) else return "load" ++ place
  | .stringLength _ s => return "len(" ++ (← expr s) ++ ")"
  | .intrinsic _ op args => return op ++ "(" ++ commas (← exprRows args) ++ ")"
  | .invoke _ exportName args =>
    return "invoke " ++ Quoted.text exportName ++ "(" ++ commas (← exprRows args) ++ ")"
  | .assertion _ isEq expected exportName args =>
    return (if isEq then ("asserteq " : Bytes) else "assertreturn ") ++ (← expr expected) ++ " == "
      ++ Quoted.text exportName ++ "(" ++ commas (← exprRows args) ++ ")"
  | .assertHeap _ offset count expected fromFile =>
    if fromFile then
      some ("assertheapeq " ++ Bytes.ofInt offset.toInt ++ "[" ++ Bytes.ofInt count.toInt
        ++ "] == file " ++ Quoted.text expected)
    else some ("assertheapeq " ++ Bytes.ofInt offset.toInt ++ " == " ++ Quoted.text expected)
  | .harnessCall _ op args =>
    return "harness." ++ op.importName ++ "(" ++ commas (← exprRows args) ++ ")"

/-- The expressions of a list that may be left out. -/
def exprRows : Option (List Expr) → Option (List Bytes)
  | none => some []
  | some l => exprs l

/-- The expressions of a list. -/
def exprs : List Expr → Option (List Bytes)
  | [] => some []
  | e :: rest => return (← expr e) :: (← exprs rest)

end

/-- A line at a level. -/
def line (level : Nat) (text : Bytes) : Bytes :=
  (List.replicate (2 * level) 32 : Bytes) ++ text ++ "\n"

/-- A line that starts with the number of the statement. -/
def numbered (level : Nat) (m : Mark) (text : Bytes) : Bytes :=
  line level ("#" ++ Bytes.ofNat m.id.toNat ++ " " ++ text)

/-- The index of a loop, if it has one. -/
def loopTag (i : LoopIndex) : Bytes := if i.isValid then "#" ++ Bytes.ofInt i.toInt else []

/-- A variable of a declaration. -/
def varInit (v : VarInit) : Option Bytes :=
  if v.init.isMissing then some v.name else return v.name ++ " = " ++ (← expr tt v.init)

mutual

/-- A statement and what lies below it. -/
def stmt (level : Nat) (s : Stmt) : Option Bytes :=
  match s with
  | .missing => some []
  | .bare m k => some (numbered level m ("<" ++ Stmt.kindName k ++ ">"))
  | .block m stmts => return numbered level m "block" ++ (← stmtRows (level + 1) stmts)
  | .expr m e => (expr tt e).map (numbered level m)
  | .ite m c x y => do
    let first := numbered level m ("if " ++ (← expr tt c)) ++ (← stmt (level + 1) x)
    if y.isMissing then return first
    else return first ++ line level "else" ++ (← stmt (level + 1) y)
  | .forLoop m index init cond post body =>
    return numbered level m
        ("for" ++ loopTag index ++ " " ++ (← expr tt cond) ++ "; "
          ++ commas (← exprRows tt post))
      ++ (← stmtRows (level + 1) init) ++ (← stmt (level + 1) body)
  | .whileLoop m testLast index cond body =>
    return numbered level m
        ((if testLast then ("do-while" : Bytes) else "while") ++ loopTag index ++ " "
          ++ (← expr tt cond))
      ++ (← stmt (level + 1) body)
  | .labelGroup m labels => return numbered level m "labelgroup" ++ (← labelRows (level + 1) labels)
  | .goto m label => some (numbered level m ("goto " ++ label))
  | .branch m isContinue target =>
    some (numbered level m
      ((if isContinue then ("continue" : Bytes) else "break") ++ loopTag target))
  | .ret m value =>
    if value.isMissing then some (numbered level m "return")
    else return numbered level m ("return " ++ (← expr tt value))
  | .switch m index key cases =>
    return numbered level m ("switch" ++ loopTag index ++ " " ++ (← expr tt key))
      ++ (← caseRows (level + 1) cases)
  | .varDecl m vars =>
    return numbered level m ("var " ++ commas (← (Rows.items vars).mapM (varInit tt)))

/-- The statements of a list that may be left out. -/
def stmtRows (level : Nat) : Option (List Stmt) → Option Bytes
  | none => some []
  | some l => stmts level l

/-- The statements of a list. -/
def stmts (level : Nat) : List Stmt → Option Bytes
  | [] => some []
  | s :: rest => return (← stmt level s) ++ (← stmts level rest)

/-- The labels of a group that may be left out. -/
def labelRows (level : Nat) : Option (List Label) → Option Bytes
  | none => some []
  | some l => labels level l

/-- The labels of a group. -/
def labels (level : Nat) : List Label → Option Bytes
  | [] => some []
  | .mk name body :: rest =>
    return line level (name ++ ":") ++ (← stmtRows (level + 1) body) ++ (← labels level rest)

/-- The arms of a switch that may be left out. -/
def caseRows (level : Nat) : Option (List Case) → Option Bytes
  | none => some []
  | some l => cases level l

/-- The arms of a switch. -/
def cases (level : Nat) : List Case → Option Bytes
  | [] => some []
  | .mk values isDefault body :: rest => do
    let head : Bytes ←
      if isDefault then pure "default:" else pure ("case " ++ commas (← exprRows tt values) ++ ":")
    return line level head ++ (← stmtRows (level + 1) body) ++ (← cases level rest)

end

/-- A name with its type. -/
def typed (l : Local) : Option Bytes := return l.name ++ ": " ++ (← tt.name? l.type)

/-- A function: its signature, its variables and its body. -/
def func (f : Func) : Option Bytes := do
  let exported : List Bytes :=
    if f.isExported then ["export=" ++ Quoted.text f.publicName] else []
  let entry : List Bytes := if f.isEntryPoint then ["entry"] else []
  let ctor : List Bytes := if f.isStaticCtor then ["cctor"] else []
  let attributes := exported ++ entry ++ ctor
  let tail : Bytes :=
    if attributes.isEmpty then [] else " [" ++ Bytes.join " " attributes ++ "]"
  let params ← (Rows.items f.params).mapM (typed tt)
  let locals ← (Rows.items f.locals).mapM (typed tt)
  return line 1 ("func " ++ f.name ++ "(" ++ commas params ++ ") " ++ (← tt.name? f.result) ++ tail)
    ++ locals.flatMap (fun l => line 2 ("local " ++ l)) ++ (← stmt tt 2 f.body)

/-- A static field. -/
def field (f : FieldDecl) : Option Bytes :=
  let readOnly : Bytes := if f.readOnly then " readonly" else []
  return line 1 ("static" ++ readOnly ++ " " ++ f.name ++ ": " ++ (← tt.name? f.type))

/-- A type with its fields and functions. -/
def decl (d : TypeDecl) : Option Bytes := do
  let fields ← (Rows.items d.fields).mapM fun f => f.bind (field tt)
  let funcs ← (Rows.items d.funcs).mapM (func tt)
  return "\ntype " ++ d.name ++ "\n" ++ fields.flatten ++ funcs.flatten

/-- The listing of a program. There is none if a field is left out, or if there is no end
to the name of a type in it. -/
def program (p : Program) : Option Bytes := do
  let decls ← (Rows.items p.decls).mapM (decl p.types)
  return "program " ++ p.name ++ "\n" ++ decls.flatten

end WastForge.Dump
