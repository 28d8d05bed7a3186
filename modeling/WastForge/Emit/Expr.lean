import WastForge.Emit.Access

/-!
# The code of expressions

Every expression becomes one form, or nothing at all when its calls left no code. An expression
whose value is not wanted may take a shorter way.
-/

namespace WastForge.Emit

variable (env : Env)

/-- The type whose instructions an operator takes. Arithmetic on the address of a string has the
type of its result. -/
def operandType (op : BinaryOp) (result left : TypeId) : TypeId :=
  if env.types.isString left && !op.isComparison && env.types.isIntegral result then result
  else left

/-- The instruction of an operator and the machine type of its operands, or the placeholder of an
operation that cannot be written. -/
def operation (e : Expr) (op : BinaryOp) (left : TypeId) :
    Work (Except Form (Bytes × Keyword)) := do
  let t := operandType env op e.type left
  match env.types.valueKeyword? t with
  | none =>
    return .error (← env.untranslatableType e ((env.types.name? t).map fun typeName =>
      "operator " ++ op.token ++ " on " ++ typeName))
  | some kw =>
    if env.types.isString t && op ≠ .eq && op ≠ .ne then
      return .error (← env.untranslatable e
        ("string operator " ++ op.token ++ " is not supported"))
    match Instruction.ofBinary? env.types op kw t with
    | none =>
      return .error (← env.untranslatable e
        ("operator " ++ op.token ++ " on " ++ kw.text ++ " is not supported"))
    | some name => return .ok (name, kw)

/-- The right operand of an operator; the count of a shift is widened to 64 bits where the
instruction wants that. -/
def rightOperand (op : BinaryOp) (kw : Keyword) (type : TypeId) (x : Option Form) : Option Form :=
  if op.isShift && kw = .i64 && env.types.valueKeyword? type = some .i32 then
    some (.app "i64.extend_u/i32" [x])
  else x

/-- An operator other than an increment on a value. -/
def unaryOn (e : Expr) (op : UnaryOp) (kw : Keyword) (x : Option Form) : Work (Option Form) :=
  let unsupported : Work (Option Form) := do
    return some (← env.untranslatable e
      ("operator " ++ op.token ++ " on " ++ kw.text ++ " is not supported"))
  match op with
  | .plus => pure x
  | .neg =>
    if kw.isFloat then pure (some (.app (kw.text ++ ".neg") [x]))
    else pure (some (.app (kw.text ++ ".sub") [some (Instruction.intConst kw 0), x]))
  | .not => if kw.isFloat then unsupported else pure (some (.app (kw.text ++ ".eqz") [x]))
  | .bitNot =>
    if kw.isFloat then unsupported
    else pure (some (.app (kw.text ++ ".xor") [x, some (Instruction.intConst kw (-1))]))
  | _ => unsupported

/-- Change a target by one, given the code that reads it. A postfix operator whose value is wanted
takes the step back. -/
def increment (op : UnaryOp) (target : Expr) (kw : Keyword) (wantValue : Bool)
    (current : Option Form) : Work Form := do
  let one := some (Instruction.intConst kw 1)
  let falls := op = .preDec || op = .postDec
  let step : Bytes := kw.text ++ (if falls then ".sub" else ".add" : Bytes)
  let undo : Bytes := kw.text ++ (if falls then ".add" else ".sub" : Bytes)
  let next :=
    Instruction.narrow env.types (some (.app step [current, one])) target.type target.type true
  let stored ← store env target next
  if wantValue && (op = .postInc || op = .postDec) then return .app undo [some stored, one]
  else return stored

/-- The instruction of a load or store, without a promise about the address unless it is
aligned. -/
def memoryOp (isStore : Bool) (target : TypeId) (aligned : Bool) : Bytes :=
  (keywordOr env target).text ++ (if isStore then ".store" else ".load" : Bytes)
    ++ env.types.memorySuffix target isStore ++ (if aligned then "" else "/1" : Bytes)

/-- A check of the memory. -/
def heapCheck (span : Span) (offset count : Int64) (expected : Bytes) (fromFile : Bool) :
    Work Form :=
  if fromFile then
    pure (.list [.atom "assert_heap_eq_file", .atom (Bytes.ofInt offset.toInt),
      .atom (Bytes.ofInt count.toInt), .text expected])
  else
    match Latin1.encode? expected with
    | some chars =>
      pure (.list [.atom "assert_heap_eq", .atom (Bytes.ofInt offset.toInt), .text chars])
    | none =>
      Work.problem .notLatin1 span
        ("expected heap contents " ++ Quoted.text expected ++ " are not Latin-1: "
          ++ LayoutError.notLatin1)

mutual

/-- The code of an expression. -/
def expr (wantValue : Bool) (e : Expr) : Work (Option Form) :=
  match e with
  | .missing => pure none
  | .literal _ l => do return some (← literal env e l)
  | .variable _ name _ => do return some (← variable_ env e name)
  | .binary _ op left right => do
    if op = .assign then
      let value ← expr true right
      return some (← store env left value)
    else if op.isAssignment then
      let base := op.compoundBase?.getD (.unknown 0)
      lookAt left
      match ← operation env e base left.type with
      | .error placeholder => return some (← store env left (some placeholder))
      | .ok (name, kw) =>
        let l ← expr true left
        let r ← expr true right
        lookAtIf base.isShift right
        let value := some (Form.app name [l, rightOperand env base kw right.type r])
        return some (← store env left value)
    else if op = .logicalAnd then
      let l ← expr true left
      let r ← expr true right
      return some (.app "if" [l, r, some (Instruction.intConst .i32 0)])
    else if op = .logicalOr then
      let l ← expr true left
      let r ← expr true right
      return some (.app "if" [l, some (Instruction.intConst .i32 1), r])
    else
      lookAt left
      match ← operation env e op left.type with
      | .error placeholder => return some placeholder
      | .ok (name, kw) =>
        let l ← expr true left
        let r ← expr true right
        lookAtIf op.isShift right
        return some (.app name [l, rightOperand env op kw right.type r])
  | .unary _ op x => do
    lookAt x
    match env.types.valueKeyword? x.type with
    | none =>
      if op.isIncrement then
        return some (← env.untranslatableType x ((env.types.name? x.type).map fun typeName =>
          "increment of " ++ typeName))
      else
        return some (← env.untranslatableType e ((env.types.name? x.type).map fun typeName =>
          "operator " ++ op.token ++ " on " ++ typeName))
    | some kw =>
      let v ← expr true x
      if op.isIncrement then return some (← increment env op x kw wantValue v)
      else unaryOn env e op kw v
  | .call _ target params isStatic receiver args => do
    if !isStatic || !receiver.isMissing then
      return some (← env.report .instanceCall e
        ("instance call to " ++ target.text ++ " is not supported"))
    match ← callTarget env e target params with
    | .error placeholder => return some placeholder
    | .ok name => return some (.app "call" (some (.atom name) :: (← exprRows args)))
  | .field _ target isStatic receiver => do
    return some (← fieldLoad env e target isStatic receiver)
  | .property _ target getter _ isStatic receiver => do
    if !isStatic || !receiver.isMissing then return some (← instanceProperty env e target)
    else return some (← callWith env e getter [])
  | .cast a x => do
    lookAt x
    let v ← expr true x
    if x.type = a.type then return v
    match env.types.valueKeyword? x.type, env.types.valueKeyword? a.type with
    | some fk, some tk => return Instruction.cast env.types v x.type a.type fk tk
    | _, _ =>
      return some (← env.untranslatableType e do
        return "cast from " ++ (← env.types.name? x.type) ++ " to " ++ (← env.types.name? a.type))
  | .reference _ x => do
    if x.isConstant then expr true x
    else
      return some (← env.untranslatable e "references to non-constant values are not supported")
  | .comma _ xs => do
    match ← commaRows xs with
    | [] => return none
    | [f] => return some f
    | parts => return some (.list (.atom "block" :: parts))
  | .conditional _ c x y => do
    let c ← expr true c
    let x ← expr true x
    let y ← expr true y
    return some (.app "if" [c, x, y])
  | .memory _ isStore target aligned address value => do
    let address ← expr true address
    if isStore then
      let value ← expr true value
      return some (.app (memoryOp env true target aligned) [address, value])
    else return some (.app (memoryOp env false target aligned) [address])
  | .stringLength _ s => do
    return some (.app "call" [some (.atom Name.stringLength), ← expr true s])
  | .intrinsic _ op args => do return some (.app op (← exprRows args))
  | .invoke _ exportName args => do
    return some (.app "invoke" (some (.text exportName) :: (← exprRows args)))
  | .assertion _ isEq expected exportName args => do
    let invocation := some (Form.app "invoke" (some (.text exportName) :: (← exprRows args)))
    let expected ← expr true expected
    if isEq then return some (.app "assert_eq" [invocation, expected])
    else return some (.app "assert_return" [expected, invocation])
  | .assertHeap a offset count expected fromFile => do
    return some (← heapCheck a.span offset count expected fromFile)
  | .harnessCall _ op args => do
    return some (.app "call_import" (some (.atom ("$" ++ op.importName)) :: (← exprRows args)))
  | .bare .. | .arrayInit .. => do
    return some (← env.untranslatable e
      (Expr.kindName e.kind ++ " expressions are not supported"))

/-- The code of the expressions of a list that may be left out. -/
def exprRows : Option (List Expr) → Work (List (Option Form))
  | none => pure []
  | some l => exprs l

/-- The code of the expressions of a list. -/
def exprs : List Expr → Work (List (Option Form))
  | [] => pure []
  | e :: rest => do
    let x ← expr true e
    let xs ← exprs rest
    return x :: xs

/-- The code of expressions of which only the last one has its value taken. -/
def commaRows : Option (List Expr) → Work (List Form)
  | none => pure []
  | some l => commaParts l

/-- The code of expressions of which only the last one has its value taken. -/
def commaParts : List Expr → Work (List Form)
  | [] => pure []
  | e :: rest => do
    lookAtIf (!rest.isEmpty) e
    let x ← expr rest.isEmpty e
    let xs ← commaParts rest
    return x.toList ++ xs

end

end WastForge.Emit
