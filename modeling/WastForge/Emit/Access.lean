import WastForge.Emit.Env

/-!
# Access to members

Literals, variables, static fields, properties and calls: everything that code refers to by name.
-/

namespace WastForge.Emit

variable (env : Env)

/-- A string by the address of its first character. -/
def stringRef (e : Expr) (content : Bytes) : Work Form :=
  match env.arena.string? content with
  | some slot => pure (.words ["call", Name.stringFirst slot.offset])
  | none =>
    Work.problem .missingSlot e.span ("string " ++ Quoted.text content ++ " has no table entry")

/-- The machine type of a value, `i32` for a type without one. -/
def keywordOr (t : TypeId) : Keyword := (env.types.valueKeyword? t).getD .i32

/-- A literal. -/
def literal (e : Expr) (l : Literal) : Work Form :=
  match l.kind with
  | .string => stringRef env e l.string
  | .null | .default =>
    if env.types.isString e.type then stringRef env e []
    else pure (Instruction.intConst (keywordOr env e.type) 0)
  | .bool => pure (Instruction.intConst .i32 (if l.bool then 1 else 0))
  | .char => pure (Instruction.intConst .i32 l.int.toInt)
  | .float =>
    let kw := (env.types.valueKeyword? e.type).filter Keyword.isFloat
    let kw := kw.getD .f64
    pure (Instruction.const kw (Instruction.floatText kw l.float.toNat))
  | .int =>
    let kw := keywordOr env e.type
    if kw.isFloat then
      pure (Instruction.const kw
        (FloatStyle.constant.write .double (Instruction.bitsOfInt l.int.toInt)))
    else pure (Instruction.intConst kw l.int.toInt)
  | .unknown _ => env.untranslatable e "unknown literal kind"

/-- A parameter or local. -/
def variable_ (e : Expr) (name : Bytes) : Work Form :=
  let read : Work Form := pure (.words ["get_local", Name.local_ name])
  if env.isTopLevel then read
  else
    match env.local? name with
    | none => env.untranslatable e ("variable " ++ name ++ " is not declared")
    | some t =>
      if (env.types.valueKeyword? t).isSome then read
      else
        env.untranslatableType e ((env.types.name? t).map fun typeName =>
          "variable " ++ name ++ " has unsupported type " ++ typeName)

/-- The function that a call means: one with the types of the parameters or else one of the
name. -/
def callee? (ref : MemberRef) (params : Option (List TypeId)) : Option Body :=
  match env.program.lookup? ref params with
  | some b => some b
  | none => if params.isSome then env.program.lookup? ref none else none

/-- The name of the function that a call means, or the placeholder of a call that cannot be
written. -/
def callTarget (e : Expr) (ref : MemberRef) (params : Option (List TypeId)) :
    Work (Except Form Bytes) := do
  match callee? env ref params with
  | none =>
    return .error (← env.report .unknownFunction e
      ("call to " ++ ref.text ++ ", which is not part of the program"))
  | some b =>
    if env.skipped.contains b.id then
      return .error (← env.report .skippedFunction e ("call to skipped function " ++ ref.text))
    else if env.entry = some b.id then
      return .error (← env.untranslatable e "the entry point cannot be called")
    else return .ok (Name.func b.func.ref)

/-- A call of a function with arguments that are written already. -/
def callWith (e : Expr) (ref : MemberRef) (args : List (Option Form)) : Work Form := do
  match ← callTarget env e ref none with
  | .error placeholder => return placeholder
  | .ok name => return .app "call" (some (.atom name) :: args)

/-- The slot of a static field with its machine type, or the placeholder of an access that cannot
be written. -/
def fieldSlot (e : Expr) (target : MemberRef) (isStatic : Bool) (receiver : Expr) :
    Work (Except Form (FieldSlot × Keyword)) := do
  if !isStatic || !receiver.isMissing then
    return .error
      (← env.untranslatable e ("instance field " ++ target.text ++ " is not supported"))
  match env.arena.field? target with
  | none =>
    return .error (← env.untranslatable e ("static field " ++ target.text ++ " has no slot"))
  | some slot =>
    match env.types.valueKeyword? slot.type with
    | none =>
      return .error (← env.untranslatableType e ((env.types.name? slot.type).map fun typeName =>
        "static field " ++ target.text ++ " has unsupported type " ++ typeName))
    | some kw => return .ok (slot, kw)

/-- The address of a slot. -/
def addressOf (slot : FieldSlot) : Form := Instruction.intConst .i32 slot.offset.toNat

/-- Read a static field. -/
def fieldLoad (e : Expr) (target : MemberRef) (isStatic : Bool) (receiver : Expr) : Work Form := do
  match ← fieldSlot env e target isStatic receiver with
  | .error placeholder => return placeholder
  | .ok (slot, kw) => return Instruction.load env.types slot.type kw (addressOf slot)

/-- Write a static field. -/
def fieldStore (e : Expr) (target : MemberRef) (isStatic : Bool) (receiver : Expr)
    (value : Option Form) : Work Form := do
  match ← fieldSlot env e target isStatic receiver with
  | .error placeholder => return placeholder
  | .ok (slot, kw) => return Instruction.store env.types slot.type kw (addressOf slot) value

/-- Report a property of an instance. -/
def instanceProperty (e : Expr) (target : MemberRef) : Work Form :=
  env.report .instanceCall e ("instance property " ++ target.text ++ " is not supported")

/-- Assign a value: to a local, to the slot of a static field, or by calling the setter of a
property. -/
def store (target : Expr) (value : Option Form) : Work Form :=
  match target with
  | .variable _ name _ =>
    if env.isTopLevel || (env.local? name).isSome then
      pure (.app "set_local" [some (.atom (Name.local_ name)), value])
    else env.untranslatable target ("variable " ++ name ++ " is not declared")
  | .field _ ref isStatic receiver => fieldStore env target ref isStatic receiver value
  | .property _ ref _ setter isStatic receiver =>
    if !isStatic || !receiver.isMissing then instanceProperty env target ref
    else if setter.isZero then
      Work.problem .assignTarget target.span ("property " ++ ref.text ++ " has no setter")
    else callWith env target setter [value]
  | .missing => throw (.crash .absent)
  | _ =>
    Work.problem .assignTarget target.span ("cannot assign to " ++ Expr.kindName target.kind)

end WastForge.Emit
