import WastForge.Program.Basic
import WastForge.Program.Transform
import WastForge.Support.Member
import WastForge.Trace.Journal

/-!
# Expanding support calls

Every call to a member of the support library is replaced by the expression that it stands for.
What the calls declare on the side, the sizes of heaps and the operations of the harness, is
collected. Other calls are left alone.
-/

namespace WastForge

/-- What support calls declared so far. -/
structure SupportUse where
  /-- The heap sizes, by the types whose functions declared them. -/
  heapSizes : List (Bytes × UInt32) := []
  /-- The operations of the harness that are used, by rising numbers. -/
  imports : List HarnessOp := []
  deriving Repr, DecidableEq, Inhabited

/-- Expansion collects what calls declare, and may stop. -/
abbrev ExpandM := StateT SupportUse Result

namespace Support

/-- End the process, as what is asked for is not there. -/
def absent {α : Type} : ExpandM α := throw (.crash .absent)

/-- Stop with a problem at a place. -/
def problem {α : Type} (code : Code) (span : Span) (message : Bytes) : ExpandM α :=
  throw (.problem (.fatal code span message))

/-- The expression for a call that leaves no code behind. -/
def removed (span : Span) : Expr := .comma ⟨TypeTable.void, span⟩ none

/-- An expression without the conversions to an object around it. -/
def unbox : Expr → Expr
  | .cast a x => if a.type = TypeTable.object && !x.isMissing then unbox x else .cast a x
  | e => e

/-- The name of an export, which has to be a literal. -/
def exportName (e : Expr) : ExpandM Bytes :=
  match e.stringConstant? with
  | some name => pure name
  | none =>
    if e.isMissing then absent
    else problem .exportName e.span "export name must be a string literal"

/-- The arguments in an array, which has to be written out. -/
def argumentList (e : Expr) : ExpandM (Option (List Expr)) :=
  match e with
  | .arrayInit _ _ size elements hasInit =>
    if hasInit then pure (some ((Rows.items elements).map unbox))
    else if size.intConstant? = some 0 then pure none
    else problem .argumentArray e.span "argument array has no initializer"
  | .missing => absent
  | _ => problem .argumentArray e.span "argument list must be an array creation expression"

/-- Whether an argument is passed as a `float64`: by the type of the parameter, if it is given, or
by its own. -/
def isDouble (params : List TypeId) (index : Nat) (arg : Expr) : Bool :=
  (params[index]?).getD arg.type = TypeTable.float64

/-- Whether all arguments are passed as `float64`. -/
def allDouble (params : List TypeId) (args : List Expr) : Bool :=
  (args.mapIdx fun i e => isDouble params i e).all id

/-- Whether an argument is not there whose type is asked for. The arguments are asked in order, up
to the first one that is not passed as a `float64`. -/
def asksMissing (params : List TypeId) (args : List Expr) : Bool :=
  ((args.mapIdx fun i e => (e.isMissing, isDouble params i e)).find? fun p => p.1 || !p.2).any (·.1)

/-- The address of an element. The place of the first index is asked for where another one is added
to it, or where it is scaled. -/
def elementAddress (tt : TypeTable) (view : HeapView) (first : Expr) (second : Option Expr) :
    ExpandM Expr :=
  if first.isMissing && (second.isSome || view = .i32) then absent
  else pure (Address.ofIndices tt view first second)

/-- Declare the heap size of the type `owner`, by a call at `span`. -/
def declareHeapSize (owner : Bytes) (span : Span) (size : Expr) : ExpandM Unit := do
  if ((← get).heapSizes.lookup owner).isSome then
    problem .heapSizeTwice span ("heap size for type " ++ owner ++ " already set")
  match size.intConstant? with
  | none => problem .heapSize span "SetHeapSize's argument must be an int literal"
  | some v =>
    if 0 ≤ v.toInt && v.toInt < 0x100000000 then
      modify fun u => { u with heapSizes := u.heapSizes ++ [(owner, v.toUInt64.toUInt32)] }
    else problem .heapSize span ("heap size " ++ Bytes.ofInt v.toInt ++ " out of range")

/-- Insert an operation among others that rise in number. -/
def insertOp (op : HarnessOp) : List HarnessOp → List HarnessOp
  | [] => [op]
  | o :: rest =>
    if op = o then o :: rest
    else if op.code < o.code then op :: o :: rest
    else o :: insertOp op rest

/-- A call of an operation of the harness. -/
def harnessCall (span : Span) (op : HarnessOp) (args : Option (List Expr)) : ExpandM Expr := do
  modify fun u => { u with imports := insertOp op u.imports }
  return .harnessCall ⟨TypeTable.void, span⟩ op args

/-- An assertion on the result of an export. -/
def assertion (span : Span) (isEq : Bool) (expected name args : Expr) : ExpandM Expr := do
  let name ← exportName name
  let args ← argumentList args
  return .assertion ⟨TypeTable.void, span⟩ isEq (unbox expected) name args

/-- An assertion on the heap against a text; a count has to be the length of the text. -/
def assertHeap (span : Span) (offset : Expr) (count : Option Expr) (expected : Expr) :
    ExpandM Expr :=
  match offset.intConstant? with
  | none => problem .harnessArguments span "expected offset as arg0 of AssertHeapEq"
  | some offset =>
    match expected.stringConstant? with
    | none =>
      problem .harnessArguments span "expected string literal as last arg of AssertHeapEq"
    | some text =>
      let length := Int64.ofNat text.length
      if count.all fun c => c.intConstant? = some length then
        pure (.assertHeap ⟨TypeTable.void, span⟩ offset length text false)
      else
        problem .harnessArguments span
          ("AssertHeapEq count must be a literal equal to the expected length "
            ++ Bytes.ofNat text.length)

/-- An assertion on the heap against the start of a file. -/
def assertHeapFile (span : Span) (offset count path : Expr) : ExpandM Expr :=
  match offset.intConstant?, count.intConstant?, path.stringConstant? with
  | some offset, some count, some path =>
    if 0 ≤ count then pure (.assertHeap ⟨TypeTable.void, span⟩ offset count path true)
    else problem .harnessArguments span "AssertHeapEqFile needs literal offset, count and path"
  | _, _, _ =>
    problem .harnessArguments span "AssertHeapEqFile needs literal offset, count and path"

/-- What a call to a member stands for; `none` leaves the call alone. The call has the type and
place `a`, and stands in a function of the type `owner`. -/
def expandCall (tt : TypeTable) (owner : Bytes) (member : SupportMember) (a : Annot)
    (target : MemberRef) (params : Option (List TypeId)) (receiver : Expr)
    (args : Option (List Expr)) : ExpandM (Option Expr) :=
  let badArity : ExpandM (Option Expr) :=
    problem .arity a.span
      (target.text ++ " called with " ++ Bytes.ofNat (Rows.items args).length ++ " arguments")
  let load (target : TypeId) (address : Expr) : Option Expr :=
    some (.memory a false target false address .missing)
  let store (target : TypeId) (address value : Expr) : Option Expr :=
    some (.memory ⟨TypeTable.void, a.span⟩ true target false address value)
  let elementType (view : HeapView) : TypeId :=
    match view with
    | .u8 => TypeTable.uint8
    | .i32 => TypeTable.int32
  match member, Rows.items args with
  | .math instruction arity, list =>
    if list.length = arity && asksMissing (params.getD []) list then absent
    else if list.length = arity && allDouble (params.getD []) list then
      pure (some (.intrinsic ⟨TypeTable.float64, a.span⟩ instruction args))
    else pure none
  | .heapGet view, [i] => do
    return load (elementType view) (← elementAddress tt view i none)
  | .heapGet view, [i, j] => do
    return load (elementType view) (← elementAddress tt view i (some j))
  | .heapSet view, [i, v] => do
    return store (elementType view) (← elementAddress tt view i none) v
  | .heapSet view, [i, j, v] => do
    return store (elementType view) (← elementAddress tt view i (some j)) v
  | .stringChar, [i] =>
    if receiver.isMissing then badArity
    else pure (load TypeTable.uint8 (Address.add tt receiver i))
  | .stringLength, [] =>
    if receiver.isMissing then badArity
    else pure (some (.stringLength ⟨TypeTable.int32, a.span⟩ receiver))
  | .setHeapSize, [size] => do
    declareHeapSize owner a.span size
    return some (removed a.span)
  | .printf, _ => pure (some (removed a.span))
  | .invoke, [name, list] => do
    let name ← exportName name
    let list ← argumentList list
    return some (.invoke ⟨TypeTable.void, a.span⟩ name list)
  | .assertEq, [expected, name, list] => do return some (← assertion a.span true expected name list)
  | .assertReturn, [expected, name, list] => do
    return some (← assertion a.span false expected name list)
  | .assertHeap, [offset, text] => do return some (← assertHeap a.span offset none text)
  | .assertHeap, [offset, count, text] => do
    return some (← assertHeap a.span offset (some count) text)
  | .assertHeapFile, [offset, count, path] => do
    return some (← assertHeapFile a.span offset count path)
  | .setStdout, [_] => do return some (← harnessCall a.span .stdoutOpen args)
  | .write, [_, _] => do return some (← harnessCall a.span .stdoutWrite args)
  | _, _ => badArity

/-- Expand an expression in a function of the type `owner`. -/
def expandExpr (tt : TypeTable) (owner : Bytes) : Mapper ExpandM
  | .call a target params _ receiver args =>
    match SupportMember.ofName? target.text with
    | none => pure none
    | some member => expandCall tt owner member a target params receiver args
  | _ => pure none

end Support

/-- A program whose support calls are expanded. -/
structure Expanded where
  /-- The functions with their new bodies. -/
  bodies : List Body := []
  /-- Of each body, whether it has no support call. -/
  untouched : List Bool := []
  use : SupportUse := {}
  deriving Inhabited

namespace Expanded

/-- The heap size of a program: the one declared by the type of the entry point or, without an
entry point, the largest one. -/
def heapSize (x : Expanded) (entry : Option Body) : UInt32 :=
  match entry with
  | some b => (x.use.heapSizes.lookup b.func.declaringType).getD 0
  | none => x.use.heapSizes.foldl (fun n (_, size) => max n size) 0

/-- The program with the expanded bodies; functions that have none are left without a body. -/
def program (x : Expanded) (p : Program) : Program :=
  let bare (f : Func) : Func := { f with body := .missing }
  Program.withBodies
    { p with
      decls := p.decls.map fun ds => ds.map fun d =>
        { d with funcs := d.funcs.map fun fs => fs.map bare } }
    x.bodies

/-- The expanded body of a function. -/
def body? (x : Expanded) (id : FuncId) : Option Body := x.bodies.find? (·.id = id)

end Expanded

namespace Support

/-- Expand one body. -/
def expandBody (tt : TypeTable) (b : Body) : ExpandM (Body × Bool) := fun use =>
  match Transform.body (expandExpr tt b.func.declaringType) b.root use with
  | .ok ((root, same), use) => .ok (({ b with root := root }, same), use)
  | .error (.problem d) => .error (.problem (d.inMember b.func.qualifiedName))
  | .error f => .error (.during b.func.qualifiedName f)

/-- Expand all bodies of a program. -/
def expand (p : Program) : Result Expanded := do
  let (bodies, use) ← (p.bodies.mapM (expandBody p.types)).run {}
  return ⟨bodies.map (·.1), bodies.map (·.2), use⟩

/-- Expand all bodies of a program as a pass that is written down. -/
def expandPass (p : Program) : Work Expanded :=
  Work.within .pass "rewrite" do
    let x ← (expand p : Result Expanded)
    Work.note (.point .pass "rewrite.done" (Bytes.ofNat x.bodies.length ++ " functions"))
    return x

end Support

end WastForge
