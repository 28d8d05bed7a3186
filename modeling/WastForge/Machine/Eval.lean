import WastForge.Machine.State

/-!
# Evaluating forms

The meaning of every form. A block is left by a branch to its label; a loop repeats its body until
a branch names it. Every form counts as a step, and when the steps are used up the machine traps.
-/

namespace WastForge

/-- Where a form is evaluated. -/
structure Frame where
  /-- The function that runs; directives stand in none. -/
  func : Option Bytes := none
  /-- How many calls are running. -/
  depth : Nat := 0
  deriving Repr, DecidableEq, Inhabited

namespace Eval

/-- How forms inside of a form are evaluated. -/
abbrev Inner := Frame → SourceForm → Eval Value

variable (env : MachineEnv) (eval : Inner)

/-- Evaluate forms in order; the value is that of the last one. -/
def seq (f : Frame) : List SourceForm → Eval Value
  | [] => pure .void
  | [n] => eval f n
  | n :: rest => do
    let _ ← eval f n
    seq f rest

/-- Evaluate forms in order and keep all values. -/
def args (f : Frame) : List SourceForm → Eval (List Value)
  | [] => pure []
  | n :: rest => do
    let v ← eval f n
    let vs ← args f rest
    return v :: vs

/-- A label in front of the body of a block or loop. -/
def splitLabel : List SourceForm → Option Bytes × List SourceForm
  | .atom line word :: rest =>
    if word.head? = some 36 then (some word, rest) else (none, .atom line word :: rest)
  | forms => (none, forms)

/-- Whether a branch goes to a label. -/
def goesTo (label : Option Bytes) : Stop → Bool
  | .branch l => label = some l
  | _ => false

/-- Evaluate a block. -/
def block (f : Frame) (forms : List SourceForm) : Eval Value := fun m =>
  let (label, body) := splitLabel forms
  match seq eval f body m with
  | .error s m => if goesTo label s then .ok .void m else .error s m
  | r => r

/-- Repeat the body of a loop. Every round takes at least one step, so no more rounds than steps
are possible. -/
def rounds (f : Frame) (label : Option Bytes) (body : List SourceForm) : Nat → Eval Value
  | 0 => trap .stepLimit ("step budget of " ++ Bytes.ofNat env.maxSteps ++ " exhausted")
  | n + 1 => fun m =>
    match seq eval f body m with
    | .error s m => if goesTo label s then .ok .void m else .error s m
    | .ok _ m => rounds f label body n m

/-- Evaluate a loop in at most `fuel` rounds. -/
def loop (fuel : Nat) (f : Frame) (forms : List SourceForm) : Eval Value :=
  let (label, body) := splitLabel forms
  if body.isEmpty then
    trap .stepLimit ("empty loop " ++ label.getD [] ++ " never exits")
  else rounds env eval f label body fuel

/-- Evaluate a condition and one of two forms. -/
def ite (f : Frame) : List SourceForm → Eval Value
  | [c, yes] => do if (← eval f c).isTrue then eval f yes else return .void
  | [c, yes, no] => do if (← eval f c).isTrue then eval f yes else eval f no
  | forms => trap .badOperand ("malformed if with " ++ Bytes.ofNat forms.length ++ " operands")

/-- A name that the function does not have. -/
def unknownLocal {α : Type} (name func : Bytes) : Eval α :=
  trap .unknownName ("unknown local " ++ name ++ " in " ++ func)

/-- Read a local. One of a directive that has no value is zero. -/
def getLocal (f : Frame) : List SourceForm → Eval Value
  | [name] => do
    match (← get).locals.lookup name.word, f.func with
    | some v, _ => return if v.isVoid then .i32 0 else v
    | none, some func => unknownLocal name.word func
    | none, none => return .i32 0
  | _ => trap .badOperand "malformed get_local"

/-- Write a local; the value is the one that was written. -/
def setLocal (f : Frame) : List SourceForm → Eval Value
  | [name, value] => do
    match f.func, (← get).locals.lookup name.word with
    | some func, none => unknownLocal name.word func
    | _, _ =>
      let v ← eval f value
      modify fun m => { m with locals := m.locals.set name.word v }
      return v
  | _ => trap .badOperand "malformed set_local"

/-- The locals that a function starts with: its arguments, and its own ones, which are zero. -/
def startLocals (fn : Script.Function) (vs : List Value) : Locals :=
  let params := (fn.params.zip vs).foldl (fun l (name, v) => Locals.set name v l) []
  fn.locals.foldl (fun l (name, type) => Locals.set name ⟨type, 0⟩ l) params

/-- How a call ends: by the value of its body or by a return. A branch that no block takes is a
trap, and every trap remembers the function. Nothing stops a crash. -/
def endCall (fn : Script.Function) : EStateM.Result Stop Machine Value →
    EStateM.Result Stop Machine Value
  | .ok v m => .ok (if fn.hasResult then v else .void) m
  | .error (.ret v) m => .ok (if fn.hasResult then v else .void) m
  | .error (.branch label) m =>
    .error (.trap (Trap.through
      { code := .unknownName, message := "br to unknown label " ++ label } fn.name)) m
  | .error (.trap t) m => .error (.trap (t.through fn.name)) m
  | .error .crash m => .error .crash m

/-- Give the caller its locals back. -/
def restoreLocals (saved : Locals) : EStateM.Result Stop Machine Value →
    EStateM.Result Stop Machine Value
  | .ok v m => .ok v { m with locals := saved }
  | .error s m => .error s { m with locals := saved }

/-- Call a function. -/
def call (f : Frame) (fn : Script.Function) (vs : List Value) : Eval Value := do
  if vs.length ≠ fn.params.length then
    trap .badOperand (fn.name ++ " expects " ++ Bytes.ofNat fn.params.length
      ++ " arguments, got " ++ Bytes.ofNat vs.length)
  if maxCallDepth ≤ f.depth then
    trap .callDepth ("call depth " ++ Bytes.ofNat maxCallDepth ++ " exceeded calling " ++ fn.name)
  fun m =>
    let inner : Frame := ⟨some fn.name, f.depth + 1⟩
    let start := { m with locals := startLocals fn vs }
    restoreLocals m.locals (endCall fn (seq eval inner fn.body start))

/-- Evaluate the arguments of a call and call the function. -/
def callForm (f : Frame) : List SourceForm → Eval Value
  | [] => trap .badOperand "call without a target"
  | target :: rest =>
    match env.module.func? target.word with
    | none => trap .unknownName ("call to unknown function " ++ target.word)
    | some fn => do call eval f fn (← args eval f rest)

/-- Call an operation of the harness. It takes its operands without counting them, and an import may
have fewer of them than it needs. -/
def harness (imp : Script.Import) (vs : List Value) : Eval Unit := do
  if imp.module ≠ "harness" then
    trap .unknownName ("import " ++ imp.name ++ " from unknown module " ++ Quoted.text imp.module)
  let m ← get
  if imp.field == "stdout_open" then
    let first ← operand vs 0
    let name ← lift (m.memory.string first.word)
    let output ← lift (m.output.redirect name)
    modify fun m => { m with output := output }
  else if imp.field == "stdout_write" then
    let count := (← operand vs 1).signedWord
    if count < 0 then
      trap .stdout ("negative write count " ++ Bytes.ofInt count.toInt)
    let first ← operand vs 0
    let data ← lift (m.memory.read first.word count.toInt64)
    let output ← lift (m.output.append data)
    modify fun m => { m with output := output }
  else trap .unknownName ("unknown harness import " ++ Quoted.text imp.field)

/-- Evaluate the arguments of an imported function and call it. -/
def callImport (f : Frame) : List SourceForm → Eval Value
  | [] => trap .badOperand "call_import without a target"
  | target :: rest =>
    match env.module.import? target.word with
    | none => trap .unknownName ("call to undeclared import " ++ target.word)
    | some imp => do
      let vs ← args eval f rest
      if vs.length ≠ imp.params then
        trap .badOperand ("import " ++ imp.name ++ " expects " ++ Bytes.ofNat imp.params
          ++ " arguments, got " ++ Bytes.ofNat vs.length)
      harness imp vs
      return .void

/-- The arms of a switch from the one on whose value equals the key. -/
def matching (kw : Keyword) (key : UInt64) :
    List SourceForm → Except Trap (Option (List SourceForm))
  | [] => .ok none
  | arm :: rest =>
    match arm.head == "case", arm.args with
    | true, value :: _ => do
      let v ← Value.ofConstant kw value.word
      if v.bits = key then return some (arm :: rest) else matching kw key rest
    | _, _ => matching kw key rest

/-- The arms of a switch from the first default arm on. -/
def fromDefault (arms : List SourceForm) : List SourceForm :=
  arms.dropWhile fun arm => arm.head != "default"

/-- What an arm of a switch does. -/
def armBody (arm : SourceForm) : List SourceForm :=
  if arm.head == "case" then arm.args.drop 1 else arm.args

/-- Evaluate a switch: the first arm that does anything, from the one that matches on, or from the
default arm on if none matches. -/
def switch (kw : Keyword) (f : Frame) : List SourceForm → Eval Value
  | [] => trap .badOperand "switch without a key"
  | key :: arms => do
    let k ← eval f key
    let chosen ← lift (matching kw k.bits arms)
    match (chosen.getD (fromDefault arms)).map armBody |>.find? (!·.isEmpty) with
    | none => return .void
    | some body =>
      let _ ← seq eval f body
      return .void

/-- The access of a load or store. -/
def access (kw : Keyword) (suffix : Bytes) : Eval Access :=
  let suffix := (Bytes.before? "/1" suffix).getD suffix
  match Access.ofSuffix? kw suffix with
  | some a => pure a
  | none => trap .unknownName ("unknown memory access " ++ kw.text ++ "." ++ suffix)

/-- The type of the values of a machine type. -/
def valueType : Keyword → ValueType
  | .void => .none
  | .i32 => .i32
  | .i64 => .i64
  | .f32 => .f32
  | .f64 => .f64

/-- The bits of a number of `width` bytes with its sign repeated above them. -/
def signExtend (width : Nat) (bits : UInt64) : UInt64 :=
  let shift := UInt64.ofNat (64 - 8 * width)
  ((bits <<< shift).toInt64 >>> shift.toInt64).toUInt64

/-- The value of a load. -/
def loaded (kw : Keyword) (a : Access) (bits : UInt64) : Value :=
  let bits := if a.signed then signExtend a.width bits else bits
  if kw = .i32 then .i32 bits.toUInt32 else ⟨valueType kw, bits⟩

/-- Load a value from memory. -/
def load (kw : Keyword) (suffix : Bytes) (f : Frame) (forms : List SourceForm) : Eval Value := do
  let a ← access kw suffix
  match forms with
  | [address] =>
    let addr ← eval f address
    let bits ← lift ((← get).memory.load addr.word a.width)
    return loaded kw a bits
  | _ => trap .badOperand "load expects one address"

/-- Store a value to memory; the value is the one that was stored. -/
def store (kw : Keyword) (suffix : Bytes) (f : Frame) (forms : List SourceForm) : Eval Value := do
  let a ← access kw suffix
  match forms with
  | [address, value] =>
    let addr ← eval f address
    let v ← eval f value
    let memory ← lift ((← get).memory.store addr.word a.width v.bits)
    modify fun m => { m with memory := memory }
    return v
  | _ => trap .badOperand "store expects an address and a value"

/-- An invocation that is ready to run. -/
structure Invocation where
  func : Script.Function
  header : Bytes
  args : List Value

/-- Find the export of an invocation and evaluate its arguments. -/
def resolve (f : Frame) (n : SourceForm) : Eval Invocation :=
  match n.head == "invoke", n.args with
  | true, .text _ name :: rest =>
    match env.module.export? name with
    | none => trap .unknownName ("no export named '" ++ name ++ "'")
    | some fn => do
      let vs ← args eval f rest
      let header := "(invoke " ++ Bytes.join " " (Quoted.text name :: vs.map Value.text) ++ ")"
      return ⟨fn, header, vs⟩
  | _, _ => trap .badOperand ("malformed invoke " ++ n.shown)

/-- Invoke an export and print its result. -/
def invoke (f : Frame) (n : SourceForm) : Eval Value := do
  let i ← resolve env eval f n
  header i.header
  let v ← call eval f i.func i.args
  result v.text
  return v

/-- Invoke an export and compare its result with the expected value, both as texts. -/
def assertion (expectedFirst : Bool) (f : Frame) (n : SourceForm) : Eval Unit :=
  match n.args with
  | [a, b] => do
    let (invocation, expected) := if expectedFirst then (b, a) else (a, b)
    let i ← resolve env eval f invocation
    header i.header
    let actual ← call eval f i.func i.args
    let expected ← eval f expected
    verdict (expected.text == actual.text) expected.text actual.text
  | _ => trap .badOperand ("malformed " ++ n.head)

/-- Compare the memory with a text. -/
def assertHeap (n : SourceForm) : Eval Unit :=
  match n.args with
  | [offset, .text _ want] =>
    match Script.size? offset with
    | none => trap .badOperand ("bad heap offset " ++ offset.shown)
    | some off => do
      header n.shown
      let got ← lift ((← get).memory.read off (Int64.ofNat want.length))
      verdict (want == got) (Latin1.decode want) (Latin1.decode got)
  | _ => trap .badOperand "malformed assert_heap_eq"

/-- The contents of a file: one that the program wrote, or one from outside. -/
def fileContent (name : Bytes) : Eval Bytes := do
  match (← get).output.content? name with
  | some content => return content
  | none =>
    match env.readFile name with
    | .ok content => return content
    | .error why => trap .stdout ("read " ++ name ++ ": " ++ why)

/-- Compare the memory with the start of a file. -/
def assertHeapFile (n : SourceForm) : Eval Unit :=
  match n.args with
  | [offset, count, .text _ name] =>
    match Script.size? offset, (Radix.decimal64? count.word).filter (0 ≤ ·) with
    | none, _ => trap .badOperand ("bad heap offset " ++ offset.shown)
    | some _, none => trap .badOperand ("bad byte count " ++ count.shown)
    | some off, some count => do
      header n.shown
      let want := (← fileContent env name).take count.toNat
      let got ← lift ((← get).memory.read off (Int64.ofInt count))
      verdict (want == got) (Latin1.decode want) (Latin1.decode got)
  | _ => trap .badOperand "malformed assert_heap_eq_file"

/-- Evaluate the operands of an operation and apply it. -/
def operation (kw : Keyword) (name head : Bytes) (f : Frame) (forms : List SourceForm) :
    Eval Value := do
  let vs ← args eval f forms
  let done :=
    match vs with
    | [a] => unary? kw name a
    | [a, b] => binary? kw name a b
    | _ => none
  match done with
  | some r => lift r
  | none =>
    trap .unknownName ("unknown instruction " ++ Quoted.text head ++ " with "
      ++ Bytes.ofNat vs.length ++ " operands")

/-- Evaluate a form, whose loops may go at most `fuel` rounds. -/
def form (fuel : Nat) (f : Frame) (n : SourceForm) : Eval Value :=
  if !n.isList then trap .badOperand ("expected a form, found " ++ n.shown)
  else
    match Opcode.ofName n.head with
    | .nop => pure .void
    | .block => block eval f n.args
    | .loop => loop env eval fuel f n.args
    | .ite => ite eval f n.args
    | .br =>
      match n.args with
      | [label] => throw (.branch label.word)
      | _ => trap .badOperand "malformed br"
    | .ret =>
      match n.args with
      | [] => throw (.ret .void)
      | value :: _ => do throw (.ret (← eval f value))
    | .getLocal => getLocal f n.args
    | .setLocal => setLocal eval f n.args
    | .call => callForm env eval f n.args
    | .callImport => callImport env eval f n.args
    | .invoke => invoke env eval f n
    | .assertion expectedFirst => do
      assertion env eval expectedFirst f n
      return .void
    | .assertHeap => do
      assertHeap n
      return .void
    | .assertHeapFile => do
      assertHeapFile env n
      return .void
    | .untranslatable => trap .untranslatable ("reached " ++ n.head)
    | .const kw =>
      match n.args with
      | [value] => lift (Value.ofConstant kw value.word)
      | _ => trap .badOperand ("malformed " ++ n.head)
    | .switch kw => switch eval kw f n.args
    | .load kw suffix => load eval kw suffix f n.args
    | .store kw suffix => store eval kw suffix f n.args
    | .operation kw name => operation eval kw name n.head f n.args
    | .unknown => trap .unknownName ("unknown instruction " ++ Quoted.text n.head)

/-- Evaluate a form. Every form inside of a form is a step of its own, so the steps that are left
bound how deeply forms are nested: `fuel` has to be more than them. -/
def run : Nat → Frame → SourceForm → Eval Value
  | 0, _, _ => trap .stepLimit ("step budget of " ++ Bytes.ofNat env.maxSteps ++ " exhausted")
  | fuel + 1, f, n => do
    step env
    atLine n.line (form env (run fuel) (fuel + 1) f n)

end Eval

end WastForge
