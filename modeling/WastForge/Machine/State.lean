import WastForge.Machine.Opcode
import WastForge.Machine.Operation
import WastForge.Machine.Output

/-!
# The state of the machine

What the machine runs against and what it changes on the way, and the ways in which it leaves a
form early.
-/

namespace WastForge

/-- What a run is given. -/
structure MachineEnv where
  module : Script.Module
  /-- How many forms a directive may evaluate. -/
  maxSteps : Nat
  /-- Look up a file to compare the memory with: its contents, or why there are none. -/
  readFile : Bytes → Except Bytes Bytes

/-- How many forms a directive may evaluate if nothing is said. -/
def defaultMaxSteps : Nat := 50000000

/-- How deeply calls may be nested. -/
def maxCallDepth : Nat := 512

/-- The values of parameters and locals by their names. -/
abbrev Locals := List (Bytes × Value)

/-- Give a name a value. -/
def Locals.set (name : Bytes) (v : Value) : Locals → Locals
  | [] => [(name, v)]
  | (n, old) :: rest =>
    if n = name then (n, v) :: rest else (n, old) :: Locals.set name v rest

/-- What a run changes. -/
structure Machine where
  memory : Memory := {}
  output : Output := {}
  /-- The parameters and locals of the function that runs, or of the directives. -/
  locals : Locals := []
  /-- How many forms the directive evaluated. -/
  steps : Nat := 0
  /-- What was printed, the latest piece first. -/
  printed : List Bytes := []
  /-- Whether a line that announces a result is still without it. -/
  pending : Bool := false
  passed : Nat := 0
  failed : Nat := 0
  traps : Nat := 0

/-- Why a form was left early. -/
inductive Stop where
  /-- To the block or loop with a label. -/
  | branch (label : Bytes)
  /-- Out of the function with a value. -/
  | ret (v : Value)
  | trap (t : Trap)
  /-- Out of everything: an operand was read that is not there, which ends the process. -/
  | crash
  deriving Repr, DecidableEq, Inhabited

/-- A piece of a run. Leaving early keeps what was changed. -/
abbrev Eval := EStateM Stop Machine

namespace Eval

/-- Stop with a trap. -/
def trap {α : Type} (code : TrapCode) (message : Bytes) : Eval α :=
  throw (.trap { code := code, message := message })

/-- Do something that may trap. -/
def lift {α : Type} : Except Trap α → Eval α
  | .ok a => pure a
  | .error t => throw (.trap t)

/-- An operand, which has to be there. -/
def operand (vs : List Value) (i : Nat) : Eval Value :=
  match vs[i]? with
  | some v => pure v
  | none => throw .crash

/-- Count one form. -/
def step (env : MachineEnv) : Eval Unit := do
  modify fun m => { m with steps := m.steps + 1 }
  if env.maxSteps < (← get).steps then
    trap .stepLimit ("step budget of " ++ Bytes.ofNat env.maxSteps ++ " exhausted")

/-- A trap in `act` is at the line, unless it is at one already. -/
def atLine {α : Type} (line : UInt32) (act : Eval α) : Eval α := fun m =>
  match act m with
  | .error (.trap t) m => .error (.trap (t.atLine line)) m
  | r => r

/-- Print a line that announces a result. -/
def header (text : Bytes) : Eval Unit :=
  modify fun m => { m with printed := (text ++ "\n") :: m.printed, pending := true }

/-- Print a result. -/
def result (text : Bytes) : Eval Unit :=
  modify fun m => { m with printed := ("-> " ++ text ++ "\n") :: m.printed, pending := false }

/-- Print and count the outcome of a comparison. -/
def verdict (pass : Bool) (expected actual : Bytes) : Eval Unit := do
  modify fun m =>
    if pass then { m with passed := m.passed + 1 } else { m with failed := m.failed + 1 }
  let word : Bytes := if pass then "pass" else "fail"
  result (word ++ " '" ++ expected ++ "' == '" ++ actual ++ "'")

end Eval

end WastForge
