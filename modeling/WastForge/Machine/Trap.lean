import WastForge.Diagnostic.Basic

/-!
# Traps

Why the machine stopped in the middle of its work.
-/

namespace WastForge

/-- What sort of failure stopped the machine. -/
inductive TrapCode where
  /-- An access past the end of the memory. -/
  | outOfBounds
  /-- An integer division by zero. -/
  | divideByZero
  /-- A result that does not fit its type. -/
  | overflow
  /-- A construct that has no code. -/
  | untranslatable
  /-- A call, local or label that does not exist. -/
  | unknownName
  /-- A malformed instruction. -/
  | badOperand
  /-- All steps are used up. -/
  | stepLimit
  /-- Calls are nested too deeply. -/
  | callDepth
  /-- The output is not used as it has to be. -/
  | stdout
  deriving Repr, DecidableEq, Inhabited

namespace TrapCode

/-- The number of a code. -/
def number : TrapCode → Nat
  | .outOfBounds => 1
  | .divideByZero => 2
  | .overflow => 3
  | .untranslatable => 4
  | .unknownName => 5
  | .badOperand => 6
  | .stepLimit => 7
  | .callDepth => 8
  | .stdout => 9

/-- The name of a code. -/
def name : TrapCode → Bytes
  | .outOfBounds => "out of bounds"
  | .divideByZero => "divide by zero"
  | .overflow => "overflow"
  | .untranslatable => "untranslatable"
  | .unknownName => "unknown name"
  | .badOperand => "bad operand"
  | .stepLimit => "step limit"
  | .callDepth => "call depth"
  | .stdout => "stdout"

end TrapCode

/-- A failure of the machine. -/
structure Trap where
  code : TrapCode
  message : Bytes
  /-- The line of the form that failed; zero while it is not known. -/
  line : UInt32 := 0
  /-- The functions that were running, the innermost first. -/
  backtrace : List Bytes := []
  deriving Repr, DecidableEq, Inhabited

namespace Trap

/-- The text of a trap. -/
def text (t : Trap) : Bytes :=
  "trap (" ++ t.code.name ++ "): " ++ t.message
    ++ (if t.line = 0 then "" else " at line " ++ Bytes.ofNat t.line.toNat : Bytes)
    ++ (if t.backtrace.isEmpty then "" else " in " ++ Bytes.join " <- " t.backtrace : Bytes)

/-- The line of a trap is that of the innermost form that failed. -/
def atLine (t : Trap) (line : UInt32) : Trap := if t.line = 0 then { t with line := line } else t

/-- Note a function that the trap passes through. -/
def through (t : Trap) (function : Bytes) : Trap :=
  { t with backtrace := t.backtrace ++ [function] }

/-- A trap as a failure of the work. -/
def failure (t : Trap) : Failure := .trap t.code.number t.text

end Trap

end WastForge
