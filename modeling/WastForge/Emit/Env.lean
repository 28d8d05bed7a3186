import WastForge.Emit.Instruction
import WastForge.Emit.Name
import WastForge.Layout.Arena
import WastForge.Program.Basic
import WastForge.Trace.Journal

/-!
# Where code stands

What the code of a function is written against: the program, its memory, and the names that are
declared. A construct without machine code is reported and leaves a placeholder.
-/

namespace WastForge.Emit

/-- What is known where code is written. -/
structure Env where
  program : Program
  arena : Arena
  /-- The functions that are left out of the module. -/
  skipped : List FuncId := []
  /-- The function that runs at top level. -/
  entry : Option FuncId := none
  /-- The function that is written. -/
  member : Bytes := []
  /-- The parameters and locals of the function; at top level every name is accepted. -/
  locals : Option (List (Bytes × TypeId)) := none

/-- Look at an expression; the process ends if there is none. -/
def lookAt (e : Expr) : Work Unit :=
  if e.isMissing then throw (.crash .absent) else pure ()

theorem lookAt_of_not_missing {e : Expr} (h : e.isMissing = false) : lookAt e = pure () := by
  rw [lookAt, h, if_neg Bool.false_ne_true]

/-- Look at an expression if it matters. -/
def lookAtIf (matters : Bool) (e : Expr) : Work Unit := if matters then lookAt e else pure ()

theorem lookAtIf_of_not_missing {matters : Bool} {e : Expr} (h : e.isMissing = false) :
    lookAtIf matters e = pure () := by
  rw [lookAtIf, lookAt_of_not_missing h, ite_self]

namespace Env

variable (env : Env)

/-- The types of the program. -/
def types : TypeTable := env.program.types

/-- Whether the code stands at top level. -/
def isTopLevel : Bool := env.locals.isNone

/-- The type of a declared parameter or local. -/
def local? (name : Bytes) : Option TypeId := env.locals.bind fun l => l.lookup name

/-- Report something at a place that has no code. -/
def warn (code : Code) (span : Span) (message : Bytes) : Work Unit :=
  Work.warn { Diagnostic.caution code span message with member := env.member }

/-- What stands in place of an expression without code. -/
def placeholder (e : Expr) : Form := .words ["untranslatable." ++ Expr.kindName e.kind]

/-- Report an expression and leave a placeholder. -/
def report (code : Code) (e : Expr) (message : Bytes) : Work Form := do
  env.warn code e.span message
  return placeholder e

/-- Report an expression that has no code. -/
def untranslatable (e : Expr) (message : Bytes) : Work Form := env.report .untranslatable e message

/-- Report an expression that has no code on account of a type. The process ends if the message does
not, since there is no end to the name of the type. -/
def untranslatableType (e : Expr) (message : Option Bytes) : Work Form := do
  env.untranslatable e (← Work.need .endless message)

end Env

end WastForge.Emit
