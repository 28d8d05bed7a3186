import WastForge.Diagnostic.Code
import WastForge.Source
import WastForge.Text.Utf8

/-!
# Diagnostics and failures

A diagnostic tells the user about one problem at one place. A failure stops the work; most
failures carry the diagnostic that reports them.
-/

namespace WastForge

/-- How serious a diagnostic is, by rank. -/
structure Severity where
  rank : UInt8 := 0
  deriving Repr, DecidableEq, Inhabited

namespace Severity

/-- A remark. -/
def info : Severity := ⟨0⟩

/-- Something was left out, and work goes on. -/
def warning : Severity := ⟨1⟩

/-- Work stopped. -/
def error : Severity := ⟨2⟩

/-- The name of a severity. -/
def name (s : Severity) : Bytes :=
  if s = info then "INFO" else if s = warning then "WARNING" else if s = error then "ERROR"
  else "UNKNOWN"

/-- The severity with a name, in any case and with blanks around it. The dotless `ı` is a small
`I`. -/
def ofName? (s : Bytes) : Option Severity :=
  let word := (Bytes.replace "ı" "I" (Utf8.trim s)).upper
  if word == "INFO" then some info
  else if word == "WARNING" || word == "WARN" then some warning
  else if word == "ERROR" then some error
  else none

end Severity

/-- A remark on a diagnostic, with a place of its own. -/
structure Note where
  span : Span := {}
  message : Bytes := []
  deriving Repr, DecidableEq, Inhabited

/-- A problem at a place of the program. -/
structure Diagnostic where
  severity : Severity := .error
  code : Code := .unknown
  message : Bytes := []
  span : Span := {}
  /-- The function or field that the problem is in; empty when there is none. -/
  member : Bytes := []
  notes : List Note := []
  deriving Repr, DecidableEq, Inhabited

namespace Diagnostic

/-- The diagnostic as one line: code, member if any, and message. -/
def line (d : Diagnostic) : Bytes :=
  if d.member.isEmpty then d.code.id ++ ": " ++ d.message
  else d.code.id ++ ": " ++ d.member ++ ": " ++ d.message

/-- Say which member the problem is in, unless that is known already. -/
def inMember (d : Diagnostic) (member : Bytes) : Diagnostic :=
  if d.member.isEmpty then { d with member := member } else d

/-- A problem that stops the work. -/
def fatal (code : Code) (span : Span) (message : Bytes) : Diagnostic :=
  { severity := .error, code := code, span := span, message := message }

/-- A problem that the work goes on after. -/
def caution (code : Code) (span : Span) (message : Bytes) : Diagnostic :=
  { severity := .warning, code := code, span := span, message := message }

end Diagnostic

/-- How a process ends in the middle of its work. -/
inductive Crash where
  /-- Something was read that is not there. -/
  | absent
  /-- A call went on calling itself. -/
  | endless
  deriving Repr, DecidableEq, Inhabited

/-- Why a piece of work stopped. -/
inductive Failure where
  /-- A problem of the program. -/
  | problem (d : Diagnostic)
  /-- A problem of the memory layout, not tied to a place. -/
  | layout (code : Code) (message : Bytes)
  /-- A trap of the machine, by its number. -/
  | trap (code : Nat) (message : Bytes)
  /-- Anything else, such as a file that cannot be read. -/
  | other (message : Bytes)
  /-- A failure that happened while something else was done. -/
  | during (what : Bytes) (cause : Failure)
  /-- The process ended with the work, and nobody is told. -/
  | crash (how : Crash)
  deriving Repr, DecidableEq, Inhabited

namespace Failure

/-- The text of a failure. -/
def message : Failure → Bytes
  | .problem d => d.line
  | .layout _ m => m
  | .trap _ m => m
  | .other m => m
  | .during what cause => what ++ ": " ++ cause.message
  | .crash _ => []

/-- The diagnostic that a failure carries. -/
def problem? : Failure → Option Diagnostic
  | .problem d => some d
  | .during _ cause => cause.problem?
  | _ => none

/-- The failure that others happened on account of. -/
def cause : Failure → Failure
  | .during _ f => f.cause
  | f => f

/-- How the process ended with the work, if it did. -/
def crash? (f : Failure) : Option Crash :=
  match f.cause with
  | .crash how => some how
  | _ => none

/-- Whether the process ended with the work. -/
def isCrash (f : Failure) : Bool := f.crash?.isSome

/-- The diagnostic that reports a failure; one without a diagnostic is reported by its text. -/
def diagnostic (f : Failure) : Diagnostic :=
  match f.problem? with
  | some d => d
  | none => .fatal .unknown {} f.message

/-- The code of a failure. -/
def code (f : Failure) : Code :=
  match f.problem? with
  | some d => d.code
  | none => .unknown

end Failure

/-- The work of a stage that may stop. -/
abbrev Result := Except Failure

/-- How the process ended with the work, if it did. -/
def Result.crash? {α : Type} : Result α → Option Crash
  | .ok _ => none
  | .error f => f.crash?

/-- Stop with a problem at a place. -/
def Result.problem {α : Type} (code : Code) (span : Span) (message : Bytes) : Result α :=
  .error (.problem (.fatal code span message))

end WastForge
