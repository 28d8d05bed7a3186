import WastForge.CommandLine.Console
import WastForge.Timing
import WastForge.Workflow.Build

/-!
# What commands say about programs

The diagnostics of the programs that a command worked on, and how long the work took.
-/

namespace WastForge

/-- What was found in a program. -/
structure Finding where
  /-- The path of its document; empty if there is none. -/
  path : Bytes := []
  bag : Bag
  files : FileSet := {}
  failure : Option Failure := none

namespace Finding

/-- The failure of a result. -/
def failure? {α : Type} : Result α → Option Failure
  | .ok _ => none
  | .error f => some f

/-- What was found in a document. -/
def ofResult (r : FileResult) : Finding := ⟨r.path, r.bag, r.files, failure? r.outcome⟩

/-- What was found in a program. -/
def ofCompiled (path : Bytes) (c : Compiled) : Finding := ⟨path, c.bag, c.files, failure? c.outcome⟩

end Finding

/-- How findings are printed. -/
structure FindingStyle where
  json : Bool := false
  paths : PathStyle := .relative

namespace FindingStyle

open ConsoleM

/-- The style that the flags ask for. -/
def ofFlags : ConsoleM FindingStyle := do
  let format := Case.lower (Utf8.trim (← text "diagnostics-format"))
  unless format == "pretty" || format == "json" do
    fail ("unsupported diagnostics format " ++ Quoted.text format ++ " (must be pretty or json)")
  let mode ← text "path-mode"
  match PathStyle.ofName? mode with
  | some paths => return { json := format == "json", paths := paths }
  | none => fail ("invalid --path-mode value " ++ Quoted.text mode)

/-- Print a finding for people. A failure that no diagnostic tells of has a line of its own. -/
def printOne (s : FindingStyle) (f : Finding) : ConsoleM Unit := do
  let c ← get
  let style : Report.Style := { colour := c.colour, paths := s.paths, notes := true }
  printError (Report.pretty style f.files c.session.disk.cwd f.bag)
  if let some failure := f.failure then
    unless f.bag.hasErrors do
      printError (f.path ++ ": " ++ c.red "error:" ++ " " ++ failure.message ++ "\n")

/-- Print findings. -/
def print (s : FindingStyle) (findings : List Finding) : ConsoleM Unit := do
  if s.json then
    let cwd := (← disk).cwd
    let style : Report.JsonStyle := { positions := true, paths := s.paths, notes := true }
    let values := findings.map fun f => Report.json style f.files cwd f.path f.bag
    printError (Json.arr values).document
  else findings.forM s.printOne

end FindingStyle

namespace StageTimes

/-- The stages that are told of, with the word for each. -/
def told : List (Stage × Bytes) :=
  [(.decode, "decoded"), (.emit, "compiled"), (.write, "wrote"), (.run, "ran")]

/-- The times of stages, a line for each. -/
def lines (t : StageTimes) : Bytes :=
  told.flatMap fun (stage, word) =>
    if t.has stage then
      word ++ " " ++ fixedFloat 1 (Timer.millis (t.get stage).toInt).toNat ++ " ms\n"
    else []

end StageTimes

/-- Print how long stages and passes took. -/
def ConsoleM.printTimes (stages : StageTimes) (passes : TimingReport) : ConsoleM Unit := do
  printError stages.lines
  unless passes.phases.isEmpty do printError passes.summary

end WastForge
