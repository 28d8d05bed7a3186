import WastForge.CommandLine.Console

/-!
# Before and after a command

Colours, tracing and profiles are the same for all commands: they are set up before a command
starts, and finished after it, whether it succeeds or not.
-/

namespace WastForge.Setup

open ConsoleM

/-- Set up colours. -/
def colour : ConsoleM Unit := do
  let value ← text "color"
  let word := Case.lower (Utf8.trim value)
  let on ←
    if word.isEmpty || word == "auto" then
      let env := (← get).env
      pure (env.terminal && (env.get "NO_COLOR").isEmpty)
    else if word == "on" || word == "always" then pure true
    else if word == "off" || word == "never" then pure false
    else fail ("invalid --color value " ++ Quoted.text value ++ " (expected auto|on|off)")
  modify fun c => { c with colour := on }

/-- A value, or the message that says why there is none. -/
def named {α : Type} (what : Bytes) (value : Option α) (bad : Bytes) : ConsoleM α :=
  match value with
  | some a => pure a
  | none => fail (what ++ bad)

/-- The output of a tracer, which is made empty. -/
def openTrace (path : Bytes) : ConsoleM TraceTarget := do
  if path == "-" then return .stderr
  mustDo "failed to create tracer: failed to open trace output: " (DiskM.writeFile path [])
  match (← disk).locate path with
  | .ok names => return .file names
  | .error _ => return .stderr

/-- Set up tracing. A path for the events asks for phases at least. -/
def tracing : ConsoleM Unit := do
  let path ← text "trace"
  let levelName ← text "trace-level"
  let level ← named "invalid trace level: " (TraceLevel.ofName? levelName)
    (TraceLevel.badName levelName)
  unless level = .off && path.isEmpty do
    let level := if level = .off then .phase else level
    let modeName ← text "trace-mode"
    let mode ← named "invalid trace mode: " (StorageMode.ofName? modeName)
      (StorageMode.badName modeName)
    let path : Bytes := if path.isEmpty then "-" else path
    let tracer ← orFail
      (Tracer.ofConfig
        { level := level, mode := mode, path := path, ringSize := ← int "trace-ring-size" } 0)
    let target ← if tracer.stream.isSome then openTrace path else pure .stderr
    modify fun c => { c with tracer := tracer, target := target }

/-- Make the file of a profile. -/
def openProfile (what path : Bytes) : ConsoleM Unit := do
  unless path.isEmpty do mustDo (what ++ ": ") (DiskM.writeFile path [])

/-- Set up profiles. The one of the memory is made in the end. -/
def profiles : ConsoleM Unit := do
  openProfile "cpu profile" (← text "cpuprofile")
  openProfile "runtime trace" (← text "runtime-trace")
  let path ← text "memprofile"
  modify fun c => { c with memoryProfile := path }

/-- Set everything up. -/
def start : ConsoleM Unit := do
  colour
  tracing
  profiles

/-- Finish everything. -/
def finish : ConsoleM Unit := do
  let path := (← get).memoryProfile
  unless path.isEmpty do
    match ← onDisk (DiskM.writeFile path []) with
    | .ok () => return
    | .error e => printError ("profile: heap profile: " ++ e.message ++ "\n")

end WastForge.Setup
