import WastForge.Emit.Module
import WastForge.Script.Module

/-!
# Checking a module against what is said of it

The heap lies inside of the memory, the text can be read, and the memory and the exports of the
text are those that the compiler speaks of.
-/

namespace WastForge.ModuleOutput

/-- Texts between brackets. -/
def bracketed (l : List Bytes) : Bytes := "[" ++ Bytes.join " " l ++ "]"

/-- Refuse a module whose text does not agree with what is said of it. -/
def check (out : ModuleOutput) : Result Unit := do
  if out.memorySize < out.heapSize then
    throw (.other ("heap size " ++ Bytes.ofNat out.heapSize.toNat ++ " exceeds memory size "
      ++ Bytes.ofNat out.memorySize.toNat))
  let forms ←
    match Script.read out.text with
    | .ok forms => pure forms
    | .error f => throw (.during "module text does not parse" f)
  let mod ←
    match Script.instantiate forms with
    | .ok (mod, _) => pure mod
    | .error f => throw (.during "module does not instantiate" f)
  if mod.memory ≠ out.memorySize then
    throw (.other ("declared memory " ++ Bytes.ofNat mod.memory.toNat ++ ", metadata says "
      ++ Bytes.ofNat out.memorySize.toNat))
  if out.memorySize = 0 && out.text.holds "(memory" then
    throw (.other "memory form emitted for an empty arena")
  let got := Bytes.sort mod.exportNames
  let want := Bytes.sort out.exports
  if got ≠ want then
    throw (.other ("exports " ++ bracketed got ++ ", metadata says " ++ bracketed want))

/-- Refuse a module that is missing or does not agree with what is said of it. -/
def checkGiven : Option ModuleOutput → Result Unit
  | none => .error (.other "nil output")
  | some out => out.check

end WastForge.ModuleOutput
