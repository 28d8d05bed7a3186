import WastForge.Machine.Memory
import WastForge.Path
import WastForge.Text.Quoted

/-!
# The output of a program

A program may redirect its output to a file once and then write bytes of its memory to it.
-/

namespace WastForge

/-- What a program wrote: nothing, or a file by its name. -/
structure Output where
  file : Option (Bytes × Bytes) := none
  deriving Repr, DecidableEq, Inhabited

namespace Output

/-- Redirect the output to a file, whose name has to be a last component of a path. -/
def redirect (o : Output) (name : Bytes) : Except Trap Output :=
  match o.file with
  | some (current, _) =>
    .error ⟨.stdout, "stdout already redirected to " ++ Quoted.text current, 0, []⟩
  | none =>
    if name.isEmpty || Path.isAbsolute name || Path.base name != name then
      .error ⟨.stdout, "invalid output file name " ++ Quoted.text name, 0, []⟩
    else .ok ⟨some (name, [])⟩

/-- Write to the file. -/
def append (o : Output) (data : Bytes) : Except Trap Output :=
  match o.file with
  | none => .error ⟨.stdout, "write before stdout was redirected", 0, []⟩
  | some (name, content) => .ok ⟨some (name, content ++ data)⟩

/-- The contents of the file with a name. -/
def content? (o : Output) (name : Bytes) : Option Bytes :=
  match o.file with
  | some (current, content) => if current = name then some content else none
  | none => none

/-- All files that were written. -/
def files (o : Output) : List (Bytes × Bytes) := o.file.toList

end Output

namespace Memory

/-- The string whose first character is at an address; its length stands in the four bytes before
it. -/
def string (m : Memory) (ptr : UInt32) : Except Trap Bytes := do
  if ptr < 4 then
    throw ⟨.outOfBounds, "string pointer " ++ Bytes.ofNat ptr.toNat ++ " has no length prefix",
      0, []⟩
  let length := ofLittleEndian (← m.read (ptr - 4) 4)
  return Latin1.decode (← m.read ptr length.toInt64)

end Memory

end WastForge
