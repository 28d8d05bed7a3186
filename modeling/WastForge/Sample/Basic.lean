import WastForge.Draft.Support
import WastForge.Draft.Tree

/-!
# What the sample programs share

Every sample is a small program whose entry point invokes its exports and checks what they do.
-/

namespace WastForge.Sample

/-- The type that holds the functions of most samples. -/
def owner : Bytes := "Program"

/-- The view of the heap as bytes. -/
def bytesView : Bytes := "Wasm.HeapU8"

/-- The view of the heap as words. -/
def wordsView : Bytes := "Wasm.HeapI32"

/-- The flag of an entry point. -/
def entryFlag : UInt8 := 4

/-- The flag of a static constructor. -/
def ctorFlag : UInt8 := 8

/-- A line of a source file. -/
def atLine (file line : UInt32) : Span := ⟨file, line, 9⟩

open DraftM

/-- Declare the entry point with its statements. -/
def entryPoint (stmts : List Stmt) : DraftM Unit := do
  let main ← func owner "Main" TypeTable.void entryFlag
  body main stmts

/-- A loop that counts `i` up from zero as long as it is below a bound. -/
def countLoop (i bound : Expr) (act : DraftM (List Stmt)) : DraftM Stmt := do
  let start ← declare [initial i (.i32 0)]
  let stmts ← act
  forLoop [start] (.op2 .lt i bound) [.op1 .postInc i] stmts

/-- Declare a function that clears bytes of the heap. -/
def clearFunc : DraftM FuncId := do
  let f ← func owner "Clear" TypeTable.void 0
  let offset ← param f "offset" TypeTable.int32
  let count ← param f "count" TypeTable.int32
  let i ← localVar f "i" TypeTable.int32
  body f [← countLoop i count do
    return [← eval (← heapSet bytesView (.u8 0) [offset, i])]]
  return f

/-- Check the results of an export, one after the other. -/
def checks (check : Expr → Bytes → List Expr → DraftM Expr) (exportName : Bytes)
    (cases : List (Expr × List Int64)) : DraftM (List Stmt) :=
  cases.mapM fun (expected, args) => do
    eval (← check expected exportName (args.map Expr.i32))

end WastForge.Sample
