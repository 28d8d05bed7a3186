import WastForge.Draft.Tree

/-!
# Support calls of a draft

Calls to the members of the support library: the heap and its views, the directives of a test,
mathematical functions and strings.
-/

namespace WastForge

namespace Expr

/-- A static call with given types of the parameters. -/
def callSig (typeName name : Bytes) (result : TypeId) (params : List TypeId) (args : List Expr) :
    Expr :=
  callTo ⟨typeName, name⟩ result (some params) .missing args

/-- Declare the size of the heap. -/
def setHeapSize (size : Expr) : Expr :=
  callSig "Wasm.Heap" "SetHeapSize" TypeTable.void [TypeTable.int32] [size]

/-- Check the heap from an offset on. -/
def assertHeapEq (offset : Int64) (expected : Bytes) : Expr :=
  callSig "Wasm.Test" "AssertHeapEq" TypeTable.void [TypeTable.int32, TypeTable.string]
    [i32 offset, string expected]

/-- Redirect the output to a file. -/
def setStdout (name : Expr) : Expr :=
  callSig "Wasm.Test" "SetStdout" TypeTable.void [TypeTable.string] [name]

/-- Write bytes of the heap to the output. -/
def writeHeap (offset count : Expr) : Expr :=
  callSig "Wasm.Test" "Write" TypeTable.void [TypeTable.int32, TypeTable.int32] [offset, count]

/-- A mathematical function of `float64` numbers. -/
def math (name : Bytes) (args : List Expr) : Expr :=
  callSig "System.Math" name TypeTable.float64 (args.map fun _ => TypeTable.float64) args

/-- The length of a string. -/
def strLen (s : Expr) : Expr :=
  callTo ⟨"System.String", "get_Length"⟩ TypeTable.int32 none s []

/-- A character of a string. -/
def strChar (s i : Expr) : Expr :=
  callTo ⟨"System.String", "get_Chars"⟩ TypeTable.char (some [TypeTable.int32]) s [i]

end Expr

namespace DraftM

/-- The type of the elements of a view. -/
def viewElement (view : Bytes) : TypeId :=
  if view == "Wasm.HeapU8" then TypeTable.uint8 else TypeTable.int32

/-- A view of the heap, by the name of its type. -/
def heapView (view : Bytes) : DraftM Expr := do
  let known := (← get).program.types.nominalId view
  let t ← if known ≠ 0 then pure known else modifyGet fun d =>
    let (types, id) := d.program.types.register .object view
    (id, { d with program := { d.program with types := types } })
  return .field ⟨t, {}⟩ ⟨"Wasm.Heap", view.drop 9⟩ true .missing

/-- Read an element of a view, by one index or two. -/
def heapGet (view : Bytes) (index : List Expr) : DraftM Expr := do
  let receiver ← heapView view
  return .callTo ⟨view, "get_Item"⟩ (viewElement view)
    (some (index.map fun _ => TypeTable.int32)) receiver index

/-- Write an element of a view, by one index or two. -/
def heapSet (view : Bytes) (value : Expr) (index : List Expr) : DraftM Expr := do
  let receiver ← heapView view
  return .callTo ⟨view, "set_Item"⟩ TypeTable.void
    (some ((index.map fun _ => TypeTable.int32) ++ [viewElement view])) receiver (index ++ [value])

/-- The type of an array of objects. -/
def objectArray : DraftM TypeId := intern { kind := .array, elem := TypeTable.object }

/-- A call of a test that passes arguments in an array. -/
def testCall (name : Bytes) (params : List TypeId) (first args : List Expr) : DraftM Expr := do
  let arrayType ← objectArray
  let list ← arrayOf TypeTable.object args
  return .callSig "Wasm.Test" name TypeTable.void (params ++ [arrayType]) (first ++ [list])

/-- Invoke an export. -/
def invoke (exportName : Bytes) (args : List Expr) : DraftM Expr :=
  testCall "Invoke" [TypeTable.string] [.string exportName] args

/-- Check the result of an export by the older directive. -/
def assertEq (expected : Expr) (exportName : Bytes) (args : List Expr) : DraftM Expr :=
  testCall "AssertEq" [TypeTable.object, TypeTable.string] [expected, .string exportName] args

/-- Check the result of an export. -/
def assertReturn (expected : Expr) (exportName : Bytes) (args : List Expr) : DraftM Expr :=
  testCall "AssertReturn" [TypeTable.object, TypeTable.string] [expected, .string exportName] args

/-- Print on the host. -/
def printf (format : Bytes) (args : List Expr) : DraftM Expr :=
  testCall "Printf" [TypeTable.string] [.string format] args

end DraftM

end WastForge
