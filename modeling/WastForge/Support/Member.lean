import WastForge.Bytes
import WastForge.Program.Tree
import WastForge.Types.Keyword

/-!
# The support library

Programs reach the machine through members of a small library: numbers, the heap, strings and the
test harness. A call to one of these members stands for machine code of its own.
-/

namespace WastForge

/-- A way to see the heap: as bytes or as words of 32 bits. -/
inductive HeapView where
  | u8
  | i32
  deriving Repr, DecidableEq, Inhabited

/-- The bytes of one element of a view. -/
def HeapView.scale : HeapView → Int64
  | .u8 => 1
  | .i32 => 4

/-- A member of the support library. -/
inductive SupportMember where
  /-- An instruction on floating point numbers with a number of operands. -/
  | math (instruction : Bytes) (arity : Nat)
  /-- Read an element of the heap, at one index or at the sum of two. -/
  | heapGet (view : HeapView)
  /-- Write an element of the heap. -/
  | heapSet (view : HeapView)
  /-- A character of a string. -/
  | stringChar
  /-- The length of a string. -/
  | stringLength
  /-- Declare the size of the heap. -/
  | setHeapSize
  /-- Invoke an export. -/
  | invoke
  /-- Invoke an export and compare its result. -/
  | assertEq
  /-- Invoke an export and compare its result, with the expected value first. -/
  | assertReturn
  /-- Compare the heap with a text. -/
  | assertHeap
  /-- Compare the heap with a file. -/
  | assertHeapFile
  /-- Print on the host; nothing happens in the machine. -/
  | printf
  /-- Redirect the output. -/
  | setStdout
  /-- Write to the output. -/
  | write
  deriving Repr, DecidableEq

/-- The member of the support library with a qualified name. -/
def SupportMember.ofName? (name : Bytes) : Option SupportMember :=
  if name == "System.Math::Sqrt" then some (.math "f64.sqrt" 1)
  else if name == "System.Math::Floor" then some (.math "f64.floor" 1)
  else if name == "System.Math::Ceiling" then some (.math "f64.ceil" 1)
  else if name == "System.Math::Abs" then some (.math "f64.abs" 1)
  else if name == "System.Math::Min" then some (.math "f64.min" 2)
  else if name == "System.Math::Max" then some (.math "f64.max" 2)
  else if name == "Wasm.HeapI32::get_Item" then some (.heapGet .i32)
  else if name == "Wasm.HeapU8::get_Item" then some (.heapGet .u8)
  else if name == "Wasm.HeapI32::set_Item" then some (.heapSet .i32)
  else if name == "Wasm.HeapU8::set_Item" then some (.heapSet .u8)
  else if name == "System.String::get_Chars" then some .stringChar
  else if name == "System.String::get_Length" then some .stringLength
  else if name == "Wasm.Heap::SetHeapSize" then some .setHeapSize
  else if name == "Wasm.Test::Invoke" then some .invoke
  else if name == "Wasm.Test::AssertEq" then some .assertEq
  else if name == "Wasm.Test::AssertReturn" then some .assertReturn
  else if name == "Wasm.Test::AssertHeapEq" then some .assertHeap
  else if name == "Wasm.Test::AssertHeapEqFile" then some .assertHeapFile
  else if name == "Wasm.Test::Printf" then some .printf
  else if name == "Wasm.Test::SetStdout" then some .setStdout
  else if name == "Wasm.Test::Write" then some .write
  else none

end WastForge

namespace WastForge.Address

/-!
## Addresses

Address arithmetic on indices into the heap. Sums and products of literals are folded to a literal
of 32 bits.
-/

/-- An integer literal at the place of an expression. -/
def literal (value : Int64) (place : Expr) : Expr :=
  .literal ⟨TypeTable.int32, place.span⟩ { kind := .int, int := value }

/-- Addresses have the type of a 32-bit index, and `int32` for any other index. -/
def typeOf (tt : TypeTable) (index : Expr) : TypeId :=
  if tt.isIntegral index.type && tt.widthOf index.type = 32 then index.type else TypeTable.int32

/-- An operator on two expressions, folded by `fold` when both are literals. -/
def combine (tt : TypeTable) (op : BinaryOp) (fold : Int64 → Int64 → Int64) (a b : Expr) : Expr :=
  match a.intConstant?, b.intConstant? with
  | some x, some y => literal (fold x y).toInt32.toInt64 a
  | _, _ => .binary ⟨typeOf tt a, a.span⟩ op a b

/-- The sum of two expressions. -/
def add (tt : TypeTable) (a b : Expr) : Expr := combine tt .add (· + ·) a b

/-- The product of two expressions. -/
def mul (tt : TypeTable) (a b : Expr) : Expr := combine tt .mul (· * ·) a b

/-- An index as a number of bytes. -/
def scaled (tt : TypeTable) (view : HeapView) (index : Expr) : Expr :=
  match view with
  | .u8 => index
  | .i32 => mul tt index (literal view.scale index)

/-- The address of an element, from one index or from two that are added. -/
def ofIndices (tt : TypeTable) (view : HeapView) (first : Expr) (second : Option Expr) : Expr :=
  scaled tt view (match second with
    | none => first
    | some e => add tt first e)

end WastForge.Address
