import Std.Data.HashMap
import WastForge.Machine.Trap

/-!
# Linear memory

Bytes at addresses below a size; a byte that was never written is zero. An access that reaches past
the size traps and changes nothing.
-/

namespace WastForge

/-- A memory. -/
structure Memory where
  size : UInt32 := 0
  /-- The bytes that were written, by their addresses. -/
  cells : Std.HashMap Nat UInt8 := {}

namespace Memory

/-- A memory of zeros. -/
def ofSize (size : UInt32) : Memory := { size := size }

/-- The byte at an address. -/
def byte (m : Memory) (addr : Nat) : UInt8 := m.cells.getD addr 0

/-- Refuse an access to `n` bytes that reaches past the size. -/
def check (m : Memory) (addr : UInt64) (n : Int64) : Except Trap Unit :=
  if m.size.toUInt64 < addr + n.toUInt64 then
    .error ⟨.outOfBounds, "access of " ++ Bytes.ofInt n.toInt ++ " bytes at "
      ++ Bytes.ofNat addr.toNat ++ " but memory size is " ++ Bytes.ofNat m.size.toNat, 0, []⟩
  else .ok ()

/-- The bytes from an address on. -/
def slice (m : Memory) (addr n : Nat) : Bytes := (List.range n).map fun i => m.byte (addr + i)

/-- Read `n` bytes. -/
def read (m : Memory) (addr : UInt32) (n : Int64) : Except Trap Bytes := do
  m.check addr.toUInt64 n
  return m.slice addr.toNat n.toInt.toNat

/-- The memory with bytes written from an address on. -/
def put (m : Memory) (addr : Nat) : Bytes → Memory
  | [] => m
  | b :: rest => ({ m with cells := m.cells.insert addr b } : Memory).put (addr + 1) rest

/-- Write bytes. -/
def write (m : Memory) (addr : UInt32) (data : Bytes) : Except Trap Memory := do
  m.check addr.toUInt64 (Int64.ofNat data.length)
  return m.put addr.toNat data

/-- The number that bytes stand for, the lowest byte first. -/
def ofLittleEndian : Bytes → UInt64
  | [] => 0
  | b :: rest => b.toUInt64 ||| (ofLittleEndian rest <<< 8)

/-- The lowest `n` bytes of a number, the lowest byte first. -/
def toLittleEndian : Nat → UInt64 → Bytes
  | 0, _ => []
  | n + 1, bits => bits.toUInt8 :: toLittleEndian n (bits >>> 8)

/-- Load a number of `width` bytes. -/
def load (m : Memory) (addr : UInt32) (width : Nat) : Except Trap UInt64 := do
  m.check addr.toUInt64 (Int64.ofNat width)
  return ofLittleEndian (m.slice addr.toNat width)

/-- Store the lowest `width` bytes of a number. -/
def store (m : Memory) (addr : UInt32) (width : Nat) (bits : UInt64) : Except Trap Memory := do
  m.check addr.toUInt64 (Int64.ofNat width)
  return m.put addr.toNat (toLittleEndian width bits)

end Memory

/-- A way to see the memory, as elements of `width` bytes. -/
structure MemoryView where
  width : Nat
  deriving Repr, DecidableEq

namespace MemoryView

/-- Bytes. -/
def u8 : MemoryView := ⟨1⟩

/-- Words of 32 bits. -/
def i32 : MemoryView := ⟨4⟩

/-- The address of an element. -/
def address (v : MemoryView) (m : Memory) (index : Int32) : Except Trap UInt32 :=
  if index < 0 then
    .error ⟨.outOfBounds, "negative heap index " ++ Bytes.ofInt index.toInt, 0, []⟩
  else
    let addr := index.toInt.toNat * v.width
    if m.size.toNat ≤ addr then
      .error ⟨.outOfBounds, "attempted to access offset " ++ Bytes.ofNat addr
        ++ " but heap size is " ++ Bytes.ofNat m.size.toNat, 0, []⟩
    else .ok (UInt32.ofNat addr)

/-- Read an element. -/
def get (v : MemoryView) (m : Memory) (index : Int32) : Except Trap Int32 := do
  let addr ← v.address m index
  return (← m.load addr v.width).toUInt32.toInt32

/-- Write an element; the view of bytes keeps the lowest eight bits. -/
def set (v : MemoryView) (m : Memory) (index value : Int32) : Except Trap Memory := do
  let addr ← v.address m index
  m.store addr v.width value.toUInt32.toUInt64

/-- Read the element at the sum of two indices. -/
def get2 (v : MemoryView) (m : Memory) (base offset : Int32) : Except Trap Int32 :=
  v.get m (base + offset)

/-- Write the element at the sum of two indices. -/
def set2 (v : MemoryView) (m : Memory) (base offset value : Int32) : Except Trap Memory :=
  v.set m (base + offset) value

end MemoryView

end WastForge
