import WastForge.Layout.Size
import WastForge.Program.Tree

/-!
# The memory of a module

The heap of the program lies at the start of the memory. Behind it every string and every static
field gets a slot, in the order in which they are first asked for. Slots are whole multiples of
eight bytes.
-/

namespace WastForge

/-- A size as a whole number of slots, at least one. -/
def roundUp (n : UInt64) : UInt64 := if n = 0 then 8 else (n + 7) / 8 * 8

/-- A number as the bytes of a 32-bit word, the lowest byte first. -/
def littleEndian32 (n : UInt32) : Bytes :=
  [n.toUInt8, (n >>> 8).toUInt8, (n >>> 16).toUInt8, (n >>> 24).toUInt8]

/-- The slot of a string: four bytes with its length, then its characters. -/
structure StringSlot where
  content : Bytes
  /-- The characters in Latin-1. -/
  chars : Bytes
  offset : UInt32
  size : UInt32
  deriving Repr, DecidableEq, Inhabited

namespace StringSlot

/-- The address of the first character, which stands for the string. -/
def firstChar (s : StringSlot) : UInt32 := s.offset + 4

/-- What the slot holds at the start. -/
def segment (s : StringSlot) : Bytes := littleEndian32 (UInt32.ofNat s.chars.length) ++ s.chars

end StringSlot

/-- The slot of a static field. -/
structure FieldSlot where
  field : MemberRef
  type : TypeId
  readOnly : Bool
  offset : UInt32
  size : UInt32
  deriving Repr, DecidableEq, Inhabited

/-- The memory that is given away so far. -/
structure Arena where
  types : TypeTable
  heapSize : UInt32
  /-- The bytes behind the heap that are given away. -/
  used : UInt64 := 0
  sizes : KnownSizes := []
  /-- The strings, in the order in which they were placed. -/
  strings : List StringSlot := []
  /-- The static fields, in the order in which they were placed. -/
  fields : List FieldSlot := []
  deriving Inhabited

/-- Work on the memory. A failure keeps what was placed before. -/
abbrev ArenaM := ExceptT LayoutError (StateM Arena)

namespace Arena

/-- The end of the memory that is given away. -/
def total (a : Arena) : UInt64 := a.heapSize.toUInt64 + a.used

/-- Whether a number is an address. -/
def isAddress (n : UInt64) : Bool := n < 0x100000000

/-- Give away `size` bytes; the answer is where they start. -/
def reserve (size : UInt64) : ArenaM UInt32 := do
  let a ← get
  if isAddress a.total && isAddress (a.total + roundUp size) then
    set { a with used := a.used + roundUp size }
    return a.total.toUInt32
  else throw .overflow

/-- The slot of a string, if it has one. -/
def string? (a : Arena) (content : Bytes) : Option StringSlot :=
  a.strings.find? (·.content == content)

/-- The slot of a static field, if it has one. -/
def field? (a : Arena) (field : MemberRef) : Option FieldSlot :=
  a.fields.find? (·.field = field)

/-- The slot of a string, which is placed when it is asked for first. -/
def placeString (content : Bytes) : ArenaM StringSlot := do
  match (← get).string? content with
  | some s => return s
  | none =>
    match Latin1.encode? content with
    | none => throw (.unencodable content)
    | some chars =>
      -- a text this long has no addresses
      if 0x100000000 ≤ chars.length then throw .overflow
      let size := UInt64.ofNat chars.length + 8
      let offset ← reserve size
      let slot : StringSlot := ⟨content, chars, offset, (roundUp size).toUInt32⟩
      modify fun a => { a with strings := a.strings ++ [slot] }
      return slot

/-- The size of a type. -/
def sizeOf (id : TypeId) : ArenaM UInt32 := do
  let a ← get
  let (found, sizes) := a.types.sizeOf id a.sizes
  set { a with sizes := sizes }
  match found with
  | .ok n => return n
  | .error e => throw e

/-- The slot of a static field, which is placed when it is asked for first. -/
def placeField (field : MemberRef) (type : TypeId) (readOnly : Bool) : ArenaM FieldSlot := do
  match (← get).field? field with
  | some f => return f
  | none =>
    let size ← sizeOf type
    let offset ← reserve size.toUInt64
    let slot : FieldSlot := ⟨field, type, readOnly, offset, size⟩
    modify fun a => { a with fields := a.fields ++ [slot] }
    return slot

/-- The strings by their offsets. -/
def stringTable (a : Arena) : List StringSlot := a.strings.mergeSort fun s t => s.offset ≤ t.offset

/-- The static fields by their offsets. -/
def fieldTable (a : Arena) : List FieldSlot := a.fields.mergeSort fun f g => f.offset ≤ g.offset

end Arena

end WastForge
