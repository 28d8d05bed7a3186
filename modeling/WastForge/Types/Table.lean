import WastForge.Types.Descriptor

/-!
# Type tables

A type table numbers descriptors. Equal descriptors of unnamed types share a number; every nominal
type gets a number and a slot of its own. The first seventeen numbers are the builtin types.
-/

namespace WastForge

/-- Numbered types and the nominal slots that they refer to; slot `0` is never used. -/
structure TypeTable where
  types : List Descriptor
  nominals : List Nominal
  deriving Repr, DecidableEq, Inhabited

namespace TypeTable

/-- The position of the last occurrence of `d`. -/
def lastIndex? (d : Descriptor) : List Descriptor → Option Nat
  | [] => none
  | t :: rest =>
    match lastIndex? d rest with
    | some i => some (i + 1)
    | none => if t = d then some 0 else none

/-- Add a descriptor under a new number. -/
def push (tt : TypeTable) (d : Descriptor) : TypeTable × TypeId :=
  ({ tt with types := tt.types ++ [d] }, UInt32.ofNat tt.types.length)

/-- The number of a descriptor, which is added if it is new. The invalid type is never added. -/
def intern (tt : TypeTable) (d : Descriptor) : TypeTable × TypeId :=
  if d.kind = .invalid then (tt, 0)
  else
    match lastIndex? d tt.types with
    | some i => (tt, UInt32.ofNat i)
    | none => tt.push d

/-- Add a nominal type of a kind. -/
def register (tt : TypeTable) (kind : Kind) (name : Bytes) : TypeTable × TypeId :=
  push { tt with nominals := tt.nominals ++ [{ name := name }] }
    { kind := kind, payload := UInt32.ofNat tt.nominals.length }

/-- The builtin types but the last one, in the order of their numbers. -/
def builtinDescriptors : List Descriptor :=
  [{}, { kind := .void }, { kind := .bool }, { kind := .char },
   { kind := .int, width := 8 }, { kind := .uint, width := 8 },
   { kind := .int, width := 16 }, { kind := .uint, width := 16 },
   { kind := .int, width := 32 }, { kind := .uint, width := 32 },
   { kind := .int, width := 64 }, { kind := .uint, width := 64 },
   { kind := .float, width := 32 }, { kind := .float, width := 64 },
   { kind := .string }, { kind := .delegate }]

/-- The table of the builtin types. -/
def builtin : TypeTable :=
  ((⟨builtinDescriptors, [{}]⟩ : TypeTable).register .object "System.Object").1

/-- The descriptor of a type. -/
def lookup? (tt : TypeTable) (id : TypeId) : Option Descriptor :=
  if id = 0 then none else tt.types[id.toNat]?

/-- The number of entries, the invalid one included. -/
def size (tt : TypeTable) : Nat := tt.types.length

/-- The nominal slot with a number. -/
def nominal? (tt : TypeTable) (slot : UInt32) : Option Nominal :=
  if slot = 0 then none else tt.nominals[slot.toNat]?

/-- The slot of a struct type. -/
def structSlot? (tt : TypeTable) (id : TypeId) : Option UInt32 :=
  match tt.lookup? id with
  | some d => if d.kind = .struct && (tt.nominal? d.payload).isSome then some d.payload else none
  | none => none

/-- What is known about a struct type. -/
def structInfo? (tt : TypeTable) (id : TypeId) : Option Nominal :=
  (tt.structSlot? id).bind tt.nominal?

/-- Give a struct its fields; a type that is no struct is left alone. -/
def setStructFields (tt : TypeTable) (id : TypeId) (fields : List StructField) : TypeTable :=
  match tt.structSlot? id with
  | none => tt
  | some slot =>
    { tt with
      nominals := tt.nominals.modify slot.toNat fun n => { n with fields := fields } }

/-- The name in the slot of a type, or nothing. -/
def nominalName (tt : TypeTable) (id : TypeId) : Bytes :=
  match (tt.lookup? id).bind fun d => tt.nominal? d.payload with
  | some n => n.name
  | none => []

/-- Whether a kind has a nominal slot. -/
def isNominal : Kind → Bool
  | .struct | .object | .generic => true
  | _ => false

/-- The first nominal type with a name, or no type. -/
def nominalId (tt : TypeTable) (name : Bytes) : TypeId :=
  let isNamed (d : Descriptor) : Bool :=
    isNominal d.kind && (tt.nominal? d.payload).any (·.name == name)
  match tt.types.findIdx? isNamed with
  | some i => UInt32.ofNat i
  | none => 0

/-- Why a table read from a document is refused. -/
inductive RestoreError where
  | noSentinel
  | missingSlot (type : Nat) (slot : UInt32)
  | notBuiltin
  deriving Repr, DecidableEq

/-- What is wrong with a table. -/
def RestoreError.message : RestoreError → Bytes
  | .noSentinel => "type table must start with the invalid sentinel"
  | .missingSlot i slot =>
    "type #" ++ Bytes.ofNat i ++ " refers to missing nominal slot " ++ Bytes.ofNat slot.toNat
  | .notBuiltin => "type table does not start with the builtin types"

/-- The builtin numbers that a restored table is checked at: `int32`, `string` and the object. -/
def checkedIds : List Nat := [8, 14, 16]

/-- Rebuild a table from its entries. -/
def restore (types : List Descriptor) (nominals : List Nominal) : Except RestoreError TypeTable :=
  match types with
  | [] => .error .noSentinel
  | first :: _ =>
    if first.kind ≠ .invalid then .error .noSentinel
    else
      let slots := if nominals.isEmpty then [{}] else nominals
      match types.findIdx? fun d => d.payload ≠ 0 && slots.length ≤ d.payload.toNat with
      | some i => .error (.missingSlot i ((types[i]?).getD {}).payload)
      | none =>
        if checkedIds.all fun i => types[i]? == builtin.types[i]? then .ok ⟨types, slots⟩
        else .error .notBuiltin

/-- The name of a type, if it is found in `fuel` steps through pointers and arrays. -/
def nameWith (tt : TypeTable) : Nat → TypeId → Option Bytes
  | 0, _ => none
  | fuel + 1, id =>
    match tt.lookup? id with
    | none => some "<none>"
    | some d =>
      match d.kind with
      | .int | .uint | .float => some (d.kind.name ++ Bytes.ofNat d.width.toNat)
      | .pointer => (tt.nameWith fuel d.elem).map (· ++ "*")
      | .array => (tt.nameWith fuel d.elem).map (· ++ "[]")
      | .struct | .object | .generic =>
        match tt.nominal? d.payload with
        | some n => some n.name
        | none => some d.kind.name
      | k => some k.name

/-- The name of a type, if it has one. A chain of pointers and arrays that does not return to itself
is shorter than the table, so no more steps are needed; nothing ends the search for the name of a
type whose chain returns to itself. -/
def name? (tt : TypeTable) (id : TypeId) : Option Bytes := tt.nameWith (tt.size + 1) id

/-- The number of the builtin type `void`. -/
def void : TypeId := 1

/-- The number of the builtin type `bool`. -/
def bool : TypeId := 2

/-- The number of the builtin type `char`. -/
def char : TypeId := 3

/-- The number of the builtin type `uint8`. -/
def uint8 : TypeId := 5

/-- The number of the builtin type `int32`. -/
def int32 : TypeId := 8

/-- The number of the builtin type `int64`. -/
def int64 : TypeId := 10

/-- The number of the builtin type `float32`. -/
def float32 : TypeId := 12

/-- The number of the builtin type `float64`. -/
def float64 : TypeId := 13

/-- The number of the builtin type `string`. -/
def string : TypeId := 14

/-- The number of the builtin type `object`. -/
def object : TypeId := 16

end TypeTable

end WastForge
