import WastForge.Bytes

/-!
# Type descriptors
-/

namespace WastForge

/-- The number of a type in a type table; `0` is no type. -/
abbrev TypeId := UInt32

/-- What sort of type a descriptor describes. -/
inductive Kind where
  | invalid
  | void
  | bool
  | char
  | int
  | uint
  | float
  | string
  | pointer
  | delegate
  | struct
  | array
  | generic
  | object
  /-- A number without meaning, found in a document. -/
  | unknown (code : UInt8)
  deriving Repr, DecidableEq, Inhabited

namespace Kind

/-- The kinds with a name, in the order of their numbers. -/
def named : List (Kind × Bytes) :=
  [(.invalid, "invalid"), (.void, "void"), (.bool, "bool"), (.char, "char"), (.int, "int"),
   (.uint, "uint"), (.float, "float"), (.string, "string"), (.pointer, "pointer"),
   (.delegate, "delegate"), (.struct, "struct"), (.array, "array"), (.generic, "generic"),
   (.object, "object")]

/-- The number that a document has for a kind. -/
def code : Kind → UInt8
  | .invalid => 0
  | .void => 1
  | .bool => 2
  | .char => 3
  | .int => 4
  | .uint => 5
  | .float => 6
  | .string => 7
  | .pointer => 8
  | .delegate => 9
  | .struct => 10
  | .array => 11
  | .generic => 12
  | .object => 13
  | .unknown c => c

/-- The kind with a number. -/
def ofCode (c : UInt8) : Kind :=
  match named[c.toNat]? with
  | some (k, _) => k
  | none => .unknown c

/-- The name of a kind. -/
def name (k : Kind) : Bytes :=
  match named.lookup k with
  | some n => n
  | none => "Kind(" ++ Bytes.ofNat k.code.toNat ++ ")"

end Kind

/-- One entry of a type table. -/
structure Descriptor where
  kind : Kind := .invalid
  /-- What a pointer points to or an array holds. -/
  elem : TypeId := 0
  /-- Bits of a number. -/
  width : UInt8 := 0
  /-- The slot of a nominal type. -/
  payload : UInt32 := 0
  deriving Repr, DecidableEq, Inhabited

/-- A field of a struct. -/
structure StructField where
  name : Bytes := []
  type : TypeId := 0
  deriving Repr, DecidableEq, Inhabited

/-- What a nominal type is called and, for a struct, what it holds. -/
structure Nominal where
  name : Bytes := []
  fields : List StructField := []
  deriving Repr, DecidableEq, Inhabited

end WastForge
