import WastForge.Diagnostic.Basic
import WastForge.Text.Quoted
import WastForge.Types.Table

/-!
# Sizes of types

How many bytes a value of a type takes in memory. A struct is the packed sum of its fields. A
struct that contains itself by value has no size, and neither has a type without a
representation in memory. Sizes that were found once are remembered, together with the failures.
-/

namespace WastForge

/-- Why a size or a place in memory could not be found. -/
inductive LayoutError where
  /-- A struct contains itself by value; the cycle leads from the type back to it. -/
  | recursive (name : Bytes) (cycle : List TypeId)
  /-- A type has no representation in memory. -/
  | unsupported (name : Bytes)
  /-- The addresses of 32 bits do not suffice. -/
  | overflow
  /-- A text has characters outside Latin-1. -/
  | unencodable (content : Bytes)
  /-- The process ends before anything can be said, as when there is no end to the name of the type
  that the failure is about. -/
  | crash (how : Crash)
  deriving Repr, DecidableEq, Inhabited

namespace LayoutError

/-- The code that reports a failure. -/
def code : LayoutError → Code
  | .recursive .. => .recursiveStruct
  | .unsupported _ => .fieldType
  | .overflow => .memoryOverflow
  | .unencodable _ => .notLatin1
  | .crash _ => .unknown

/-- What is wrong with a text that has no Latin-1 form. -/
def notLatin1 : Bytes := "encoding: rune not supported by encoding."

/-- The text of a failure. -/
def message : LayoutError → Bytes
  | .recursive name cycle =>
    "struct " ++ name ++ " contains itself by value (cycle: "
      ++ Bytes.join " -> " (cycle.map fun id => "type#" ++ Bytes.ofNat id.toNat) ++ ")"
  | .unsupported name => "type " ++ name ++ " has no memory representation"
  | .overflow => "linear memory overflow: out of range"
  | .unencodable content =>
    "string " ++ Quoted.text content ++ " cannot be encoded as Latin-1: " ++ notLatin1
  | .crash _ => []

/-- The failure of the work that needed the size or the place. -/
def failure : LayoutError → Failure
  | .crash how => .crash how
  | e => .layout e.code e.message

end LayoutError

/-- What is known about the sizes of types, the latest finding first. -/
abbrev KnownSizes := List (TypeId × Except LayoutError UInt32)

namespace TypeTable

/-- A size, found in the light of what is known. -/
abbrev SizeM := StateM KnownSizes

/-- The sum of the sizes of fields, up to the first one without a size. -/
def sumSizes (size : TypeId → SizeM (Except LayoutError UInt32)) :
    Nat → List StructField → SizeM (Except LayoutError Nat)
  | total, [] => pure (.ok total)
  | total, f :: rest => do
    match ← size f.type with
    | .error e => pure (.error e)
    | .ok n => sumSizes size (total + n.toNat) rest

/-- The size of a struct from the sum of the sizes of its fields. -/
def structSize (total : Nat) : Except LayoutError UInt32 :=
  if total < 0x100000000 then .ok (UInt32.ofNat total) else .error .overflow

/-- A failure that tells the name of a type. -/
def failing (tt : TypeTable) (id : TypeId) (why : Bytes → LayoutError) :
    Except LayoutError UInt32 :=
  match tt.name? id with
  | some name => .error (why name)
  | none => .error (.crash .endless)

/-- The size of a type that is not among the known ones; `size` finds the sizes of fields. -/
def freshSize (tt : TypeTable) (size : TypeId → SizeM (Except LayoutError UInt32)) (id : TypeId) :
    SizeM (Except LayoutError UInt32) :=
  let unsupported := tt.failing id .unsupported
  match tt.lookup? id with
  | none => pure unsupported
  | some d =>
    match d.kind with
    | .void => pure (.ok 0)
    | .bool => pure (.ok 1)
    | .char => pure (.ok 2)
    | .int | .uint | .float => pure (.ok (d.width.toUInt32 / 8))
    | .pointer | .delegate | .string => pure (.ok 4)
    | .struct =>
      match tt.structInfo? id with
      | none => pure unsupported
      | some info => do
        match ← sumSizes size 0 info.fields with
        | .error e => pure (.error e)
        | .ok total => pure (structSize total)
    | _ => pure unsupported

/-- Find the size of a type that lies inside of the structs `outer`, the outermost one first. Every
step goes into another struct, so the types of the table bound the `fuel` that is needed. -/
def sizeWith (tt : TypeTable) : Nat → List TypeId → TypeId → SizeM (Except LayoutError UInt32)
  | 0, _, id => pure (tt.failing id .unsupported)
  | fuel + 1, outer, id => do
    match (← get).lookup id with
    | some known => pure known
    | none =>
      let found ←
        if outer.contains id then
          pure (tt.failing id fun name => .recursive name (outer.dropWhile (· ≠ id) ++ [id]))
        else freshSize tt (tt.sizeWith fuel (outer ++ [id])) id
      modify ((id, found) :: ·)
      pure found

/-- The bytes that a value of a type takes in memory. -/
def sizeOf (tt : TypeTable) (id : TypeId) : SizeM (Except LayoutError UInt32) :=
  tt.sizeWith (tt.size + 2) [] id

end TypeTable

end WastForge
