import WastForge.Types.Table

/-!
# Machine types

How the types of a program are held by the machine: the keyword of a value, and how much of it is
kept in memory.
-/

namespace WastForge

/-- The machine type of a value. -/
inductive Keyword where
  | void
  | i32
  | i64
  | f32
  | f64
  deriving Repr, DecidableEq, Inhabited

namespace Keyword

/-- How a keyword is written. -/
def text : Keyword → Bytes
  | .void => "void"
  | .i32 => "i32"
  | .i64 => "i64"
  | .f32 => "f32"
  | .f64 => "f64"

/-- Whether values of the type are floating point numbers. -/
def isFloat : Keyword → Bool
  | .f32 | .f64 => true
  | _ => false

end Keyword

namespace TypeTable

variable (tt : TypeTable)

/-- The machine type of a type, if it has one. -/
def keyword? (id : TypeId) : Option Keyword :=
  match tt.lookup? id with
  | none => none
  | some d =>
    match d.kind with
    | .void => some .void
    | .bool | .char | .pointer | .delegate | .string => some .i32
    | .int | .uint => some (if d.width = 64 then .i64 else .i32)
    | .float => some (if d.width = 32 then .f32 else .f64)
    | _ => none

/-- The machine type of a value of a type; void has no values. -/
def valueKeyword? (id : TypeId) : Option Keyword :=
  match tt.keyword? id with
  | some .void => none
  | kw => kw

/-- What a load or store of a narrow type adds to the instruction. -/
def memorySuffix (id : TypeId) (store : Bool) : Bytes :=
  match tt.lookup? id with
  | none => []
  | some d =>
    let width : UInt8 :=
      match d.kind with
      | .bool => 8
      | .char => 16
      | .int | .uint => d.width
      | _ => 0
    let sign : Bytes := if store then "" else if d.kind = .int then "_s" else "_u"
    if width = 8 then "8" ++ sign else if width = 16 then "16" ++ sign else []

/-- Whether the kind of a type satisfies `p`. -/
def kindIs (p : Kind → Bool) (id : TypeId) : Bool := (tt.lookup? id).any fun d => p d.kind

/-- Whether values of a type are integers. -/
def isIntegral (id : TypeId) : Bool :=
  tt.kindIs (fun k => k = .int || k = .uint || k = .char || k = .bool) id

/-- Whether values of a type are signed integers. -/
def isSigned (id : TypeId) : Bool := tt.kindIs (· = .int) id

/-- Whether values of a type are floating point numbers. -/
def isFloat (id : TypeId) : Bool := tt.kindIs (· = .float) id

/-- Whether a type is the type of strings. -/
def isString (id : TypeId) : Bool := tt.kindIs (· = .string) id

/-- Whether a type has no values. -/
def isVoid (id : TypeId) : Bool := tt.kindIs (· = .void) id

/-- Bits of the numbers of a type, or zero. -/
def widthOf (id : TypeId) : UInt8 :=
  match tt.lookup? id with
  | none => 0
  | some d =>
    match d.kind with
    | .int | .uint | .float => d.width
    | .char => 16
    | .bool => 8
    | _ => 0

end TypeTable

end WastForge
