import WastForge.Bytes

/-!
# Operators

The operators of expressions. A document may hold a number without meaning; it stays as it is.
-/

namespace WastForge

/-- An operator with two operands; the assignments are among them. -/
inductive BinaryOp where
  | add
  | sub
  | mul
  | div
  | rem
  | bitAnd
  | bitOr
  | bitXor
  | shl
  | shr
  | eq
  | ne
  | lt
  | le
  | gt
  | ge
  | logicalAnd
  | logicalOr
  | assign
  | addAssign
  | subAssign
  | mulAssign
  | divAssign
  | remAssign
  | bitAndAssign
  | bitOrAssign
  | bitXorAssign
  | shlAssign
  | shrAssign
  /-- A number without meaning. -/
  | unknown (code : UInt8)
  deriving Repr, DecidableEq, Inhabited

namespace BinaryOp

/-- The number that a document has for an operator. -/
def code : BinaryOp → UInt8
  | .add => 1
  | .sub => 2
  | .mul => 3
  | .div => 4
  | .rem => 5
  | .bitAnd => 6
  | .bitOr => 7
  | .bitXor => 8
  | .shl => 9
  | .shr => 10
  | .eq => 11
  | .ne => 12
  | .lt => 13
  | .le => 14
  | .gt => 15
  | .ge => 16
  | .logicalAnd => 17
  | .logicalOr => 18
  | .assign => 19
  | .addAssign => 20
  | .subAssign => 21
  | .mulAssign => 22
  | .divAssign => 23
  | .remAssign => 24
  | .bitAndAssign => 25
  | .bitOrAssign => 26
  | .bitXorAssign => 27
  | .shlAssign => 28
  | .shrAssign => 29
  | .unknown c => c

/-- The operator with a number. -/
def ofCode (c : UInt8) : BinaryOp :=
  match c.toNat with
  | 1 => .add
  | 2 => .sub
  | 3 => .mul
  | 4 => .div
  | 5 => .rem
  | 6 => .bitAnd
  | 7 => .bitOr
  | 8 => .bitXor
  | 9 => .shl
  | 10 => .shr
  | 11 => .eq
  | 12 => .ne
  | 13 => .lt
  | 14 => .le
  | 15 => .gt
  | 16 => .ge
  | 17 => .logicalAnd
  | 18 => .logicalOr
  | 19 => .assign
  | 20 => .addAssign
  | 21 => .subAssign
  | 22 => .mulAssign
  | 23 => .divAssign
  | 24 => .remAssign
  | 25 => .bitAndAssign
  | 26 => .bitOrAssign
  | 27 => .bitXorAssign
  | 28 => .shlAssign
  | 29 => .shrAssign
  | _ => .unknown c

/-- How an operator is written. -/
def token : BinaryOp → Bytes
  | .add => "+"
  | .sub => "-"
  | .mul => "*"
  | .div => "/"
  | .rem => "%"
  | .bitAnd => "&"
  | .bitOr => "|"
  | .bitXor => "^"
  | .shl => "<<"
  | .shr => ">>"
  | .eq => "=="
  | .ne => "!="
  | .lt => "<"
  | .le => "<="
  | .gt => ">"
  | .ge => ">="
  | .logicalAnd => "&&"
  | .logicalOr => "||"
  | .assign => "="
  | .addAssign => "+="
  | .subAssign => "-="
  | .mulAssign => "*="
  | .divAssign => "/="
  | .remAssign => "%="
  | .bitAndAssign => "&="
  | .bitOrAssign => "|="
  | .bitXorAssign => "^="
  | .shlAssign => "<<="
  | .shrAssign => ">>="
  | .unknown _ => "?"

/-- The operator with a token. -/
def ofToken? (t : Bytes) : Option BinaryOp :=
  ((List.range 29).map fun i => ofCode (UInt8.ofNat (i + 1))).find? (·.token == t)

/-- Whether the operator compares its operands. -/
def isComparison : BinaryOp → Bool
  | .eq | .ne | .lt | .le | .gt | .ge => true
  | _ => false

/-- Whether the operator assigns to its left operand; a number beyond the known ones counts. -/
def isAssignment (op : BinaryOp) : Bool := 19 ≤ op.code

/-- Whether the right operand counts bits. -/
def isShift : BinaryOp → Bool
  | .shl | .shr => true
  | _ => false

/-- The operator that a compound assignment applies before it assigns. -/
def compoundBase? : BinaryOp → Option BinaryOp
  | .addAssign => some .add
  | .subAssign => some .sub
  | .mulAssign => some .mul
  | .divAssign => some .div
  | .remAssign => some .rem
  | .bitAndAssign => some .bitAnd
  | .bitOrAssign => some .bitOr
  | .bitXorAssign => some .bitXor
  | .shlAssign => some .shl
  | .shrAssign => some .shr
  | _ => none

end BinaryOp

/-- An operator with one operand. -/
inductive UnaryOp where
  | neg
  | plus
  | not
  | bitNot
  | preInc
  | preDec
  | postInc
  | postDec
  /-- A number without meaning. -/
  | unknown (code : UInt8)
  deriving Repr, DecidableEq, Inhabited

namespace UnaryOp

/-- The number that a document has for an operator. -/
def code : UnaryOp → UInt8
  | .neg => 1
  | .plus => 2
  | .not => 3
  | .bitNot => 4
  | .preInc => 5
  | .preDec => 6
  | .postInc => 7
  | .postDec => 8
  | .unknown c => c

/-- The operator with a number. -/
def ofCode (c : UInt8) : UnaryOp :=
  match c.toNat with
  | 1 => .neg
  | 2 => .plus
  | 3 => .not
  | 4 => .bitNot
  | 5 => .preInc
  | 6 => .preDec
  | 7 => .postInc
  | 8 => .postDec
  | _ => .unknown c

/-- How an operator is written. -/
def token : UnaryOp → Bytes
  | .neg => "-"
  | .plus => "+"
  | .not => "!"
  | .bitNot => "~"
  | .preInc => "++x"
  | .preDec => "--x"
  | .postInc => "x++"
  | .postDec => "x--"
  | .unknown _ => "?"

/-- The operator with a token. -/
def ofToken? (t : Bytes) : Option UnaryOp :=
  ((List.range 8).map fun i => ofCode (UInt8.ofNat (i + 1))).find? (·.token == t)

/-- Whether the operator changes its operand; a number beyond the known ones counts. -/
def isIncrement (op : UnaryOp) : Bool := 5 ≤ op.code

end UnaryOp

/-- What a literal stands for. -/
inductive LiteralKind where
  | int
  | float
  | bool
  | char
  | string
  | null
  | default
  /-- A number without meaning. -/
  | unknown (code : UInt8)
  deriving Repr, DecidableEq, Inhabited

namespace LiteralKind

/-- The number that a document has for a kind of literal. -/
def code : LiteralKind → UInt8
  | .int => 1
  | .float => 2
  | .bool => 3
  | .char => 4
  | .string => 5
  | .null => 6
  | .default => 7
  | .unknown c => c

/-- The kind of literal with a number. -/
def ofCode (c : UInt8) : LiteralKind :=
  match c.toNat with
  | 1 => .int
  | 2 => .float
  | 3 => .bool
  | 4 => .char
  | 5 => .string
  | 6 => .null
  | 7 => .default
  | _ => .unknown c

end LiteralKind

/-- An operation that the surrounding harness offers to a module, by its number. -/
structure HarnessOp where
  code : UInt8 := 0
  deriving Repr, DecidableEq, Inhabited

namespace HarnessOp

/-- Redirect the output to a file. -/
def stdoutOpen : HarnessOp := ⟨1⟩

/-- Write bytes of the memory to the output. -/
def stdoutWrite : HarnessOp := ⟨2⟩

/-- The name under which a module imports the operation. -/
def importName (op : HarnessOp) : Bytes :=
  if op = stdoutOpen then "__stdout_open"
  else if op = stdoutWrite then "__stdout_write"
  else "__unknown"

end HarnessOp

end WastForge
