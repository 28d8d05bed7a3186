import Mathlib
import WastForge.Emit.Env
import WastForge.Machine.Value

/-!
# What integer expressions mean

The integer types of programs as sets of integers, and the meaning of the expressions over them:
arithmetic wraps around at the width of the type, divisions may fail, and the right operand of a
logical operator is looked at only when the left one does not decide.
-/

namespace WastForge

/-- The integral types. -/
inductive IntType where
  | bool
  | char
  | i8
  | u8
  | i16
  | u16
  | i32
  | u32
  | i64
  | u64
  deriving Repr, DecidableEq

namespace IntType

/-- The bits of a value. -/
def width : IntType → Nat
  | .bool => 1
  | .i8 | .u8 => 8
  | .char | .i16 | .u16 => 16
  | .i32 | .u32 => 32
  | .i64 | .u64 => 64

/-- Whether half of the values are negative. -/
def signed : IntType → Bool
  | .i8 | .i16 | .i32 | .i64 => true
  | _ => false

/-- The machine type that holds the values. -/
def keyword : IntType → Keyword
  | .i64 | .u64 => .i64
  | _ => .i32

/-- Whether arithmetic is done in the type itself. -/
def isWide : IntType → Bool
  | .i32 | .u32 | .i64 | .u64 => true
  | _ => false

/-- The type that a program gives to the result of an operator: operands narrower than 32 bits are
promoted. -/
def promoted (T : IntType) : IntType := if T.isWide then T else .i32

/-- The least value. -/
def least (T : IntType) : Int := if T.signed then -2 ^ (T.width - 1) else 0

/-- The number behind the greatest value. -/
def bound (T : IntType) : Int := if T.signed then 2 ^ (T.width - 1) else 2 ^ T.width

/-- Whether a number is a value of the type. -/
def contains (T : IntType) (v : Int) : Prop := T.least ≤ v ∧ v < T.bound

instance (T : IntType) (v : Int) : Decidable (T.contains v) :=
  inferInstanceAs (Decidable (_ ∧ _))

/-- The value with the same low bits as a number. -/
def wrap (T : IntType) (v : Int) : Int :=
  if T.signed then v.bmod (2 ^ T.width) else v % 2 ^ T.width

/-- The value with given bits. -/
def ofBits (T : IntType) (b : BitVec T.width) : Int := if T.signed then b.toInt else b.toNat

/-- The bits of a value. -/
def toBits (T : IntType) (v : Int) : BitVec T.width := BitVec.ofInt T.width v

/-- How the machine holds a value: a narrow one fills 32 bits with its sign. -/
def value (T : IntType) (v : Int) : Value :=
  match T.keyword with
  | .i64 => .i64 (UInt64.ofInt v)
  | _ => .i32 (UInt32.ofInt v)

/-- The integral type of a descriptor. -/
def ofDescriptor? (d : Descriptor) : Option IntType :=
  match d.kind, d.width with
  | .bool, _ => some .bool
  | .char, _ => some .char
  | .int, 8 => some .i8
  | .uint, 8 => some .u8
  | .int, 16 => some .i16
  | .uint, 16 => some .u16
  | .int, 32 => some .i32
  | .uint, 32 => some .u32
  | .int, 64 => some .i64
  | .uint, 64 => some .u64
  | _, _ => none

end IntType

/-- The integral type with a number. -/
def TypeTable.intType? (tt : TypeTable) (id : TypeId) : Option IntType :=
  (tt.lookup? id).bind IntType.ofDescriptor?

namespace IntType

/-- A truth value as a number. -/
def truth (b : Bool) : Int := if b then 1 else 0

/-- A quotient, which has to be a value of the type. -/
def quotient (T : IntType) (x y : Int) : Except TrapCode Int :=
  if y = 0 then .error .divideByZero
  else if T.contains (x.tdiv y) then .ok (x.tdiv y)
  else .error .overflow

/-- A remainder, with the sign of the left operand. -/
def remainder (x y : Int) : Except TrapCode Int :=
  if y = 0 then .error .divideByZero else .ok (x.tmod y)

/-- By how many bits a shift moves; only the low bits of the count matter. -/
def shiftCount (T : IntType) (y : Int) : Nat := (y % T.width).toNat

/-- The value of an operator whose operands are both looked at; the operands have the type `T`, but
for the count of a shift. -/
def binary (T : IntType) (op : BinaryOp) (x y : Int) : Except TrapCode Int :=
  match op with
  | .add => .ok (T.wrap (x + y))
  | .sub => .ok (T.wrap (x - y))
  | .mul => .ok (T.wrap (x * y))
  | .div => T.quotient x y
  | .rem => remainder x y
  | .bitAnd => .ok (T.ofBits (T.toBits x &&& T.toBits y))
  | .bitOr => .ok (T.ofBits (T.toBits x ||| T.toBits y))
  | .bitXor => .ok (T.ofBits (T.toBits x ^^^ T.toBits y))
  | .shl => .ok (T.wrap (x * 2 ^ T.shiftCount y))
  | .shr => .ok (x / 2 ^ T.shiftCount y)
  | .eq => .ok (truth (x = y))
  | .ne => .ok (truth (x ≠ y))
  | .lt => .ok (truth (x < y))
  | .le => .ok (truth (x ≤ y))
  | .gt => .ok (truth (y < x))
  | .ge => .ok (truth (y ≤ x))
  | _ => .ok 0

/-- The value of an operator with one operand, given the type of its result. -/
def unary (T : IntType) (op : UnaryOp) (x : Int) : Int :=
  match op with
  | .neg => T.wrap (-x)
  | .not => truth (x = 0)
  | .bitNot => T.wrap (-x - 1)
  | _ => x

end IntType

/-- The number that an operator with one operand makes of a number, which may be no value of the
type. -/
def UnaryOp.number (op : UnaryOp) (x : Int) : Int :=
  match op with
  | .neg => -x
  | .not => IntType.truth (x = 0)
  | .bitNot => -x - 1
  | _ => x

namespace Expr

/-- The integral type of an expression. -/
def intType (tt : TypeTable) (e : Expr) : IntType := (tt.intType? e.type).getD .i32

/-- The meaning of an integer expression, given the values of the variables: a number, or the
reason why there is none. -/
def meaning (tt : TypeTable) (vars : Bytes → Int) : Expr → Except TrapCode Int
  | .literal _ l => .ok (if l.kind = .bool then IntType.truth l.bool else l.int.toInt)
  | .variable _ name _ => .ok (vars name)
  | .binary _ .logicalAnd x y => do
    if (← x.meaning tt vars) = 0 then .ok 0 else y.meaning tt vars
  | .binary _ .logicalOr x y => do
    if (← x.meaning tt vars) = 0 then y.meaning tt vars else .ok 1
  | .binary _ op x y => do
    let v ← x.meaning tt vars
    let w ← y.meaning tt vars
    (x.intType tt).binary op v w
  | .unary a op x => do
    return ((Expr.unary a op x).intType tt).unary op (← x.meaning tt vars)
  | .cast a x => do
    return ((Expr.cast a x).intType tt).wrap (← x.meaning tt vars)
  | .conditional _ c x y => do
    if (← c.meaning tt vars) = 0 then y.meaning tt vars else x.meaning tt vars
  | _ => .ok 0

/-- Whether no sign or complement that is computed leaves a type of less than 32 bits. The machine
computes them in 32 or 64 bits, and nothing cuts the result down. -/
def SignsStay (tt : TypeTable) (vars : Bytes → Int) : Expr → Prop
  | .binary _ .logicalAnd x y =>
    x.SignsStay tt vars ∧ ∀ v, x.meaning tt vars = .ok v → v ≠ 0 → y.SignsStay tt vars
  | .binary _ .logicalOr x y =>
    x.SignsStay tt vars ∧ ∀ v, x.meaning tt vars = .ok v → v = 0 → y.SignsStay tt vars
  | .binary _ _ x y =>
    x.SignsStay tt vars ∧ ∀ v, x.meaning tt vars = .ok v → y.SignsStay tt vars
  | .unary a op x =>
    x.SignsStay tt vars ∧ ∀ v, x.meaning tt vars = .ok v →
      ((Expr.unary a op x).intType tt).isWide
        ∨ ((Expr.unary a op x).intType tt).contains (op.number v)
  | .cast _ x => x.SignsStay tt vars
  | .conditional _ c x y =>
    c.SignsStay tt vars ∧ ∀ v, c.meaning tt vars = .ok v →
      (v ≠ 0 → x.SignsStay tt vars) ∧ (v = 0 → y.SignsStay tt vars)
  | _ => True

end Expr

/-- Operators whose result has the type of their operands. -/
def BinaryOp.isArithmetic : BinaryOp → Bool
  | .add | .sub | .mul | .div | .rem | .bitAnd | .bitOr | .bitXor => true
  | _ => false

/-- The integer expressions of a function, with their types: literals that fit, declared variables,
operators with two operands on 32 and 64 bits, signs and complements on every type, and conversions.
A narrow operand of a sign or complement may also be promoted: the result has 32 bits then. -/
inductive IsInteger (env : Emit.Env) : Expr → IntType → Prop
  | int {a : Annot} {l : Literal} {T : IntType} (ha : env.types.intType? a.type = some T)
      (hl : l.kind = .int) (hfit : T.contains l.int.toInt) : IsInteger env (.literal a l) T
  | bool {a : Annot} {l : Literal} (ha : env.types.intType? a.type = some .bool)
      (hl : l.kind = .bool) : IsInteger env (.literal a l) .bool
  | char {a : Annot} {l : Literal} (ha : env.types.intType? a.type = some .char)
      (hl : l.kind = .char) (hfit : IntType.char.contains l.int.toInt) :
      IsInteger env (.literal a l) .char
  | var {a : Annot} {name : Bytes} {isParam : Bool} {T : IntType}
      (ha : env.types.intType? a.type = some T) (hdecl : env.local? name = some a.type) :
      IsInteger env (.variable a name isParam) T
  | arithmetic {a : Annot} {op : BinaryOp} {x y : Expr} {T : IntType}
      (ha : env.types.intType? a.type = some T) (hop : op.isArithmetic) (hT : T.isWide)
      (hx : IsInteger env x T) (hy : IsInteger env y T) : IsInteger env (.binary a op x y) T
  | comparison {a : Annot} {op : BinaryOp} {x y : Expr} {T : IntType}
      (ha : env.types.intType? a.type = some .bool) (hop : op.isComparison) (hT : T.isWide)
      (hx : IsInteger env x T) (hy : IsInteger env y T) : IsInteger env (.binary a op x y) .bool
  | shift {a : Annot} {op : BinaryOp} {x y : Expr} {T : IntType}
      (ha : env.types.intType? a.type = some T) (hop : op.isShift) (hT : T.isWide)
      (hx : IsInteger env x T) (hy : IsInteger env y .i32) : IsInteger env (.binary a op x y) T
  | logical {a : Annot} {op : BinaryOp} {x y : Expr}
      (ha : env.types.intType? a.type = some .bool) (hop : op = .logicalAnd ∨ op = .logicalOr)
      (hx : IsInteger env x .bool) (hy : IsInteger env y .bool) :
      IsInteger env (.binary a op x y) .bool
  | sign {a : Annot} {op : UnaryOp} {x : Expr} {S T : IntType}
      (ha : env.types.intType? a.type = some T) (hop : op = .neg ∨ op = .bitNot)
      (hST : S = T ∨ S.isWide = false ∧ T = .i32)
      (hx : IsInteger env x S) : IsInteger env (.unary a op x) T
  | plus {a : Annot} {x : Expr} {S T : IntType} (ha : env.types.intType? a.type = some T)
      (hST : S = T ∨ S.isWide = false ∧ T = .i32)
      (hx : IsInteger env x S) : IsInteger env (.unary a .plus x) T
  | not {a : Annot} {x : Expr} {T : IntType} (ha : env.types.intType? a.type = some .bool)
      (hx : IsInteger env x T) : IsInteger env (.unary a .not x) .bool
  | conditional {a : Annot} {c x y : Expr} {T : IntType}
      (ha : env.types.intType? a.type = some T) (hc : IsInteger env c .bool)
      (hx : IsInteger env x T) (hy : IsInteger env y T) : IsInteger env (.conditional a c x y) T
  | cast {a : Annot} {x : Expr} {S T : IntType} (ha : env.types.intType? a.type = some T)
      (hT : T ≠ .bool) (hx : IsInteger env x S) : IsInteger env (.cast a x) T

/-- Where an integer expression stands, its annotation tells its type. -/
theorem IsInteger.intType?_type {env : Emit.Env} {e : Expr} {T : IntType}
    (h : IsInteger env e T) : env.types.intType? e.type = some T := by
  cases h <;> assumption

namespace IntType

/-- The bits that a type table gives a type; a truth value takes a byte. -/
def tableWidth : IntType → UInt8
  | .bool => 8
  | T => UInt8.ofNat T.width

/-- The kind of an integral type. -/
def kind : IntType → Kind
  | .bool => .bool
  | .char => .char
  | T => if T.signed then .int else .uint

/-- What a descriptor says of an integral type. -/
theorem kind_of_ofDescriptor? {d : Descriptor} {T : IntType} (h : ofDescriptor? d = some T) :
    d.kind = T.kind ∧ (T ≠ .bool → T ≠ .char → d.width = T.tableWidth) := by
  unfold ofDescriptor? at h
  split at h <;> simp_all <;> subst h <;> decide

end IntType

namespace TypeTable

variable {tt : TypeTable} {id : TypeId} {T : IntType}

theorem lookup?_of_intType? (h : tt.intType? id = some T) :
    ∃ d, tt.lookup? id = some d ∧ d.kind = T.kind ∧
      (T ≠ .bool → T ≠ .char → d.width = T.tableWidth) := by
  unfold intType? at h
  obtain ⟨d, hd, hT⟩ := Option.bind_eq_some_iff.mp h
  exact ⟨d, hd, IntType.kind_of_ofDescriptor? hT⟩

theorem valueKeyword?_of_intType? (h : tt.intType? id = some T) :
    tt.valueKeyword? id = some T.keyword := by
  obtain ⟨d, hd, hk, hw⟩ := lookup?_of_intType? h
  unfold valueKeyword? keyword?
  cases T <;> simp_all [IntType.kind, IntType.signed, IntType.keyword, IntType.tableWidth,
    IntType.width]

theorem kindIs_of_intType? (p : Kind → Bool) (h : tt.intType? id = some T) :
    tt.kindIs p id = p T.kind := by
  obtain ⟨d, hd, hk, -⟩ := lookup?_of_intType? h
  simp [kindIs, hd, hk]

theorem isIntegral_of_intType? (h : tt.intType? id = some T) : tt.isIntegral id := by
  rw [isIntegral, kindIs_of_intType? _ h]
  cases T <;> rfl

theorem isSigned_of_intType? (h : tt.intType? id = some T) : tt.isSigned id = T.signed := by
  rw [isSigned, kindIs_of_intType? _ h]
  cases T <;> rfl

theorem isFloat_of_intType? (h : tt.intType? id = some T) : tt.isFloat id = false := by
  rw [isFloat, kindIs_of_intType? _ h]
  cases T <;> rfl

theorem isString_of_intType? (h : tt.intType? id = some T) : tt.isString id = false := by
  rw [isString, kindIs_of_intType? _ h]
  cases T <;> rfl

theorem widthOf_of_intType? (h : tt.intType? id = some T) : tt.widthOf id = T.tableWidth := by
  obtain ⟨d, hd, hk, hw⟩ := lookup?_of_intType? h
  unfold widthOf
  cases T <;> simp_all [IntType.kind, IntType.signed, IntType.tableWidth, IntType.width]

end TypeTable

end WastForge
