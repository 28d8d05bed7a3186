import WastForge.Number.Binary

/-!
# Arithmetic on floating point numbers

Operations on floating point numbers of 64 bits, given and returned as their bits. An operation on
something that is no number passes the first such operand on; one without a result gives the bits
`invalid`.
-/

namespace WastForge.Binary64

/-- The bits of an operation without a result. -/
def invalid : UInt64 := 0xFFF8000000000000

/-- The bits that stand for no number. -/
def nan : UInt64 := 0x7FF8000000000001

/-- The bits of positive infinity. -/
def infinity : UInt64 := 0x7FF0000000000000

/-- The bit of the sign. -/
def signBit : UInt64 := 0x8000000000000000

/-- The bits without the sign. -/
def magnitude (b : UInt64) : UInt64 := b &&& 0x7FFFFFFFFFFFFFFF

/-- Whether the bits are no number. -/
def isNan (b : UInt64) : Bool := infinity < magnitude b

/-- Something that is no number, as operations pass it on. -/
def quiet (b : UInt64) : UInt64 := b ||| 0x0008000000000000

/-- Whether the sign is negative. -/
def isNegative (b : UInt64) : Bool := b &&& signBit != 0

/-- The result of an operation on numbers. -/
def ofFloat (x : Float) : UInt64 := if x.isNaN then invalid else x.toBits

/-- An operation on one operand. -/
def lift1 (f : Float → Float) (a : UInt64) : UInt64 :=
  if isNan a then quiet a else ofFloat (f (Float.ofBits a))

/-- An operation on two operands. -/
def lift2 (f : Float → Float → Float) (a b : UInt64) : UInt64 :=
  if isNan a then quiet a
  else if isNan b then quiet b
  else ofFloat (f (Float.ofBits a) (Float.ofBits b))

/-- A comparison, which never holds of something that is no number. -/
def compare (f : Float → Float → Bool) (a b : UInt64) : Bool :=
  !isNan a && !isNan b && f (Float.ofBits a) (Float.ofBits b)

/-- The sum. -/
def add (a b : UInt64) : UInt64 := lift2 (· + ·) a b

/-- The difference. -/
def sub (a b : UInt64) : UInt64 := lift2 (· - ·) a b

/-- The product. -/
def mul (a b : UInt64) : UInt64 := lift2 (· * ·) a b

/-- The quotient. -/
def div (a b : UInt64) : UInt64 := lift2 (· / ·) a b

/-- Whether two numbers are equal; the two zeros are. -/
def eq (a b : UInt64) : Bool := compare (· == ·) a b

/-- Whether the first number is less. -/
def lt (a b : UInt64) : Bool := compare (fun x y => decide (x < y)) a b

/-- Whether the first number is less or equal. -/
def le (a b : UInt64) : Bool := compare (fun x y => decide (x ≤ y)) a b

/-- The lesser number; the negative zero is less than the positive one, and negative infinity is
less than anything. -/
def min (a b : UInt64) : UInt64 :=
  if a = infinity ||| signBit || b = infinity ||| signBit then infinity ||| signBit
  else if isNan a || isNan b then nan
  else if magnitude a = 0 && magnitude b = 0 then (if isNegative a then a else b)
  else if lt a b then a
  else b

/-- The greater number. -/
def max (a b : UInt64) : UInt64 :=
  if a = infinity || b = infinity then infinity
  else if isNan a || isNan b then nan
  else if magnitude a = 0 && magnitude b = 0 then (if isNegative a then b else a)
  else if lt b a then a
  else b

/-- The number with the other sign. -/
def neg (a : UInt64) : UInt64 := a ^^^ signBit

/-- The number without its sign. -/
def abs (a : UInt64) : UInt64 := magnitude a

/-- The square root. -/
def sqrt (a : UInt64) : UInt64 := lift1 Float.sqrt a

/-- The bits of the number nearest to `num / den` in a format, infinity if it is too large. -/
def nearest (f : BinaryFormat) (negative : Bool) (num den : Nat) : Nat :=
  let stored := f.precision - 1
  let sign := if negative then Nat.pow 2 (stored + f.exponentBits) else 0
  let infinite := sign + (Nat.pow 2 f.exponentBits - 1) * Nat.pow 2 stored
  (Parts.round? f negative num den).getD infinite

/-- How a fraction becomes a natural number, given the sign of the whole. -/
abbrev Rounding := Bool → Nat → Nat → Nat

/-- Away from the fraction upwards. -/
def ceilDiv (num den : Nat) : Nat := (num + den - 1) / den

/-- Towards zero. -/
def towardZero : Rounding := fun _ num den => num / den

/-- Towards negative infinity. -/
def downward : Rounding := fun negative num den =>
  if negative then ceilDiv num den else num / den

/-- Towards positive infinity. -/
def upward : Rounding := fun negative num den =>
  if negative then num / den else ceilDiv num den

/-- To the nearest integer, a half going to the even one. -/
def toEven : Rounding := fun _ num den => Parts.roundDiv num den

/-- A number rounded to an integer, which keeps its sign. -/
def integral (r : Rounding) (a : UInt64) : UInt64 :=
  match Parts.ofBits .double a.toNat with
  | .nan => quiet a
  | .infinite _ => a
  | .finite negative m (.negSucc k) =>
    UInt64.ofNat (nearest .double negative (r negative m (Nat.pow 2 (k + 1))) 1)
  | .finite _ _ (.ofNat _) => a

/-- The integer towards zero; nothing for what is no number or infinite. -/
def toInt? (a : UInt64) : Option Int :=
  match Parts.ofBits .double a.toNat with
  | .nan | .infinite _ => none
  | .finite negative m q =>
    let n := m * Nat.pow 2 q.toNat / Nat.pow 2 (-q).toNat
    some (if negative then -(n : Int) else n)

/-- The nearest number to an integer. -/
def ofInt (n : Int) : UInt64 := UInt64.ofNat (nearest .double (n < 0) n.natAbs 1)

/-- The number of 64 bits that equals one of 32 bits. -/
def ofSingle (b : UInt32) : UInt64 :=
  match Parts.ofBits .single b.toNat with
  | .nan =>
    ((b >>> 31).toUInt64 <<< 63) ||| quiet infinity ||| ((b &&& 0x7FFFFF).toUInt64 <<< 29)
  | .infinite negative => if negative then infinity ||| signBit else infinity
  | .finite negative m q =>
    UInt64.ofNat (nearest .double negative (m * Nat.pow 2 q.toNat) (Nat.pow 2 (-q).toNat))

/-- The number of 32 bits nearest to one of 64 bits. -/
def toSingle (a : UInt64) : UInt32 :=
  match Parts.ofBits .double a.toNat with
  | .nan =>
    ((a >>> 63).toUInt32 <<< 31) ||| (0x7FC00000 : UInt32) ||| ((a >>> 29).toUInt32 &&& 0x3FFFFF)
  | .infinite negative => if negative then 0xFF800000 else 0x7F800000
  | .finite negative m q =>
    UInt32.ofNat (nearest .single negative (m * Nat.pow 2 q.toNat) (Nat.pow 2 (-q).toNat))

end WastForge.Binary64
