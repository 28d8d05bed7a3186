import WastForge.Machine.Value

/-!
# Operations on values

The operations of the machine on integers and floating point numbers, and the conversions between
them.
-/

namespace WastForge

/-- An operation on two integers. -/
inductive IntOp where
  | add
  | sub
  | mul
  | divS
  | divU
  | remS
  | remU
  | and
  | or
  | xor
  | shl
  | shrS
  | shrU
  | eq
  | ne
  | ltS
  | ltU
  | leS
  | leU
  | gtS
  | gtU
  | geS
  | geU
  deriving Repr, DecidableEq, Inhabited

namespace IntOp

/-- How an operation is written. -/
def name : IntOp → Bytes
  | .add => "add"
  | .sub => "sub"
  | .mul => "mul"
  | .divS => "div_s"
  | .divU => "div_u"
  | .remS => "rem_s"
  | .remU => "rem_u"
  | .and => "and"
  | .or => "or"
  | .xor => "xor"
  | .shl => "shl"
  | .shrS => "shr_s"
  | .shrU => "shr_u"
  | .eq => "eq"
  | .ne => "ne"
  | .ltS => "lt_s"
  | .ltU => "lt_u"
  | .leS => "le_s"
  | .leU => "le_u"
  | .gtS => "gt_s"
  | .gtU => "gt_u"
  | .geS => "ge_s"
  | .geU => "ge_u"

/-- All operations. -/
def all : List IntOp :=
  [.add, .sub, .mul, .divS, .divU, .remS, .remU, .and, .or, .xor, .shl, .shrS, .shrU, .eq, .ne,
   .ltS, .ltU, .leS, .leU, .gtS, .gtU, .geS, .geU]

/-- The operation with a name. -/
def ofName? (s : Bytes) : Option IntOp := all.find? (·.name == s)

/-- A division by zero. -/
def byZero (kw : Keyword) (op : IntOp) : Trap :=
  ⟨.divideByZero, kw.text ++ "." ++ op.name ++ " by zero", 0, []⟩

/-- A division whose result does not fit. -/
def tooLarge (kw : Keyword) (op : IntOp) : Trap :=
  ⟨.overflow, kw.text ++ "." ++ op.name ++ " overflow", 0, []⟩

/-- An operation on integers of 32 bits. -/
def on32 (op : IntOp) (x y : UInt32) : Except Trap Value :=
  let sx := x.toInt32
  let sy := y.toInt32
  match op with
  | .add => .ok (.i32 (x + y))
  | .sub => .ok (.i32 (x - y))
  | .mul => .ok (.i32 (x * y))
  | .divS =>
    if y = 0 then .error (byZero .i32 op)
    else if sx = Int32.minValue && sy = -1 then .error (tooLarge .i32 op)
    else .ok (.i32 (sx / sy).toUInt32)
  | .divU => if y = 0 then .error (byZero .i32 op) else .ok (.i32 (x / y))
  | .remS =>
    if y = 0 then .error (byZero .i32 op)
    else if sy = -1 then .ok (.i32 0)
    else .ok (.i32 (sx % sy).toUInt32)
  | .remU => if y = 0 then .error (byZero .i32 op) else .ok (.i32 (x % y))
  | .and => .ok (.i32 (x &&& y))
  | .or => .ok (.i32 (x ||| y))
  | .xor => .ok (.i32 (x ^^^ y))
  | .shl => .ok (.i32 (x <<< (y &&& 31)))
  | .shrS => .ok (.i32 (sx >>> (y &&& 31).toInt32).toUInt32)
  | .shrU => .ok (.i32 (x >>> (y &&& 31)))
  | .eq => .ok (.ofBool (x == y))
  | .ne => .ok (.ofBool (x != y))
  | .ltS => .ok (.ofBool (sx < sy))
  | .ltU => .ok (.ofBool (x < y))
  | .leS => .ok (.ofBool (sx ≤ sy))
  | .leU => .ok (.ofBool (x ≤ y))
  | .gtS => .ok (.ofBool (sy < sx))
  | .gtU => .ok (.ofBool (y < x))
  | .geS => .ok (.ofBool (sy ≤ sx))
  | .geU => .ok (.ofBool (y ≤ x))

/-- An operation on integers of 64 bits. -/
def on64 (op : IntOp) (x y : UInt64) : Except Trap Value :=
  let sx := x.toInt64
  let sy := y.toInt64
  match op with
  | .add => .ok (.i64 (x + y))
  | .sub => .ok (.i64 (x - y))
  | .mul => .ok (.i64 (x * y))
  | .divS =>
    if y = 0 then .error (byZero .i64 op)
    else if sx = Int64.minValue && sy = -1 then .error (tooLarge .i64 op)
    else .ok (.i64 (sx / sy).toUInt64)
  | .divU => if y = 0 then .error (byZero .i64 op) else .ok (.i64 (x / y))
  | .remS =>
    if y = 0 then .error (byZero .i64 op)
    else if sy = -1 then .ok (.i64 0)
    else .ok (.i64 (sx % sy).toUInt64)
  | .remU => if y = 0 then .error (byZero .i64 op) else .ok (.i64 (x % y))
  | .and => .ok (.i64 (x &&& y))
  | .or => .ok (.i64 (x ||| y))
  | .xor => .ok (.i64 (x ^^^ y))
  | .shl => .ok (.i64 (x <<< (y &&& 63)))
  | .shrS => .ok (.i64 (sx >>> (y &&& 63).toInt64).toUInt64)
  | .shrU => .ok (.i64 (x >>> (y &&& 63)))
  | .eq => .ok (.ofBool (x == y))
  | .ne => .ok (.ofBool (x != y))
  | .ltS => .ok (.ofBool (sx < sy))
  | .ltU => .ok (.ofBool (x < y))
  | .leS => .ok (.ofBool (sx ≤ sy))
  | .leU => .ok (.ofBool (x ≤ y))
  | .gtS => .ok (.ofBool (sy < sx))
  | .gtU => .ok (.ofBool (y < x))
  | .geS => .ok (.ofBool (sy ≤ sx))
  | .geU => .ok (.ofBool (y ≤ x))

end IntOp

/-- An operation on two floating point numbers. -/
inductive FloatOp where
  | add
  | sub
  | mul
  | div
  | min
  | max
  | eq
  | ne
  | lt
  | le
  | gt
  | ge
  deriving Repr, DecidableEq, Inhabited

namespace FloatOp

/-- How an operation is written. -/
def name : FloatOp → Bytes
  | .add => "add"
  | .sub => "sub"
  | .mul => "mul"
  | .div => "div"
  | .min => "min"
  | .max => "max"
  | .eq => "eq"
  | .ne => "ne"
  | .lt => "lt"
  | .le => "le"
  | .gt => "gt"
  | .ge => "ge"

/-- All operations. -/
def all : List FloatOp :=
  [.add, .sub, .mul, .div, .min, .max, .eq, .ne, .lt, .le, .gt, .ge]

/-- The operation with a name. -/
def ofName? (s : Bytes) : Option FloatOp := all.find? (·.name == s)

/-- An operation on numbers of 64 bits: a number in bits, or a comparison. -/
def apply (op : FloatOp) (x y : UInt64) : UInt64 ⊕ Bool :=
  match op with
  | .add => .inl (Binary64.add x y)
  | .sub => .inl (Binary64.sub x y)
  | .mul => .inl (Binary64.mul x y)
  | .div => .inl (Binary64.div x y)
  | .min => .inl (Binary64.min x y)
  | .max => .inl (Binary64.max x y)
  | .eq => .inr (Binary64.eq x y)
  | .ne => .inr (!Binary64.eq x y)
  | .lt => .inr (Binary64.lt x y)
  | .le => .inr (Binary64.le x y)
  | .gt => .inr (Binary64.lt y x)
  | .ge => .inr (Binary64.le y x)

/-- An operation on numbers of 64 bits. -/
def on64 (op : FloatOp) (a b : Value) : Value :=
  match op.apply a.bits b.bits with
  | .inl bits => .f64 bits
  | .inr holds => .ofBool holds

/-- An operation on numbers of 32 bits, done in 64 bits and rounded. -/
def on32 (op : FloatOp) (a b : Value) : Value :=
  match op.apply a.single b.single with
  | .inl bits => .f32 (Binary64.toSingle bits)
  | .inr holds => .ofBool holds

end FloatOp

/-- The number of zero bits above the highest one, of `width` bits. -/
def leadingZeros (width n : Nat) : Nat := if n = 0 then width else width - 1 - Nat.log2 n

/-- The number of zero bits below the lowest one, of `width` bits. -/
def trailingZeros (width n : Nat) : Nat :=
  ((List.range width).find? fun i => n.testBit i).getD width

/-- The number of ones among `width` bits. -/
def bitCount (width n : Nat) : Nat := ((List.range width).filter fun i => n.testBit i).length

/-- An operation on one integer of `width` bits; the answer says whether it is a truth value. -/
def intUnary? (op : Bytes) (width n : Nat) : Option (Bool × Nat) :=
  if op == "eqz" then some (true, if n = 0 then 1 else 0)
  else if op == "clz" then some (false, leadingZeros width n)
  else if op == "ctz" then some (false, trailingZeros width n)
  else if op == "popcnt" then some (false, bitCount width n)
  else none

/-- An operation on one floating point number of 64 bits. -/
def floatUnary? (op : Bytes) (x : UInt64) : Option UInt64 :=
  if op == "neg" then some (Binary64.neg x)
  else if op == "abs" then some (Binary64.abs x)
  else if op == "sqrt" then some (Binary64.sqrt x)
  else if op == "floor" then some (Binary64.integral Binary64.downward x)
  else if op == "ceil" then some (Binary64.integral Binary64.upward x)
  else if op == "trunc" then some (Binary64.integral Binary64.towardZero x)
  else if op == "nearest" then some (Binary64.integral Binary64.toEven x)
  else none

/-- A floating point number as an integer of the type `kw`, towards zero. -/
def truncate (kw : Keyword) (signed : Bool) (x : UInt64) : Except Trap Value :=
  let shown := FloatStyle.message.write .double x.toNat
  let outside (range : Bytes) : Except Trap Value :=
    .error ⟨.overflow, shown ++ " out of " ++ range ++ " range", 0, []⟩
  match Binary64.toInt? x with
  | none => .error ⟨.overflow, "invalid conversion of " ++ shown ++ " to integer", 0, []⟩
  | some n =>
    if kw = .i32 then
      if signed then
        if -0x80000000 ≤ n && n < 0x80000000 then .ok (.i32 (UInt32.ofInt n)) else outside "i32"
      else if 0 ≤ n && n < 0x100000000 then .ok (.i32 (UInt32.ofInt n))
      else outside "u32"
    else if signed then
      if -0x8000000000000000 ≤ n && n < 0x8000000000000000 then .ok (.i64 (UInt64.ofInt n))
      else outside "i64"
    else if 0 ≤ n && n < 0x10000000000000000 then .ok (.i64 (UInt64.ofInt n))
    else outside "u64"

/-- An integer as a floating point number of the type `kw`. -/
def ofInteger (kw : Keyword) (n : Int) : Value :=
  if kw = .f32 then .f32 (Binary64.toSingle (Binary64.ofInt n)) else .f64 (Binary64.ofInt n)

/-- A conversion to the type `kw`. -/
def convert? (kw : Keyword) (op : Bytes) (a : Value) : Option (Except Trap Value) :=
  if op == "extend_s/i32" then some (.ok (.i64 a.signedWord.toInt64.toUInt64))
  else if op == "extend_u/i32" then some (.ok (.i64 a.word.toUInt64))
  else if op == "wrap/i64" then some (.ok (.i32 a.word))
  else if op == "promote/f32" then some (.ok (.f64 a.single))
  else if op == "demote/f64" then some (.ok (.f32 (Binary64.toSingle a.bits)))
  else if op == "convert_s/i32" then some (.ok (ofInteger kw a.signedWord.toInt))
  else if op == "convert_u/i32" then some (.ok (ofInteger kw a.word.toNat))
  else if op == "convert_s/i64" then some (.ok (ofInteger kw a.bits.toInt64.toInt))
  else if op == "convert_u/i64" then some (.ok (ofInteger kw a.bits.toNat))
  else if op == "trunc_s/f32" then some (truncate kw true a.single)
  else if op == "trunc_u/f32" then some (truncate kw false a.single)
  else if op == "trunc_s/f64" then some (truncate kw true a.bits)
  else if op == "trunc_u/f64" then some (truncate kw false a.bits)
  else none

/-- An operation of the type `kw` on one value. -/
def unary? (kw : Keyword) (op : Bytes) (a : Value) : Option (Except Trap Value) :=
  let own : Option Value :=
    match kw with
    | .i32 => (intUnary? op 32 a.word.toNat).map fun (_, n) => .i32 (UInt32.ofNat n)
    | .i64 =>
      (intUnary? op 64 a.bits.toNat).map fun (isTruth, n) =>
        if isTruth then .i32 (UInt32.ofNat n) else .i64 (UInt64.ofNat n)
    | .f32 => (floatUnary? op a.single).map fun b => .f32 (Binary64.toSingle b)
    | .f64 => (floatUnary? op a.bits).map .f64
    | .void => none
  match own with
  | some v => some (.ok v)
  | none => convert? kw op a

/-- An operation of the type `kw` on two values. -/
def binary? (kw : Keyword) (op : Bytes) (a b : Value) : Option (Except Trap Value) :=
  match kw with
  | .i32 => (IntOp.ofName? op).map fun o => o.on32 a.word b.word
  | .i64 => (IntOp.ofName? op).map fun o => o.on64 a.bits b.bits
  | .f32 => (FloatOp.ofName? op).map fun o => .ok (o.on32 a b)
  | .f64 => (FloatOp.ofName? op).map fun o => .ok (o.on64 a b)
  | .void => none

end WastForge
