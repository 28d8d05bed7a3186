import WastForge.Machine.Trap
import WastForge.Number.Binary64
import WastForge.Number.FloatText
import WastForge.Script.Module

/-!
# Values of the machine

A value is a type and 64 bits. Integers of 32 bits keep theirs in the low half.
-/

namespace WastForge

/-- A value. -/
structure Value where
  type : ValueType := .none
  bits : UInt64 := 0
  deriving Repr, DecidableEq, Inhabited

namespace Value

/-- No value. -/
def void : Value := {}

/-- An integer of 32 bits. -/
def i32 (n : UInt32) : Value := ⟨.i32, n.toUInt64⟩

/-- An integer of 64 bits. -/
def i64 (n : UInt64) : Value := ⟨.i64, n⟩

/-- A floating point number of 64 bits. -/
def f64 (bits : UInt64) : Value := ⟨.f64, bits⟩

/-- A floating point number of 32 bits. -/
def f32 (bits : UInt32) : Value := ⟨.f32, bits.toUInt64⟩

/-- A truth value. -/
def ofBool (b : Bool) : Value := i32 (if b then 1 else 0)

/-- Whether there is no value. -/
def isVoid (v : Value) : Bool := v.type = .none

/-- The value as an integer of 32 bits. -/
def word (v : Value) : UInt32 := v.bits.toUInt32

/-- The value as a signed integer of 32 bits. -/
def signedWord (v : Value) : Int32 := v.word.toInt32

/-- The value as a floating point number of 64 bits, where its bits have 32. -/
def single (v : Value) : UInt64 := Binary64.ofSingle v.word

/-- Whether a condition holds. -/
def isTrue (v : Value) : Bool := v.bits != 0

/-- How results show a value. -/
def text (v : Value) : Bytes :=
  match v.type with
  | .i32 => Bytes.ofInt v.signedWord.toInt
  | .i64 => Bytes.ofInt v.bits.toInt64.toInt
  | .f32 => FloatStyle.result.write .single v.word.toNat
  | .f64 => FloatStyle.result.write .double v.bits.toNat
  | .none | .other => []

/-- Read the value of a constant. -/
def ofConstant (kw : Keyword) (s : Bytes) : Except Trap Value :=
  let bad : Except Trap Value :=
    .error ⟨.badOperand, "bad " ++ kw.text ++ " constant " ++ Quoted.text s, 0, []⟩
  match kw with
  | .i32 =>
    match Radix.int64? s with
    | some n =>
      if -0x80000000 ≤ n && n < 0x100000000 then .ok (i32 (UInt32.ofInt n)) else bad
    | none => bad
  | .i64 =>
    match Radix.int64? s with
    | some n => .ok (i64 (UInt64.ofInt n))
    | none =>
      match Radix.uint64? s with
      | some n => .ok (i64 (UInt64.ofNat n))
      | none => bad
  | .f32 =>
    match FloatText.read? s with
    | some b => .ok (f32 (Binary64.toSingle (UInt64.ofNat b)))
    | none => bad
  | .f64 =>
    match FloatText.read? s with
    | some b => .ok (f64 (UInt64.ofNat b))
    | none => bad
  | .void => bad

end Value

end WastForge
