import WastForge.Bytes

/-!
# Binary floating point numbers

The two formats of floating point constants, taken apart and put together with exact arithmetic
on natural numbers. A finite number is `m · 2 ^ q` with a sign.
-/

namespace WastForge

/-- A binary floating point format. -/
structure BinaryFormat where
  /-- Bits of the significand, the leading one included. -/
  precision : Nat
  /-- The exponent `q` of the least numbers. -/
  minExponent : Int
  /-- The exponent `q` of the greatest numbers. -/
  maxExponent : Int
  /-- Bits of the stored exponent. -/
  exponentBits : Nat

namespace BinaryFormat

/-- The format of 64 bits. -/
def double : BinaryFormat := ⟨53, -1074, 971, 11⟩

/-- The format of 32 bits. -/
def single : BinaryFormat := ⟨24, -149, 104, 8⟩

end BinaryFormat

/-- A floating point number taken apart. -/
inductive Parts where
  | nan
  | infinite (negative : Bool)
  | finite (negative : Bool) (mantissa : Nat) (exponent : Int)
  deriving Repr, DecidableEq, Inhabited

namespace Parts

/-- Take the bits of a number apart. -/
def ofBits (f : BinaryFormat) (bits : Nat) : Parts :=
  let stored := f.precision - 1
  let fraction := bits % Nat.pow 2 stored
  let exponent := bits / Nat.pow 2 stored % Nat.pow 2 f.exponentBits
  let negative := bits / Nat.pow 2 (stored + f.exponentBits) % 2 == 1
  if exponent == Nat.pow 2 f.exponentBits - 1 then
    if fraction == 0 then .infinite negative else .nan
  else if exponent == 0 then .finite negative fraction f.minExponent
  else .finite negative (Nat.pow 2 stored + fraction) (f.minExponent + (exponent : Int) - 1)

/-- The nearest natural number to `num / den`, a half going to the even neighbour. -/
def roundDiv (num den : Nat) : Nat :=
  let q := num / den
  let twice := 2 * (num % den)
  if twice < den then q else if den < twice then q + 1 else q + q % 2

/-- `num / den · 2 ^ (-q)`, rounded to a natural number. -/
def scaled (num den : Nat) (q : Int) : Nat :=
  match q with
  | .ofNat k => roundDiv num (den * Nat.pow 2 k)
  | .negSucc k => roundDiv (num * Nat.pow 2 (k + 1)) den

/-- The bits of the number nearest to `num / den`, or nothing if it is too large. -/
def round? (f : BinaryFormat) (negative : Bool) (num den : Nat) : Option Nat :=
  let stored := f.precision - 1
  let sign := if negative then Nat.pow 2 (stored + f.exponentBits) else 0
  if num == 0 then some sign
  else
    -- `num / den` lies between `2 ^ (top - 1)` and `2 ^ (top + 1)`.
    let top : Int := (Nat.log2 num : Int) - (Nat.log2 den : Int)
    let guess : Int := max f.minExponent (top - (f.precision : Int))
    let m := scaled num den guess
    let q : Int := if Nat.pow 2 f.precision ≤ m then guess + 1 else guess
    let m := if q == guess then m else scaled num den q
    let (m, q) := if m == Nat.pow 2 f.precision then (m / 2, q + 1) else (m, q)
    if f.maxExponent < q then none
    else
      let unit := Nat.pow 2 stored
      if m < unit then some (sign + m)
      else some (sign + ((q - f.minExponent).toNat + 1) * unit + (m - unit))

end Parts

end WastForge
