import WastForge.Number.Binary

/-!
# Shortest decimal digits

The fewest decimal digits that are nearer to a floating point number than to its neighbours, found
by trying one digit, two digits, and so on with exact arithmetic.
-/

namespace WastForge

/-- The decimal number `0.d₁d₂…dₙ · 10 ^ point`. -/
structure Decimal where
  digits : Bytes
  point : Int
  deriving Repr, DecidableEq, Inhabited

namespace Decimal

/-- `m · 2 ^ q` compared on a grid of step `10 ^ e`: both sides are scaled to natural numbers. The
first is the factor of the binary side, the second of the decimal side. -/
def factors (q e : Int) : Nat × Nat :=
  (Nat.pow 2 q.toNat * Nat.pow 10 (-e).toNat, Nat.pow 2 (-q).toNat * Nat.pow 10 e.toNat)

/-- How many decimal digits the whole part of `m · 2 ^ q` has; negative when zeros follow the
decimal point. -/
def magnitude (m : Nat) (q : Int) : Int :=
  let (a, b) := factors q (-340)
  ((Nat.toDigits 10 (m * a / b)).length : Int) - 340

/-- The neighbour of `m · 2 ^ q` on the grid of step `10 ^ e` that reads back as it, if any. -/
def onGrid? (f : BinaryFormat) (m : Nat) (q e : Int) : Option Nat :=
  let (a, b) := factors (q - 2) e
  let isLeast := m == Nat.pow 2 (f.precision - 1) && f.minExponent < q
  let low := (if isLeast then 4 * m - 1 else 4 * m - 2) * a
  let value := 4 * m * a
  let high := (4 * m + 2) * a
  let inside (c : Nat) : Bool :=
    if m % 2 == 0 then low ≤ c * b && c * b ≤ high else low < c * b && c * b < high
  let c := value / b
  let below := value % b
  let up := if 2 * below < b then false else if b < 2 * below then true else c % 2 == 1
  let (first, second) := if up then (c + 1, c) else (c, c + 1)
  if inside first then some first else if inside second then some second else none

/-- Try `n`, `n + 1`, … digits, `fuel` times. -/
def search (f : BinaryFormat) (m : Nat) (q k : Int) : Nat → Nat → Nat × Int
  | 0, n => (m, n)
  | fuel + 1, n =>
    match onGrid? f m q (k - n) with
    | some c => (c, k - n)
    | none => search f m q k fuel (n + 1)

/-- Drop trailing zeros. -/
def dropZeros (ds : Bytes) : Bytes := (ds.reverse.dropWhile (· == 48)).reverse

/-- The decimal `c · 10 ^ e` without trailing zeros. -/
def ofGrid (c : Nat) (e : Int) : Decimal :=
  ⟨dropZeros (Bytes.ofNat c), e + (Bytes.ofNat c).length⟩

/-- The shortest decimal that reads back as `m · 2 ^ q`. -/
def shortest (f : BinaryFormat) (m : Nat) (q : Int) : Decimal :=
  if m == 0 then ⟨[], 0⟩
  else
    let found := search f m q (magnitude m q) 20 1
    ofGrid found.1 found.2

/-- Digits up to position `n`, filled with zeros. -/
def padded (ds : Bytes) (n : Nat) : Bytes := ds ++ List.replicate (n - ds.length) 48

/-- Positional notation with every digit and no others. -/
def positional (d : Decimal) : Bytes :=
  let whole : Bytes :=
    if d.point ≤ 0 then "0" else padded (d.digits.take d.point.toNat) d.point.toNat
  let places := ((d.digits.length : Int) - d.point).toNat
  if places == 0 then whole
  else
    let zeros := List.replicate (-d.point).toNat (48 : UInt8)
    whole ++ "." ++ zeros ++ d.digits.drop d.point.toNat

/-- Scientific notation; the exponent has a sign and at least two digits. -/
def scientific (d : Decimal) : Bytes :=
  let exponent : Int := if d.digits.isEmpty then 0 else d.point - 1
  let lead := padded (d.digits.take 1) 1
  let fraction : Bytes := if d.digits.length ≤ 1 then [] else "." ++ d.digits.drop 1
  let sign : Bytes := if exponent < 0 then "-" else "+"
  lead ++ fraction ++ "e" ++ sign ++ Bytes.padLeft 2 48 (Bytes.ofNat exponent.natAbs)

/-- Positional notation for exponents from -4 to 5, scientific notation otherwise. -/
def general (d : Decimal) : Bytes :=
  let exponent := d.point - 1
  if exponent < -4 || 6 ≤ exponent then d.scientific else d.positional

end Decimal

end WastForge
