import WastForge.Number.Radix
import WastForge.Number.Shortest

/-!
# Floating point text

How floating point numbers are written in constants, in results and in messages, and how the text
of a constant is read. All numbers are given and returned as their bits.
-/

namespace WastForge

/-- How a floating point number is spelt. -/
structure FloatStyle where
  nan : Bytes
  infinity : Bytes
  negativeInfinity : Bytes
  /-- Which finite numbers `m · 2 ^ q` are written positionally whatever their exponent. -/
  positional : Nat → Int → Bool

namespace FloatStyle

/-- Constants of the module text. -/
def constant : FloatStyle := ⟨"nan", "infinity", "-infinity", fun _ _ => false⟩

/-- Whether `m · 2 ^ q` is zero or lies between `10 ^ -5` and `10 ^ 21`, the latter excluded. -/
def moderate (m : Nat) (q : Int) : Bool :=
  let num := m * Nat.pow 2 q.toNat
  let den := Nat.pow 2 (-q).toNat
  m == 0
    || (den ≤ num * 100000 && num < 1000000000000000000000 * den)

/-- Results: positional from `1e-5` up to `1e21`, and zero. -/
def result : FloatStyle := ⟨"nan", "infinity", "-infinity", moderate⟩

/-- Messages. -/
def message : FloatStyle := ⟨"NaN", "+Inf", "-Inf", fun _ _ => false⟩

/-- Write the number with the given bits. -/
def write (style : FloatStyle) (f : BinaryFormat) (bits : Nat) : Bytes :=
  match Parts.ofBits f bits with
  | .nan => style.nan
  | .infinite negative => if negative then style.negativeInfinity else style.infinity
  | .finite negative m q =>
    let d := Decimal.shortest f m q
    let digits := if style.positional m q then d.positional else d.general
    if negative then 45 :: digits else digits

end FloatStyle

/-- A non-negative number with a fixed number of decimal places, a half going to even. -/
def fixedPlaces (places : Nat) (num den : Nat) : Bytes :=
  let unit := Nat.pow 10 places
  let n := Parts.roundDiv (num * unit) den
  let whole := Bytes.ofNat (n / unit)
  if places == 0 then whole
  else whole ++ "." ++ Bytes.padLeft places 48 (Bytes.ofNat (n % unit))

/-- The number of 64 bits with a fixed number of decimal places. -/
def fixedFloat (places : Nat) (bits : Nat) : Bytes :=
  match Parts.ofBits .double bits with
  | .nan => "NaN"
  | .infinite negative => if negative then "-Inf" else "+Inf"
  | .finite negative m q =>
    let text := fixedPlaces places (m * Nat.pow 2 q.toNat) (Nat.pow 2 (-q).toNat)
    if negative then 45 :: text else text

namespace FloatText

/-- The digits of a number text: their value, how many stand behind the point, and the rest. -/
structure Mantissa where
  value : Nat
  places : Nat
  sawDigit : Bool
  sawPoint : Bool
  rest : Bytes

/-- Read digits in base `base` with at most one point; underscores are passed over. -/
def mantissa (base : Nat) : Mantissa → Bytes → Mantissa
  | acc, [] => { acc with rest := [] }
  | acc, b :: rest =>
    if b == 95 then mantissa base acc rest
    else if b == 46 then
      if acc.sawPoint then { acc with rest := b :: rest }
      else mantissa base { acc with sawPoint := true } rest
    else
      match (Radix.digitValue? b).filter (· < base) with
      | none => { acc with rest := b :: rest }
      | some d =>
        mantissa base
          { acc with
            value := acc.value * base + d
            places := if acc.sawPoint then acc.places + 1 else acc.places
            sawDigit := true }
          rest

/-- Read the digits of an exponent; beyond ten thousand further digits no longer count. -/
def exponentDigits : Nat → Bytes → Nat × Bytes
  | e, [] => (e, [])
  | e, b :: rest =>
    if b == 95 then exponentDigits e rest
    else if Bytes.isDigit b then
      exponentDigits (if e < 10000 then e * 10 + (b.toNat - 48) else e) rest
    else (e, b :: rest)

/-- Read an exponent behind its mark. -/
def exponent? (s : Bytes) : Option (Int × Bytes) :=
  let (negative, t) :=
    match s with
    | 43 :: t => (false, t)
    | 45 :: t => (true, t)
    | t => (false, t)
  match t with
  | b :: _ =>
    if Bytes.isDigit b then
      let (e, rest) := exponentDigits 0 t
      some (if negative then -(e : Int) else e, rest)
    else none
  | [] => none

/-- Whether a text is one of the names of infinity. -/
def isInfinity (s : Bytes) : Bool := s.lower == "inf" || s.lower == "infinity"

/-- `value · base ^ e` as a ratio of natural numbers, where a power far outside of the range of the
format is cut short. -/
def ratio (value base : Nat) (e : Int) : Nat × Nat :=
  match e with
  | .ofNat k => (value * Nat.pow base k, 1)
  | .negSucc k => (value, Nat.pow base (k + 1))

/-- A finite number without sign: the value rounded to 64 bits. -/
def finite? (negative : Bool) (s : Bytes) : Option Nat :=
  let (base, t) :=
    match s with
    | 48 :: b :: c :: rest => if b == 120 || b == 88 then (16, c :: rest) else (10, s)
    | _ => (10, s)
  let m := mantissa base ⟨0, 0, false, false, []⟩ t
  if !m.sawDigit then none
  else
    let tail? : Option (Int × Bytes) :=
      match m.rest with
      | b :: rest =>
        if (base == 10 && (b == 101 || b == 69)) || (base == 16 && (b == 112 || b == 80)) then
          exponent? rest
        else if base == 16 then none
        else some (0, b :: rest)
      | [] => if base == 16 then none else some (0, [])
    match tail? with
    | none => none
    | some (e, rest) =>
      if !rest.isEmpty || (s.contains 95 && !Radix.underscoresOk s) then none
      else if m.value == 0 then Parts.round? .double negative 0 1
      else if base == 16 then
        let shift := e - 4 * (m.places : Int)
        let size := (Nat.log2 m.value : Int) + shift
        if 1100 < size then none
        else if size < -1200 then Parts.round? .double negative 0 1
        else
          let (num, den) := ratio m.value 2 shift
          Parts.round? .double negative num den
      else
        let shift := e - (m.places : Int)
        let point := ((Nat.toDigits 10 m.value).length : Int) + shift
        if 310 < point then none
        else if point < -330 then Parts.round? .double negative 0 1
        else
          let (num, den) := ratio m.value 10 shift
          Parts.round? .double negative num den

/-- The bits of positive infinity. -/
def infinityBits : Nat := 0x7FF0000000000000

/-- The bits that the name of no number is read as. -/
def nanBits : Nat := 0x7FF8000000000001

/-- Read a floating point number of 64 bits. A number too large for the format is refused. -/
def read? (s : Bytes) : Option Nat :=
  if s.lower == "nan" then some nanBits
  else
    let (negative, t) :=
      match s with
      | 43 :: t => (false, t)
      | 45 :: t => (true, t)
      | t => (false, t)
    if isInfinity t then some (if negative then infinityBits + 0x8000000000000000 else infinityBits)
    else finite? negative t

end FloatText

end WastForge
