import WastForge.Number.Radix

/-!
# Durations

A duration is spelt as numbers with units, such as `1h30m` or `-1.5s`, and counted in nanoseconds.
-/

namespace WastForge

/-- What is wrong with the text of a duration. -/
inductive DurationError where
  | invalid
  | missingUnit
  | unknownUnit (unit : Bytes)
  deriving Repr, DecidableEq, Inhabited

namespace Duration

/-- A text between quotation marks; whatever is not printable ASCII is written byte by byte. -/
def quoted (s : Bytes) : Bytes :=
  let shown (b : UInt8) : Bytes :=
    if b < 32 || 128 ≤ b then "\\x" ++ Bytes.hexByte b
    else if b == 34 || b == 92 then [92, b]
    else [b]
  34 :: s.flatMap shown ++ [34]

/-- The nanoseconds of each unit. -/
def units : List (Bytes × Nat) :=
  [("ns", 1), ("us", 1000), ("µs", 1000), ("μs", 1000), ("ms", 1000000), ("s", 1000000000),
   ("m", 60000000000), ("h", 3600000000000)]

/-- The greatest number of nanoseconds. -/
def limit : Nat := 0x8000000000000000

/-- The value of decimal digits. -/
def digitsValue (s : Bytes) : Nat := s.foldl (fun n b => 10 * n + (b.toNat - 48)) 0

/-- The nanoseconds of a number and its unit, and the text behind them. -/
def part (s : Bytes) : Except DurationError (Nat × Bytes) := do
  let whole := s.takeWhile Bytes.isDigit
  let s := s.drop whole.length
  let (fraction, s) :=
    match s with
    | 46 :: rest => (rest.takeWhile Bytes.isDigit, rest.dropWhile Bytes.isDigit)
    | s => ([], s)
  if (whole.isEmpty && fraction.isEmpty) || limit < digitsValue whole then throw .invalid
  let unit := s.takeWhile fun b => !(Bytes.isDigit b || b == 46)
  if unit.isEmpty then throw .missingUnit
  let some ns := units.lookup unit | throw (.unknownUnit unit)
  let n := digitsValue whole * ns + digitsValue fraction * ns / Nat.pow 10 fraction.length
  if limit < n then throw .invalid
  return (n, s.drop unit.length)

/-- Add the parts of a duration to `sum`; there are at most `fuel` of them. -/
def parts : Nat → Nat → Bytes → Except DurationError Nat
  | 0, sum, _ => .ok sum
  | fuel + 1, sum, s =>
    if s.isEmpty then .ok sum
    else
      match part s with
      | .error e => .error e
      | .ok (n, rest) => if limit < sum + n then .error .invalid else parts fuel (sum + n) rest

/-- Read a duration. -/
def read (s : Bytes) : Except DurationError Int := do
  let body := Radix.unsigned s
  if body == "0" then return 0
  if body.isEmpty then throw .invalid
  let n ← parts body.length 0 body
  if s.head? == some 45 then return -n
  if n = limit then throw .invalid
  return n

end Duration

/-- The text of an error in the duration `s`. -/
def DurationError.message (e : DurationError) (s : Bytes) : Bytes :=
  match e with
  | .invalid => "time: invalid duration " ++ Duration.quoted s
  | .missingUnit => "time: missing unit in duration " ++ Duration.quoted s
  | .unknownUnit unit =>
    "time: unknown unit " ++ Duration.quoted unit ++ " in duration " ++ Duration.quoted s

end WastForge
