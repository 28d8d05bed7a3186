import WastForge.Bytes

/-!
# Reading integers

Integers are read in a fixed base or, when the text chooses the base, with one of the marks `0x`,
`0o`, `0b` or a leading `0`; in that case single underscores may stand between digits.
-/

namespace WastForge.Radix

/-- The value of a digit or letter, below thirty-six. -/
def digitValue? (b : UInt8) : Option Nat :=
  if 48 ≤ b && b ≤ 57 then some (b.toNat - 48)
  else if 97 ≤ b && b ≤ 122 then some (b.toNat - 87)
  else if 65 ≤ b && b ≤ 90 then some (b.toNat - 55)
  else none

/-- Read on from the value `acc` in base `base`; with `marks`, underscores are passed over. -/
def digits? (base : Nat) (marks : Bool) (acc : Nat) : Bytes → Option Nat
  | [] => some acc
  | b :: rest =>
    if marks && b == 95 then digits? base marks acc rest
    else
      match digitValue? b with
      | none => none
      | some d => if d < base then digits? base marks (acc * base + d) rest else none

/-- What the last byte was, while checking underscores. -/
inductive Last where
  | start
  | digit
  | underscore
  | other
  deriving DecidableEq

/-- Every underscore stands between two digits; with `hex`, `a…f` are digits too. -/
def underscoresFrom (hex : Bool) : Last → Bytes → Bool
  | last, [] => last != .underscore
  | last, b :: rest =>
    if Bytes.isDigit b || (hex && ((97 ≤ b && b ≤ 102) || (65 ≤ b && b ≤ 70))) then
      underscoresFrom hex .digit rest
    else if b == 95 then last == .digit && underscoresFrom hex .underscore rest
    else last != .underscore && underscoresFrom hex .other rest

/-- The text without a leading sign. -/
def unsigned : Bytes → Bytes
  | [] => []
  | b :: rest => if b == 43 || b == 45 then rest else b :: rest

/-- Underscores stand only between digits, or between a base mark and a digit. -/
def underscoresOk (s : Bytes) : Bool :=
  match unsigned s with
  | 48 :: b :: rest =>
    if b == 98 || b == 66 || b == 111 || b == 79 then underscoresFrom false .digit rest
    else if b == 120 || b == 88 then underscoresFrom true .digit rest
    else underscoresFrom false .start (48 :: b :: rest)
  | t => underscoresFrom false .start t

/-- The base that a text without sign chooses, and its digits. -/
def chosenBase : Bytes → Nat × Bytes
  | 48 :: b :: c :: rest =>
    if b == 98 || b == 66 then (2, c :: rest)
    else if b == 111 || b == 79 then (8, c :: rest)
    else if b == 120 || b == 88 then (16, c :: rest)
    else (8, b :: c :: rest)
  | 48 :: rest => (8, rest)
  | s => (10, s)

/-- A natural number of at most `limit`, in base `base`. -/
def natIn? (base limit : Nat) (s : Bytes) : Option Nat :=
  if s.isEmpty then none
  else (digits? base false 0 s).filter (· ≤ limit)

/-- A natural number of at most `limit`, in the base that the text chooses. -/
def nat? (limit : Nat) (s : Bytes) : Option Nat :=
  if s.isEmpty then none
  else
    let (base, ds) := chosenBase s
    match digits? base true 0 ds with
    | none => none
    | some n => if n ≤ limit && (!ds.contains 95 || underscoresOk s) then some n else none

/-- The largest natural number of 64 bits. -/
def maxWord : Nat := 0xFFFFFFFFFFFFFFFF

/-- A 64-bit integer with an optional sign, whose digits `read` reads. -/
def signed? (read : Bytes → Option Nat) : Bytes → Option Int
  | [] => none
  | b :: rest =>
    if b == 45 then
      (read rest).bind fun n => if n ≤ 0x8000000000000000 then some (-(n : Int)) else none
    else
      (read (if b == 43 then rest else b :: rest)).bind fun n =>
        if n < 0x8000000000000000 then some (n : Int) else none

/-- A 64-bit integer in the base that the text chooses. -/
def int64? (s : Bytes) : Option Int := signed? (nat? maxWord) s

/-- A 64-bit integer in base ten. -/
def decimal64? (s : Bytes) : Option Int := signed? (natIn? 10 maxWord) s

/-- A 64-bit natural number in the base that the text chooses. -/
def uint64? (s : Bytes) : Option Nat := nat? maxWord s

/-- Whether a text that is no 64-bit integer fails to be one because of its size: the digits that
can be read already are too many, or the sign leaves no room. -/
def isTooLarge (s : Bytes) : Bool :=
  let (base, ds) := chosenBase (unsigned s)
  let good := ds.takeWhile fun b => b == 95 || ((digitValue? b).filter (· < base)).isSome
  maxWord < (digits? base true 0 good).getD 0 || (nat? maxWord (unsigned s)).isSome

end WastForge.Radix
