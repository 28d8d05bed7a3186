import WastForge.Number.FloatText
import WastForge.Text.Quoted
import WastForge.Toml.Basic

/-!
# Texts, numbers and moments

How the values of a configuration are spelt that hold no other values. Each reader is given the
text from the value on and answers with the value and the text behind it.
-/

namespace WastForge.Toml

/-- A value and the text behind it. -/
abbrev Reading (α : Type) := Except TomlError (α × Bytes)

/-- Whether a byte is a blank within a line. -/
def isBlank (b : UInt8) : Bool := b == 32 || b == 9

/-- Whether a byte belongs to a line break. -/
def isBreak (b : UInt8) : Bool := b == 10 || b == 13

/-- The text behind blanks. -/
def skipBlanks (s : Bytes) : Bytes := s.dropWhile isBlank

/-- Whether a byte is a hexadecimal digit. -/
def isHexDigit (b : UInt8) : Bool := ((Radix.digitValue? b).filter (· < 16)).isSome

/-- The character whose number the first `n` digits give. -/
def numbered? (n : Nat) (s : Bytes) : Option Bytes :=
  let digits := s.take n
  if digits.length = n && digits.all isHexDigit then
    (Radix.natIn? 16 0x10FFFF digits).bind fun c =>
      if Quoted.isScalar c then some (Utf8.encode c) else none
  else none

/-- What stands behind a backslash: the text that is meant, and its length as it is written. -/
def escape : Bytes → Except TomlError (Bytes × Nat)
  | [] => .error .badValue
  | b :: rest =>
    let one (c : UInt8) : Except TomlError (Bytes × Nat) := .ok ([c], 1)
    let wide (n : Nat) : Except TomlError (Bytes × Nat) :=
      match numbered? n rest with
      | some c => .ok (c, n + 1)
      | none => .error .badValue
    if b == 98 then one 8
    else if b == 116 then one 9
    else if b == 110 then one 10
    else if b == 102 then one 12
    else if b == 114 then one 13
    else if b == 34 || b == 92 then one b
    else if b == 117 then wide 4
    else if b == 85 then wide 8
    else .error .badValue

/-- A reading with more text in front. -/
def behind (c : Bytes) (r : Reading Bytes) : Reading Bytes := r.map fun (s, rest) => (c ++ s, rest)

/-- A text up to its closing quotation mark; `skip` bytes belong to an escape that was read. -/
def basicFrom : Nat → Bytes → Reading Bytes
  | _, [] => .error .badValue
  | skip + 1, _ :: rest => basicFrom skip rest
  | 0, b :: rest =>
    if b == 34 then .ok ([], rest)
    else if isBreak b then .error .badValue
    else if b == 92 then
      match escape rest with
      | .ok (c, used) => behind c (basicFrom used rest)
      | .error e => .error e
    else behind [b] (basicFrom 0 rest)

/-- A text without escapes up to its closing mark. -/
def literalFrom : Bytes → Reading Bytes
  | [] => .error .badValue
  | b :: rest =>
    if b == 39 then .ok ([], rest)
    else if isBreak b then .error .badValue
    else behind [b] (literalFrom rest)

/-- What three marks in a row mean, when more text follows and the text `before` them is known, the
latest byte first: they close the text unless another mark follows, and then the first of them
belongs to the text. Six marks in a row are too many. -/
inductive Closing where
  | closed
  | inner
  | tooMany

/-- Decide what three marks mean. After an escaped mark one more is allowed. -/
def closing (mark : UInt8) (before after : Bytes) : Closing :=
  if after.head? != some mark then .closed
  else
    match before with
    | a :: b :: more =>
      if a == mark && b == mark && !(mark == 34 && more.head? == some 92) then .tooMany else .inner
    | _ => .inner

/-- A text of several lines up to its three closing quotation marks. A backslash at the end of a
line takes the line break with it, and all blanks up to the next word. -/
def basicLinesFrom : Nat → Bytes → Bytes → Reading Bytes
  | _, _, [] => .error .badValue
  | skip + 1, before, b :: rest => basicLinesFrom skip (b :: before) rest
  | 0, before, b :: rest =>
    let more (c : Bytes) (skip : Nat) := behind c (basicLinesFrom skip (b :: before) rest)
    if b == 34 then
      match rest with
      | 34 :: 34 :: after =>
        match closing 34 before after with
        | .closed => .ok ([], after)
        | .inner => more [b] 0
        | .tooMany => .error .badValue
      | _ => more [b] 0
    else if b == 92 then
      let gap := rest.takeWhile fun c => isBlank c || isBreak c
      if gap.contains 10 then more [] gap.length
      else
        match escape rest with
        | .ok (c, used) => more c used
        | .error e => .error e
    else more [b] 0

/-- A text of several lines without escapes up to its three closing marks. -/
def literalLinesFrom (before : Bytes) : Bytes → Reading Bytes
  | [] => .error .badValue
  | b :: rest =>
    let more := behind [b] (literalLinesFrom (b :: before) rest)
    if b == 39 then
      match rest with
      | 39 :: 39 :: after =>
        match closing 39 before after with
        | .closed => .ok ([], after)
        | .inner => more
        | .tooMany => .error .badValue
      | _ => more
    else more

/-- The text behind a line break, if it starts with one. -/
def dropBreak : Bytes → Bytes
  | 10 :: rest => rest
  | 13 :: 10 :: rest => rest
  | s => s

/-- A text between quotation marks of any kind, from the first mark on. -/
def text? : Bytes → Option (Reading Bytes)
  | 34 :: 34 :: 34 :: rest => some (basicLinesFrom 0 [] (dropBreak rest))
  | 34 :: rest => some (basicFrom 0 rest)
  | 39 :: 39 :: 39 :: rest => some (literalLinesFrom [] (dropBreak rest))
  | 39 :: rest => some (literalFrom rest)
  | _ => none

/-- A text between quotation marks on one line, from the first mark on. -/
def shortText? : Bytes → Option (Reading Bytes)
  | 34 :: rest => some (basicFrom 0 rest)
  | 39 :: rest => some (literalFrom rest)
  | _ => none

/-- Whether each underscore stands behind a digit and the last byte is a digit. -/
def marksOkFrom : Bool → Bytes → Bool
  | digit, [] => digit
  | digit, b :: rest => (b != 95 || digit) && marksOkFrom (isHexDigit b) rest

/-- Whether underscores stand between digits only. -/
def marksOk (s : Bytes) : Bool := marksOkFrom false s

/-- Whether a number starts with a zero that does not count. -/
def hasLeadingZero : Bytes → Bool
  | 48 :: b :: _ => b != 98 && b != 111 && b != 120
  | 43 :: 48 :: _ :: _ => true
  | 45 :: 48 :: _ :: _ => true
  | _ => false

/-- The value of an integer. -/
def integer? (s : Bytes) : Option TomlValue :=
  if marksOk s && !hasLeadingZero s then (Radix.int64? s).map .integer else none

/-- The parts of a number between points and exponent marks. -/
def numberParts (s : Bytes) : List Bytes :=
  let isMark (b : UInt8) : Bool := b == 46 || b == 101 || b == 69
  (Bytes.splitOn 46 (s.map fun b => if isMark b then 46 else b)).filter (!·.isEmpty)

/-- Whether a digit follows each point. -/
def pointsOk : Bytes → Bool
  | [] => true
  | b :: rest => (b != 46 || rest.head?.any Bytes.isDigit) && pointsOk rest

/-- The value of a floating point number in digits. -/
def real? (s : Bytes) : Option TomlValue :=
  let parts := numberParts s
  if parts.all marksOk && !parts.head?.any hasLeadingZero && pointsOk s then
    (FloatText.read? (s.filter (· != 95))).map .real
  else none

/-- A number of exactly `n` decimal digits from `least` to `most`. -/
def digits? (n least most : Nat) (s : Bytes) : Option (Nat × Bytes) :=
  let word := s.take n
  if word.length = n && word.all Bytes.isDigit then
    ((Radix.natIn? 10 most word).filter (least ≤ ·)).map (·, s.drop n)
  else none

/-- The number of days in a month. -/
def daysIn (year month : Nat) : Nat :=
  if month = 2 then
    if year % 4 = 0 && (year % 100 != 0 || year % 400 = 0) then 29 else 28
  else if [4, 6, 9, 11].contains month then 30
  else 31

/-- The text behind a date. -/
def date? (s : Bytes) : Option Bytes := do
  let (year, s) ← digits? 4 0 9999 s
  let (month, s) ← digits? 2 1 12 (← Bytes.after? "-" s)
  let (_, s) ← digits? 2 1 (daysIn year month) (← Bytes.after? "-" s)
  return s

/-- The text behind a fraction of a second, if there is one. -/
def skipFraction : Bytes → Bytes
  | 46 :: b :: rest => if Bytes.isDigit b then rest.dropWhile Bytes.isDigit else 46 :: b :: rest
  | s => s

/-- The text behind a time of day, whose hour may have a single digit. -/
def time? (s : Bytes) : Option Bytes := do
  let (_, s) ← digits? 2 0 23 s <|> digits? 1 0 9 s
  let (_, s) ← digits? 2 0 59 (← Bytes.after? ":" s)
  let (_, s) ← digits? 2 0 59 (← Bytes.after? ":" s)
  return skipFraction s

/-- The text behind an offset from universal time. -/
def offset? : Bytes → Option Bytes
  | [] => some []
  | b :: s =>
    if b == 90 then some s
    else if b == 43 || b == 45 then do
      let (_, s) ← digits? 2 0 24 s
      let (_, s) ← digits? 2 0 60 (← Bytes.after? ":" s)
      return s
    else none

/-- Whether a text is a date, a time of day, or both with or without an offset. -/
def isMoment (s : Bytes) : Bool :=
  match date? s with
  | some [] => true
  | some (84 :: rest) => ((time? rest).bind offset?) == some []
  | some _ => false
  | none => time? s == some []

/-- The value of a moment; a blank may divide date and time, and letters may be small. -/
def moment? (s : Bytes) : Option TomlValue :=
  let whole := (s.reverse.dropWhile (· == 32)).reverse
  let plain := whole.map fun b =>
    if b == 122 then 90 else if b == 116 || b == 32 then 84 else b
  if isMoment plain then some (.moment plain) else none

/-- The longest beginning with bytes of a set, and the text behind it. -/
def word (allowed : Bytes) (s : Bytes) : Bytes × Bytes :=
  let w := s.takeWhile fun b => Bytes.isDigit b || allowed.contains b
  (w, s.drop w.length)

/-- A value from the word that spells it. -/
def spelt (f : Bytes → Option TomlValue) (w : Bytes × Bytes) : Reading TomlValue :=
  match f w.1 with
  | some v => .ok (v, w.2)
  | none => .error .badValue

/-- A number in base ten behind its sign. -/
def decimal (sign s : Bytes) : Reading TomlValue :=
  let (w, rest) := word "_" s
  match rest with
  | b :: _ =>
    if b == 46 || b == 101 || b == 69 then
      let (w, rest) := word "_.-+eE" s
      spelt real? (sign ++ w, rest)
    else spelt integer? (sign ++ w, rest)
  | [] => spelt integer? (sign ++ w, rest)

/-- An integer in base two, eight or sixteen, whose first two bytes name the base. -/
def prefixed (isDigit : UInt8 → Bool) (s : Bytes) : Reading TomlValue :=
  let w := (s.drop 2).takeWhile fun b => isDigit b || b == 95
  if w.head?.any isDigit then spelt integer? (s.take 2 ++ w, s.drop (2 + w.length))
  else .error .badValue

/-- A number without sign, or a moment. A zero with no digit behind it begins no moment. -/
def numberOrMoment (s : Bytes) : Reading TomlValue :=
  match s with
  | 48 :: 98 :: _ => prefixed (fun b => b == 48 || b == 49) s
  | 48 :: 111 :: _ => prefixed (fun b => 48 ≤ b && b ≤ 55) s
  | 48 :: 120 :: _ => prefixed isHexDigit s
  | _ =>
    let isDivider (b : UInt8) : Bool := b == 45 || b == 58
    if s.takeWhile Bytes.isDigit != "0" && (s.dropWhile Bytes.isDigit).head?.any isDivider then
      spelt moment? (word "-:Tt .Zz+" s)
    else decimal [] s

/-- The bits of the named floating point numbers. -/
def namedReal? (s : Bytes) : Option (Nat × Bytes) :=
  match Bytes.after? "inf" s, Bytes.after? "nan" s with
  | some rest, _ => some (FloatText.infinityBits, rest)
  | none, some rest => some (FloatText.nanBits, rest)
  | none, none => none

/-- A value that holds no other values. -/
def scalar (s : Bytes) : Reading TomlValue :=
  match text? s with
  | some r => r.map fun (t, rest) => (.text t, rest)
  | none =>
    match s with
    | [] => .error .badValue
    | b :: rest =>
      if Bytes.isDigit b then numberOrMoment s
      else if b == 43 || b == 45 then
        match namedReal? rest with
        | some (bits, rest) =>
          .ok (.real (if b == 45 then bits + 0x8000000000000000 else bits), rest)
        | none =>
          match rest with
          | 48 :: c :: _ =>
            if c == 98 || c == 111 || c == 120 then .error .badValue else decimal [b] rest
          | c :: _ => if Bytes.isDigit c then decimal [b] rest else .error .badValue
          | [] => .error .badValue
      else
        match namedReal? s, Bytes.after? "true" s, Bytes.after? "false" s with
        | some (bits, rest), _, _ => .ok (.real bits, rest)
        | _, some rest, _ => .ok (.truth true, rest)
        | _, _, some rest => .ok (.truth false, rest)
        | _, _, _ => .error .badValue

end WastForge.Toml
