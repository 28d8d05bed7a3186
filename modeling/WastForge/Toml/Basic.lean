import WastForge.Text.Utf8

/-!
# Configuration values

A configuration is a table of values by their keys. Tables may stand in tables, so that a value is
found by following a path of keys. Where several tables are given under the same header, a path
leads on from the last of them.
-/

namespace WastForge

/-- A value of a configuration. -/
inductive TomlValue where
  | text (s : Bytes)
  | integer (n : Int)
  /-- A floating point number, by its bits. -/
  | real (bits : Nat)
  | truth (b : Bool)
  /-- A date, a time of day, or both. -/
  | moment (s : Bytes)
  | array (items : List TomlValue)
  | table (members : List (Bytes × TomlValue))
  /-- Tables that are given one after the other under the same header. -/
  | tables (list : List (List (Bytes × TomlValue)))
  deriving Inhabited

/-- Values by their keys. -/
abbrev TomlTable := List (Bytes × TomlValue)

/-- A path of keys. -/
abbrev TomlKey := List Bytes

namespace TomlKey

/-- Whether a byte may stand in a key without quotation marks. -/
def isBare (b : UInt8) : Bool :=
  Bytes.isDigit b || (65 ≤ b && b ≤ 90) || (97 ≤ b && b ≤ 122) || b == 45 || b == 95

/-- A byte between quotation marks. -/
def escape (b : UInt8) : Bytes :=
  if b == 34 then "\\\""
  else if b == 92 then "\\\\"
  else if b == 8 then "\\b"
  else if b == 9 then "\\t"
  else if b == 10 then "\\n"
  else if b == 12 then "\\f"
  else if b == 13 then "\\r"
  else if b < 32 || b == 127 then "\\u" ++ Bytes.ofHexNat 4 b.toNat
  else [b]

/-- A single key, with quotation marks if it needs them. -/
def part (s : Bytes) : Bytes :=
  if !s.isEmpty && s.all isBare then s else 34 :: s.flatMap escape ++ [34]

/-- A path with dots between its keys. -/
def written (k : TomlKey) : Bytes := Bytes.join "." (k.map part)

end TomlKey

/-- What is wrong with a configuration. -/
inductive TomlError where
  /-- The text is not UTF-8 or holds characters that may not stand in it. -/
  | badText
  | badKey
  | badValue
  /-- Something follows where a line should end. -/
  | badEnding
  | redefined (key : TomlKey)
  deriving Repr, DecidableEq, Inhabited

/-- The text of an error. -/
def TomlError.message : TomlError → Bytes
  | .badText => "invalid character"
  | .badKey => "invalid key"
  | .badValue => "invalid value"
  | .badEnding => "expected the end of the line"
  | .redefined key => "key " ++ TomlKey.written key ++ " has already been defined"

namespace TomlValue

/-- The table that a path leads on from. -/
def current? : TomlValue → Option TomlTable
  | .table m => some m
  | .tables l => l.getLast?
  | _ => none

/-- The value with another table to lead on from. -/
def withCurrent (v : TomlValue) (m : TomlTable) : TomlValue :=
  match v with
  | .tables l => .tables (l.dropLast ++ [m])
  | _ => .table m

end TomlValue

namespace TomlTable

/-- Give a key a value; a new key comes last. -/
def set (t : TomlTable) (k : Bytes) (v : TomlValue) : TomlTable :=
  if t.any (·.1 == k) then t.map fun (l, w) => if l == k then (l, v) else (l, w) else t ++ [(k, v)]

/-- The table at the end of a path. -/
def at? (t : TomlTable) : TomlKey → Option TomlTable
  | [] => some t
  | k :: path => ((t.lookup k).bind TomlValue.current?).bind (at? · path)

/-- Give a key of the table at the end of a path a value. -/
def setAt? (t : TomlTable) (k : Bytes) (v : TomlValue) : TomlKey → Option TomlTable
  | [] => some (set t k v)
  | l :: path => do
    let w ← t.lookup l
    return set t l (w.withCurrent (← setAt? (← w.current?) k v path))

end TomlTable

end WastForge
