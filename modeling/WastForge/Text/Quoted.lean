import WastForge.Text.Utf8
import WastForge.Text.Printable

/-!
# Quoted texts

A text between quotation marks, with everything that is not printable written as an escape.
-/

namespace WastForge.Quoted

/-- A code point inside the quotation marks `mark`. -/
def escapePoint (mark : UInt8) (c : Nat) : Bytes :=
  if c == mark.toNat || c == 92 then 92 :: Utf8.encode c
  else if Printable.isPrintable c then Utf8.encode c
  else if c == 7 then "\\a"
  else if c == 8 then "\\b"
  else if c == 12 then "\\f"
  else if c == 10 then "\\n"
  else if c == 13 then "\\r"
  else if c == 9 then "\\t"
  else if c == 11 then "\\v"
  else if c < 32 || c == 127 then "\\x" ++ Bytes.ofHexNat 2 c
  else if c < 0x10000 then "\\u" ++ Bytes.ofHexNat 4 c
  else "\\U" ++ Bytes.ofHexNat 8 c

/-- One unit of the text inside the quotation marks `mark`. -/
def escape (mark : UInt8) : Rune → Bytes
  | .point c => escapePoint mark c
  | .stray b => "\\x" ++ Bytes.hexByte b

/-- A text between double quotation marks. -/
def text (s : Bytes) : Bytes :=
  34 :: (Utf8.runes s).flatMap (escape 34) ++ [34]

/-- Whether a code point can be written in UTF-8. -/
def isScalar (c : Int) : Bool :=
  (0 ≤ c && c < 0xD800) || (0xE000 ≤ c && c ≤ 0x10FFFF)

/-- A character between single quotation marks; what is no code point shows as `U+FFFD`. -/
def char (c : Int) : Bytes :=
  39 :: escapePoint 39 (if isScalar c then c.toNat else 0xFFFD) ++ [39]

end WastForge.Quoted
