/-!
# Byte strings

Every name, path and text of the library is a list of bytes: module text may hold any byte, and a
name read from a document need not be valid UTF-8. A string literal stands for its UTF-8 bytes.
-/

namespace WastForge

/-- A text as the bytes it is made of. -/
abbrev Bytes := List UInt8

namespace Bytes

/-- The UTF-8 bytes of a string. -/
def ofString (s : String) : Bytes := s.toByteArray.data.toList

instance : Coe String Bytes := ⟨ofString⟩

/-- The byte of an ASCII character. -/
def ofChar (c : Char) : UInt8 := UInt8.ofNat c.toNat

/-- The digit of `d`, in the lower-case alphabet `0…9a…z`. -/
def digit (d : Nat) : UInt8 :=
  if d < 10 then UInt8.ofNat (48 + d) else UInt8.ofNat (87 + d)

/-- A natural number in base ten, without leading zeros. -/
def ofNat (n : Nat) : Bytes := (Nat.toDigits 10 n).map ofChar

/-- An integer in base ten, with a minus sign when it is negative. -/
def ofInt (n : Int) : Bytes :=
  match n with
  | .ofNat k => ofNat k
  | .negSucc k => 45 :: ofNat (k + 1)

/-- Fill `s` on the left with `fill` up to `width` bytes. -/
def padLeft (width : Nat) (fill : UInt8) (s : Bytes) : Bytes :=
  List.replicate (width - s.length) fill ++ s

/-- Fill `s` on the right with blanks up to `width` bytes. -/
def padRight (width : Nat) (s : Bytes) : Bytes :=
  s ++ List.replicate (width - s.length) 32

/-- The two lower-case hexadecimal digits of a byte. -/
def hexByte (b : UInt8) : Bytes := [digit (b.toNat / 16), digit (b.toNat % 16)]

/-- Every byte as two hexadecimal digits. -/
def hex (s : Bytes) : Bytes := s.flatMap hexByte

/-- The value of a hexadecimal digit, in either case. -/
def hexValue (d : UInt8) : Nat :=
  if d ≤ 57 then d.toNat - 48 else if d ≤ 70 then d.toNat - 55 else d.toNat - 87

/-- The bytes that pairs of hexadecimal digits stand for. -/
def ofHex : Bytes → Bytes
  | a :: b :: rest => UInt8.ofNat (16 * hexValue a + hexValue b) :: ofHex rest
  | _ => []

/-- A number in base sixteen, at least `width` digits long. -/
def ofHexNat (width n : Nat) : Bytes := padLeft width 48 ((Nat.toDigits 16 n).map ofChar)

/-- The parts with `sep` between them. -/
def join (sep : Bytes) (parts : List Bytes) : Bytes := List.intercalate sep parts

/-- What follows `start` in `s`, when `s` begins with it. -/
def after? (start s : Bytes) : Option Bytes :=
  if start.isPrefixOf s then some (s.drop start.length) else none

/-- `s` without `ending`, when `s` ends with it. -/
def before? (ending s : Bytes) : Option Bytes :=
  if ending.isSuffixOf s then some (s.take (s.length - ending.length)) else none

/-- The parts of `s` between the bytes equal to `sep`; a text without `sep` is one part. -/
def splitOn (sep : UInt8) : Bytes → List Bytes
  | [] => [[]]
  | b :: rest =>
    match splitOn sep rest with
    | [] => [[b]]
    | part :: parts => if b == sep then [] :: part :: parts else (b :: part) :: parts

/-- The text up to the first `sep` and the text behind it. -/
def cut? (sep : UInt8) : Bytes → Option (Bytes × Bytes)
  | [] => none
  | b :: rest =>
    if b == sep then some ([], rest)
    else (cut? sep rest).map fun (front, back) => (b :: front, back)

/-- The position of the first occurrence of `needle` in `s`. -/
def find? (needle : Bytes) : Bytes → Option Nat
  | [] => if needle.isEmpty then some 0 else none
  | b :: rest =>
    if needle.isPrefixOf (b :: rest) then some 0 else (find? needle rest).map (· + 1)

/-- Whether `needle` occurs in `s`. -/
def holds (s needle : Bytes) : Bool := (find? needle s).isSome

/-- Replace every occurrence of `old`, from left to right; `skip` counts the bytes of an
occurrence that are still to be passed over. -/
def replaceFrom (old new : Bytes) : Nat → Bytes → Bytes
  | _, [] => []
  | skip + 1, _ :: rest => replaceFrom old new skip rest
  | 0, b :: rest =>
    if old.isPrefixOf (b :: rest) then new ++ replaceFrom old new (old.length - 1) rest
    else b :: replaceFrom old new 0 rest

/-- Replace every occurrence of the non-empty `old` by `new`. -/
def replace (old new s : Bytes) : Bytes :=
  if old.isEmpty then s else replaceFrom old new 0 s

/-- ASCII letters in lower case. -/
def lower (s : Bytes) : Bytes := s.map fun b => if 65 ≤ b && b ≤ 90 then b + 32 else b

/-- ASCII letters in upper case. -/
def upper (s : Bytes) : Bytes := s.map fun b => if 97 ≤ b && b ≤ 122 then b - 32 else b

/-- Byte-wise dictionary order, as a test for sorting. -/
def le (a b : Bytes) : Bool := !decide (b < a)

/-- Sort texts by their bytes. -/
def sort (l : List Bytes) : List Bytes := l.mergeSort le

/-- Whether a byte is an ASCII decimal digit. -/
def isDigit (b : UInt8) : Bool := 48 ≤ b && b ≤ 57

end Bytes

end WastForge
