import WastForge.Bytes

/-!
# UTF-8

Reading a byte string as a sequence of characters. A byte that does not start a well-formed
sequence stands for itself and is read on its own, so that reading never fails and loses nothing.
-/

namespace WastForge

/-- One unit of a text read as UTF-8. -/
inductive Rune where
  /-- A code point. -/
  | point (code : Nat)
  /-- A byte that is not part of a well-formed sequence. -/
  | stray (byte : UInt8)
  deriving Repr, DecidableEq, Inhabited

namespace Utf8

/-- The bytes of a code point below `0x110000`. -/
def encode (c : Nat) : Bytes :=
  if c < 0x80 then [UInt8.ofNat c]
  else if c < 0x800 then [UInt8.ofNat (0xC0 + c / 64), UInt8.ofNat (0x80 + c % 64)]
  else if c < 0x10000 then
    [UInt8.ofNat (0xE0 + c / 4096), UInt8.ofNat (0x80 + c / 64 % 64), UInt8.ofNat (0x80 + c % 64)]
  else
    [UInt8.ofNat (0xF0 + c / 262144), UInt8.ofNat (0x80 + c / 4096 % 64),
     UInt8.ofNat (0x80 + c / 64 % 64), UInt8.ofNat (0x80 + c % 64)]

/-- Whether a byte continues a sequence. -/
def isTail (b : UInt8) : Bool := 0x80 ≤ b && b ≤ 0xBF

/-- The least and greatest second byte that may follow `b`; this excludes overlong sequences,
surrogates and code points above `0x10FFFF`. -/
def secondRange (b : UInt8) : UInt8 × UInt8 :=
  if b == 0xE0 then (0xA0, 0xBF)
  else if b == 0xED then (0x80, 0x9F)
  else if b == 0xF0 then (0x90, 0xBF)
  else if b == 0xF4 then (0x80, 0x8F)
  else (0x80, 0xBF)

/-- Whether `c` may follow the leading byte `b`. -/
def second (b c : UInt8) : Bool := (secondRange b).1 ≤ c && c ≤ (secondRange b).2

/-- The low six bits of a continuing byte. -/
def payload (b : UInt8) : Nat := b.toNat % 64

/-- The unit that starts with `b`, and how many of the following bytes belong to it. -/
def unit (b : UInt8) (rest : Bytes) : Rune × Nat :=
  if b < 0x80 then (.point b.toNat, 0)
  else if 0xC2 ≤ b && b ≤ 0xDF then
    match rest with
    | c :: _ => if second b c then (.point (b.toNat % 32 * 64 + payload c), 1) else (.stray b, 0)
    | _ => (.stray b, 0)
  else if 0xE0 ≤ b && b ≤ 0xEF then
    match rest with
    | c :: d :: _ =>
      if second b c && isTail d then
        (.point (b.toNat % 16 * 4096 + payload c * 64 + payload d), 2)
      else (.stray b, 0)
    | _ => (.stray b, 0)
  else if 0xF0 ≤ b && b ≤ 0xF4 then
    match rest with
    | c :: d :: e :: _ =>
      if second b c && isTail d && isTail e then
        (.point (b.toNat % 8 * 262144 + payload c * 4096 + payload d * 64 + payload e), 3)
      else (.stray b, 0)
    | _ => (.stray b, 0)
  else (.stray b, 0)

/-- The units of a text, after `skip` bytes that belong to an earlier unit. -/
def runesFrom : Nat → Bytes → List Rune
  | _, [] => []
  | skip + 1, _ :: rest => runesFrom skip rest
  | 0, b :: rest => (unit b rest).1 :: runesFrom (unit b rest).2 rest

/-- The units of a text from left to right. -/
def runes (s : Bytes) : List Rune := runesFrom 0 s

/-- Whether a text is valid UTF-8. -/
def isValid (s : Bytes) : Bool :=
  (runes s).all fun
    | .point _ => true
    | .stray _ => false

/-- Whether a code point is a blank: the ASCII blanks, next line, no-break space and the
blanks of the general punctuation and ideographic blocks. -/
def isBlank (c : Nat) : Bool :=
  (9 ≤ c && c ≤ 13) || c == 32 || c == 0x85 || c == 0xA0 || c == 0x1680
    || (0x2000 ≤ c && c ≤ 0x200A) || c == 0x2028 || c == 0x2029 || c == 0x202F || c == 0x205F
    || c == 0x3000

/-- The bytes of a unit as it stands in the text. -/
def bytesOf : Rune → Bytes
  | .point c => encode c
  | .stray b => [b]

/-- The text without the blanks around it. -/
def trim (s : Bytes) : Bytes :=
  let blank : Rune → Bool := fun
    | .point c => isBlank c
    | .stray _ => false
  let inner := (((runes s).dropWhile blank).reverse.dropWhile blank).reverse
  inner.flatMap bytesOf

end Utf8

/-!
## Latin-1

One byte per character, for the code points below 256.
-/

namespace Latin1

/-- The Latin-1 bytes of a text, if every character has one. -/
def encode? (s : Bytes) : Option Bytes :=
  (Utf8.runes s).mapM fun
    | .point c => if c < 256 then some (UInt8.ofNat c) else none
    | .stray _ => none

/-- The text whose characters have the given bytes as code points. -/
def decode (raw : Bytes) : Bytes := raw.flatMap fun b => Utf8.encode b.toNat

end Latin1

end WastForge
