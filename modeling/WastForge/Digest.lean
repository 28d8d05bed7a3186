import WastForge.Document.Pack

/-!
# Digests

The SHA-256 digest of a text. Cached modules are found by the digest of the document that they
were made from.
-/

namespace WastForge

/-- A digest of thirty-two bytes. -/
structure Digest where
  bytes : Bytes
  deriving Repr, DecidableEq, Inhabited

/-- The eight words that a digest is made from. -/
structure DigestState where
  a : UInt32
  b : UInt32
  c : UInt32
  d : UInt32
  e : UInt32
  f : UInt32
  g : UInt32
  h : UInt32
  deriving Repr, DecidableEq, Inhabited

namespace DigestState

/-- The words before anything was taken in. -/
def initial : DigestState :=
  ⟨0x6a09e667, 0xbb67ae85, 0x3c6ef372, 0xa54ff53a, 0x510e527f, 0x9b05688c, 0x1f83d9ab, 0x5be0cd19⟩

/-- The constant of each round. -/
def constants : List UInt32 :=
  [0x428a2f98, 0x71374491, 0xb5c0fbcf, 0xe9b5dba5, 0x3956c25b, 0x59f111f1, 0x923f82a4, 0xab1c5ed5,
   0xd807aa98, 0x12835b01, 0x243185be, 0x550c7dc3, 0x72be5d74, 0x80deb1fe, 0x9bdc06a7, 0xc19bf174,
   0xe49b69c1, 0xefbe4786, 0x0fc19dc6, 0x240ca1cc, 0x2de92c6f, 0x4a7484aa, 0x5cb0a9dc, 0x76f988da,
   0x983e5152, 0xa831c66d, 0xb00327c8, 0xbf597fc7, 0xc6e00bf3, 0xd5a79147, 0x06ca6351, 0x14292967,
   0x27b70a85, 0x2e1b2138, 0x4d2c6dfc, 0x53380d13, 0x650a7354, 0x766a0abb, 0x81c2c92e, 0x92722c85,
   0xa2bfe8a1, 0xa81a664b, 0xc24b8b70, 0xc76c51a3, 0xd192e819, 0xd6990624, 0xf40e3585, 0x106aa070,
   0x19a4c116, 0x1e376c08, 0x2748774c, 0x34b0bcb5, 0x391c0cb3, 0x4ed8aa4a, 0x5b9cca4f, 0x682e6ff3,
   0x748f82ee, 0x78a5636f, 0x84c87814, 0x8cc70208, 0x90befffa, 0xa4506ceb, 0xbef9a3f7, 0xc67178f2]

/-- Rotate a word to the right. -/
def rotate (x n : UInt32) : UInt32 := (x >>> n) ||| (x <<< (32 - n))

/-- Mix the words in a round; `k` is the constant of the round and `w` its word of the message. -/
def round (s : DigestState) (k w : UInt32) : DigestState :=
  let spread := rotate s.e 6 ^^^ rotate s.e 11 ^^^ rotate s.e 25
  let chosen := (s.e &&& s.f) ^^^ ((s.e ^^^ 0xffffffff) &&& s.g)
  let first := s.h + spread + chosen + k + w
  let majority := (s.a &&& s.b) ^^^ (s.a &&& s.c) ^^^ (s.b &&& s.c)
  let second := (rotate s.a 2 ^^^ rotate s.a 13 ^^^ rotate s.a 22) + majority
  ⟨first + second, s.a, s.b, s.c, s.d + first, s.e, s.f, s.g⟩

/-- The word that follows sixteen others. -/
def nextWord : List UInt32 → UInt32
  | [w0, w1, _, _, _, _, _, _, _, w9, _, _, _, _, w14, _] =>
    w0 + (rotate w1 7 ^^^ rotate w1 18 ^^^ (w1 >>> 3)) + w9
      + (rotate w14 17 ^^^ rotate w14 19 ^^^ (w14 >>> 10))
  | _ => 0

/-- Do a round with the first of sixteen words, and go on to the words behind it. -/
def advance (s : DigestState × List UInt32) (k : UInt32) : DigestState × List UInt32 :=
  (s.1.round k (s.2.headD 0), s.2.tail ++ [nextWord s.2])

/-- Take in a block of sixteen words. -/
def absorb (s : DigestState) (block : List UInt32) : DigestState :=
  let t := (constants.foldl advance (s, block)).1
  ⟨s.a + t.a, s.b + t.b, s.c + t.c, s.d + t.d, s.e + t.e, s.f + t.f, s.g + t.g, s.h + t.h⟩

/-- Take in a word; the words that do not make a block yet wait. -/
def push (s : DigestState × List UInt32) (w : UInt32) : DigestState × List UInt32 :=
  if s.2.length = 15 then (s.1.absorb (s.2 ++ [w]), []) else (s.1, s.2 ++ [w])

/-- The words as the bytes of a digest. -/
def finish (s : DigestState) : Digest :=
  ⟨[s.a, s.b, s.c, s.d, s.e, s.f, s.g, s.h].flatMap fun w => Pack.bigEndian 4 w.toNat⟩

end DigestState

namespace Digest

/-- The words that bytes make up, four bytes to a word. -/
def words : Bytes → List UInt32
  | a :: b :: c :: d :: rest => UInt32.ofNat (Pack.ofBigEndian [a, b, c, d]) :: words rest
  | _ => []

/-- What stands behind a message so that it fills blocks: a mark, zeros and its length in bits. -/
def padding (length : Nat) : Bytes :=
  let zeros : Bytes := List.replicate ((119 - length % 64) % 64) 0
  0x80 :: zeros ++ Pack.bigEndian 8 (8 * length)

/-- The digest of a text. -/
def ofBytes (s : Bytes) : Digest :=
  ((words (s ++ padding s.length)).foldl DigestState.push (.initial, [])).1.finish

/-- A digest salted with others. -/
def combine (content : Digest) (salts : List Digest) : Digest :=
  ofBytes (content.bytes ++ salts.flatMap (·.bytes))

/-- A digest as hexadecimal digits. -/
def text (d : Digest) : Bytes := d.bytes.hex

end Digest

end WastForge
