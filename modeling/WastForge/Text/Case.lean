import WastForge.Bytes

/-!
# Small letters

Names are compared without regard to case. Outside of ASCII a few letters have counterparts inside
of it, and these count too.
-/

namespace WastForge.Case

/-- The Kelvin sign. -/
def kelvin : Bytes := [0xe2, 0x84, 0xaa]

/-- A text in small letters, as far as these are ASCII. The dotted capital i and the Kelvin sign
have small letters in ASCII. -/
def lower (s : Bytes) : Bytes := (Bytes.replace kelvin "k" (Bytes.replace [0xc4, 0xb0] "i" s)).lower

/-- A text with all letters that differ in case only made equal, as far as they have an ASCII
counterpart. The long s and the Kelvin sign have one. -/
def fold (s : Bytes) : Bytes := (Bytes.replace kelvin "k" (Bytes.replace [0xc5, 0xbf] "s" s)).lower

end WastForge.Case
