import WastForge.Text.Utf8

/-!
# Widths on a terminal

How many columns a text takes. Most characters take one column, those of East Asian scripts and
most pictures take two, and marks and controls take none. What is shown as one sign has the width
of the first of its characters that has one.
-/

namespace WastForge.Width

/-- A list of ranges of code points. -/
abbrev Ranges := List (Nat × Nat)

/-- Whether a code point is in one of the ranges. -/
def Ranges.has (r : Ranges) (c : Nat) : Bool := r.any fun (a, b) => a ≤ c && c ≤ b

/-- Code points that are not shown. -/
def controls : Ranges :=
  [(0x0, 0x1F), (0x7F, 0x9F), (0xAD, 0xAD), (0x70F, 0x70F), (0x180B, 0x180E), (0x200B, 0x200F),
   (0x2028, 0x202E), (0x206A, 0x206F), (0xD800, 0xDFFF), (0xFEFF, 0xFEFF), (0xFFF9, 0xFFFB),
   (0xFFFE, 0xFFFF)]

/-- Marks that stand on the character before them. -/
def marks : Ranges :=
  [(0x300, 0x36F), (0x483, 0x487), (0x7EB, 0x7F3), (0xC00, 0xC00), (0xC04, 0xC04), (0xCF3, 0xCF3),
   (0xD00, 0xD01), (0x135D, 0x135F), (0x180B, 0x180D), (0x180F, 0x180F), (0x1A7F, 0x1A7F),
   (0x1AB0, 0x1ACE), (0x1B6B, 0x1B73), (0x1DC0, 0x1DFF), (0x20D0, 0x20F0), (0x2CEF, 0x2CF1),
   (0x2DE0, 0x2DFF), (0x3099, 0x309A), (0xA66F, 0xA672), (0xA674, 0xA67D), (0xA69E, 0xA69F),
   (0xA6F0, 0xA6F1), (0xA8E0, 0xA8F1), (0xFE00, 0xFE0F), (0xFE20, 0xFE2F), (0x101FD, 0x101FD),
   (0x10376, 0x1037A), (0x10EAB, 0x10EAC), (0x10F46, 0x10F50), (0x10F82, 0x10F85),
   (0x11300, 0x11301), (0x1133B, 0x1133C), (0x11366, 0x1136C), (0x11370, 0x11374),
   (0x16AF0, 0x16AF4), (0x1CF00, 0x1CF2D), (0x1CF30, 0x1CF46), (0x1D165, 0x1D169),
   (0x1D16D, 0x1D172), (0x1D17B, 0x1D182), (0x1D185, 0x1D18B), (0x1D1AA, 0x1D1AD),
   (0x1D242, 0x1D244), (0x1E000, 0x1E006), (0x1E008, 0x1E018), (0x1E01B, 0x1E021),
   (0x1E023, 0x1E024), (0x1E026, 0x1E02A), (0x1E08F, 0x1E08F), (0x1E8D0, 0x1E8D6)]

/-- Code points that take two columns. -/
def wide : Ranges :=
  [(0x1100, 0x115F), (0x231A, 0x231B), (0x2329, 0x232A), (0x23E9, 0x23EC), (0x23F0, 0x23F0),
   (0x23F3, 0x23F3), (0x25FD, 0x25FE), (0x2614, 0x2615), (0x2630, 0x2637), (0x2648, 0x2653),
   (0x267F, 0x267F), (0x268A, 0x268F), (0x2693, 0x2693), (0x26A1, 0x26A1), (0x26AA, 0x26AB),
   (0x26BD, 0x26BE), (0x26C4, 0x26C5), (0x26CE, 0x26CE), (0x26D4, 0x26D4), (0x26EA, 0x26EA),
   (0x26F2, 0x26F3), (0x26F5, 0x26F5), (0x26FA, 0x26FA), (0x26FD, 0x26FD), (0x2705, 0x2705),
   (0x270A, 0x270B), (0x2728, 0x2728), (0x274C, 0x274C), (0x274E, 0x274E), (0x2753, 0x2755),
   (0x2757, 0x2757), (0x2795, 0x2797), (0x27B0, 0x27B0), (0x27BF, 0x27BF), (0x2B1B, 0x2B1C),
   (0x2B50, 0x2B50), (0x2B55, 0x2B55), (0x2E80, 0x2E99), (0x2E9B, 0x2EF3), (0x2F00, 0x2FD5),
   (0x2FF0, 0x303E), (0x3041, 0x3096), (0x3099, 0x30FF), (0x3105, 0x312F), (0x3131, 0x318E),
   (0x3190, 0x31E5), (0x31EF, 0x321E), (0x3220, 0x3247), (0x3250, 0xA48C), (0xA490, 0xA4C6),
   (0xA960, 0xA97C), (0xAC00, 0xD7A3), (0xF900, 0xFAFF), (0xFE10, 0xFE19), (0xFE30, 0xFE52),
   (0xFE54, 0xFE66), (0xFE68, 0xFE6B), (0xFF01, 0xFF60), (0xFFE0, 0xFFE6), (0x16FE0, 0x16FE4),
   (0x16FF0, 0x16FF1), (0x17000, 0x187F7), (0x18800, 0x18CD5), (0x18CFF, 0x18D08),
   (0x1AFF0, 0x1AFF3), (0x1AFF5, 0x1AFFB), (0x1AFFD, 0x1AFFE), (0x1B000, 0x1B122),
   (0x1B132, 0x1B132), (0x1B150, 0x1B152), (0x1B155, 0x1B155), (0x1B164, 0x1B167),
   (0x1B170, 0x1B2FB), (0x1D300, 0x1D356), (0x1D360, 0x1D376), (0x1F004, 0x1F004),
   (0x1F0CF, 0x1F0CF), (0x1F18E, 0x1F18E), (0x1F191, 0x1F19A), (0x1F200, 0x1F202),
   (0x1F210, 0x1F23B), (0x1F240, 0x1F248), (0x1F250, 0x1F251), (0x1F260, 0x1F265),
   (0x1F300, 0x1F320), (0x1F32D, 0x1F335), (0x1F337, 0x1F37C), (0x1F37E, 0x1F393),
   (0x1F3A0, 0x1F3CA), (0x1F3CF, 0x1F3D3), (0x1F3E0, 0x1F3F0), (0x1F3F4, 0x1F3F4),
   (0x1F3F8, 0x1F43E), (0x1F440, 0x1F440), (0x1F442, 0x1F4FC), (0x1F4FF, 0x1F53D),
   (0x1F54B, 0x1F54E), (0x1F550, 0x1F567), (0x1F57A, 0x1F57A), (0x1F595, 0x1F596),
   (0x1F5A4, 0x1F5A4), (0x1F5FB, 0x1F64F), (0x1F680, 0x1F6C5), (0x1F6CC, 0x1F6CC),
   (0x1F6D0, 0x1F6D2), (0x1F6D5, 0x1F6D7), (0x1F6DC, 0x1F6DF), (0x1F6EB, 0x1F6EC),
   (0x1F6F4, 0x1F6FC), (0x1F7E0, 0x1F7EB), (0x1F7F0, 0x1F7F0), (0x1F90C, 0x1F93A),
   (0x1F93C, 0x1F945), (0x1F947, 0x1F9FF), (0x1FA70, 0x1FA7C), (0x1FA80, 0x1FA89),
   (0x1FA8F, 0x1FAC6), (0x1FACE, 0x1FADC), (0x1FADF, 0x1FAE9), (0x1FAF0, 0x1FAF8),
   (0x20000, 0x2FFFD), (0x30000, 0x3FFFD)]

/-- The columns of a code point. -/
def ofPoint (c : Nat) : Nat :=
  if c < 0x20 || (0x7F ≤ c && c ≤ 0x9F) || c = 0xAD then 0
  else if c < 0x300 then 1
  else if controls.has c || marks.has c then 0
  else if wide.has c then 2
  else 1

/-- The code point by which a unit is shown; a stray byte is shown as a replacement character. -/
def point : Rune → Nat
  | .point c => c
  | .stray _ => 0xFFFD

/-- Whether a code point goes on with the sign before it. -/
def continuesSign (c : Nat) : Bool :=
  marks.has c || c = 0x200C || c = 0x200D || (0x1F3FB ≤ c && c ≤ 0x1F3FF)
    || (0xE0020 ≤ c && c ≤ 0xE007F) || (0xE0100 ≤ c && c ≤ 0xE01EF)

/-- Whether a code point is one of the letters of which two make a flag. -/
def isFlagLetter (c : Nat) : Bool := 0x1F1E6 ≤ c && c ≤ 0x1F1FF

/-- Whether a code point is a picture that a joiner may bind to another one. -/
def isPicture (c : Nat) : Bool :=
  c = 0xA9 || c = 0xAE || (0x203C ≤ c && c ≤ 0x3299 && c ≠ 0x200D && !(0x2E80 ≤ c && c ≤ 0x302F))
    || (0x1F000 ≤ c && c ≤ 0x1FAFF && !isFlagLetter c && !(0x1F3FB ≤ c && c ≤ 0x1F3FF))

/-- Whether two parts of a Korean syllable belong together. -/
def joinsHangul (a b : Nat) : Bool :=
  let lead (c : Nat) : Bool := 0x1100 ≤ c && c ≤ 0x115F
  let vowel (c : Nat) : Bool := 0x1160 ≤ c && c ≤ 0x11A7
  let tail (c : Nat) : Bool := 0x11A8 ≤ c && c ≤ 0x11FF
  let syllable (c : Nat) : Bool := 0xAC00 ≤ c && c ≤ 0xD7A3
  let open' (c : Nat) : Bool := syllable c && (c - 0xAC00) % 28 = 0
  (lead a && (lead b || vowel b || syllable b)) || ((open' a || vowel a) && (vowel b || tail b))
    || ((syllable a || tail a) && tail b)

/-- The sign that is being read: its units in reverse and how many flag letters it has. -/
structure Sign where
  rev : List Rune := []
  flagLetters : Nat := 0

/-- Whether a unit belongs to the sign before it. -/
def Sign.takes (s : Sign) (r : Rune) : Bool :=
  match s.rev with
  | [] => true
  | last :: before =>
    let a := point last
    let b := point r
    if a = 13 && b = 10 then true
    else if a < 0x20 || b < 0x20 || (0x7F ≤ a && a ≤ 0x9F) || (0x7F ≤ b && b ≤ 0x9F) then false
    else
      let joined := (before.dropWhile fun r => continuesSign (point r)).head?
      continuesSign b || joinsHangul a b
        || (isFlagLetter a && isFlagLetter b && s.flagLetters % 2 = 1)
        || (a = 0x200D && isPicture b && joined.any fun r => isPicture (point r))

/-- A text cut into signs. -/
def signsFrom (s : Sign) : List Rune → List (List Rune)
  | [] => if s.rev.isEmpty then [] else [s.rev.reverse]
  | r :: rest =>
    let letter := if isFlagLetter (point r) then 1 else 0
    if s.takes r then signsFrom ⟨r :: s.rev, s.flagLetters + letter⟩ rest
    else s.rev.reverse :: signsFrom ⟨[r], letter⟩ rest

/-- The signs of a text. -/
def signs (s : Bytes) : List (List Rune) := signsFrom {} (Utf8.runes s)

/-- The columns of a sign. -/
def ofSign (g : List Rune) : Nat :=
  ((g.map fun r => ofPoint (point r)).find? (0 < ·)).getD 0

/-- The columns of a text. -/
def ofText (s : Bytes) : Nat := (signs s).foldl (fun n g => n + ofSign g) 0

/-- The bytes of a sign. -/
def signBytes (g : List Rune) : Bytes :=
  g.flatMap fun
    | .point c => Utf8.encode c
    | .stray b => [b]

/-- The signs from the start that fit into some columns. -/
def fitting : Nat → List (List Rune) → List (List Rune)
  | _, [] => []
  | width, g :: rest => if ofSign g ≤ width then g :: fitting (width - ofSign g) rest else []

/-- A text cut to some columns, with three dots at its end if it is cut. -/
def truncate (s : Bytes) (width : Nat) : Bytes :=
  if width = 0 || ofText s ≤ width then s
  else if width ≤ 3 then (fitting width (signs s)).flatMap signBytes
  else (fitting (width - 3) (signs s)).flatMap signBytes ++ "..."

end WastForge.Width
