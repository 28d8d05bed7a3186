import WastForge.Bytes

/-!
# Edit distance

How many bytes have to be added, removed or replaced to turn one text into another.
-/

namespace WastForge.EditDistance

/-- The rest of a row of the table, given the entry to the left and the one above that. -/
def rowFrom (a : UInt8) : Nat → Nat → Bytes → List Nat → List Nat
  | left, corner, b :: t, above :: row =>
    let d := if a == b then corner else 1 + min (min left above) corner
    d :: rowFrom a d above t row
  | _, _, _, _ => []

/-- The distances to all beginnings of `t` after one more byte, from those before. -/
def nextRow (t : Bytes) (row : List Nat) (a : UInt8) : List Nat :=
  match row with
  | [] => []
  | d :: rest => (d + 1) :: rowFrom a (d + 1) d t rest

/-- The distance between two texts. -/
def between (s t : Bytes) : Nat :=
  ((s.foldl (nextRow t) (List.range (t.length + 1))).getLast?).getD 0

end WastForge.EditDistance
