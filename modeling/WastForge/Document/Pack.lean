import WastForge.Bytes

/-!
# Packed values

The binary encoding that documents are written in: numbers, texts, lists and maps with a leading
byte that tells them apart. Numbers are written in the width of their field; on reading, any
encoding of a number is taken and cut to the width of the field, and nothing stands for zero.
-/

namespace WastForge.Pack

/-- The `n` low bytes of a number, the highest first. -/
def bigEndian : Nat → Nat → Bytes
  | 0, _ => []
  | n + 1, v => bigEndian n (v / 256) ++ [UInt8.ofNat v]

/-- The number with the given bytes, the highest first. -/
def ofBigEndian (b : Bytes) : Nat := b.foldl (fun n d => n * 256 + d.toNat) 0

/-! ## Writing -/

/-- Nothing. -/
def nil : Bytes := [0xC0]

/-- A truth value. -/
def bool (b : Bool) : Bytes := [if b then 0xC3 else 0xC2]

/-- A number of eight bits. -/
def u8 (n : UInt8) : Bytes := 0xCC :: bigEndian 1 n.toNat

/-- A number of sixteen bits. -/
def u16 (n : UInt16) : Bytes := 0xCD :: bigEndian 2 n.toNat

/-- A number of thirty-two bits. -/
def u32 (n : UInt32) : Bytes := 0xCE :: bigEndian 4 n.toNat

/-- A signed number of thirty-two bits. -/
def i32 (n : Int32) : Bytes := 0xD2 :: bigEndian 4 n.toUInt32.toNat

/-- A signed number of sixty-four bits. -/
def i64 (n : Int64) : Bytes := 0xD3 :: bigEndian 8 n.toUInt64.toNat

/-- A floating point number by its bits. -/
def double (bits : UInt64) : Bytes := 0xCB :: bigEndian 8 bits.toNat

/-- A length in front of a text, in the shortest form. -/
def textHeader (n : Nat) : Bytes :=
  if n < 32 then [UInt8.ofNat (0xA0 + n)]
  else if n < 256 then 0xD9 :: bigEndian 1 n
  else if n < 65536 then 0xDA :: bigEndian 2 n
  else 0xDB :: bigEndian 4 n

/-- A text. -/
def text (s : Bytes) : Bytes := textHeader s.length ++ s

/-- Bytes that are no text, behind their length in the shortest form. -/
def blob (s : Bytes) : Bytes :=
  let n := s.length
  let header : Bytes :=
    if n < 256 then 0xC4 :: bigEndian 1 n
    else if n < 65536 then 0xC5 :: bigEndian 2 n
    else 0xC6 :: bigEndian 4 n
  header ++ s

/-- A length in front of a list, in the shortest form. -/
def arrayHeader (n : Nat) : Bytes :=
  if n < 16 then [UInt8.ofNat (0x90 + n)]
  else if n < 65536 then 0xDC :: bigEndian 2 n
  else 0xDD :: bigEndian 4 n

/-- A length in front of a map, in the shortest form. -/
def mapHeader (n : Nat) : Bytes :=
  if n < 16 then [UInt8.ofNat (0x80 + n)]
  else if n < 65536 then 0xDE :: bigEndian 2 n
  else 0xDF :: bigEndian 4 n

/-- A list of written elements. -/
def array (parts : List Bytes) : Bytes := arrayHeader parts.length ++ parts.flatten

/-- A list that may be left out. -/
def rows {α : Type} (f : α → Bytes) : Option (List α) → Bytes
  | none => nil
  | some l => array (l.map f)

/-- A value that may be left out. -/
def optional {α : Type} (f : α → Bytes) : Option α → Bytes
  | none => nil
  | some a => f a

/-- A record: a map from the names of its fields to their written values. -/
def record (fields : List (Bytes × Bytes)) : Bytes :=
  mapHeader fields.length ++ fields.flatMap fun (name, value) => text name ++ value

/-! ## Reading -/

/-- Why a document cannot be read. -/
inductive Error where
  /-- The bytes end early, or something else stands where a value is wanted. -/
  | malformed
  /-- A node with a wrong number of parts. -/
  | nodeLength (what : Bytes) (parts : Nat)
  /-- A node of an unknown kind, whose place is known. -/
  | unknownKind (what : Bytes) (kind file line col : Nat)
  deriving Repr, DecidableEq

/-- A reader takes bytes off the front. -/
abbrev Reader := StateT Bytes (Except Error)

/-- Give up. -/
def malformed {α : Type} : Reader α := throw .malformed

/-- The next byte. -/
def byte : Reader UInt8 := do
  match ← get with
  | [] => malformed
  | b :: rest => set rest; return b

/-- Whether `s` has at least `n` bytes. -/
def longEnough : Nat → Bytes → Bool
  | 0, _ => true
  | _ + 1, [] => false
  | n + 1, _ :: rest => longEnough n rest

/-- The next `n` bytes. -/
def take (n : Nat) : Reader Bytes := do
  let s ← get
  if longEnough n s then set (s.drop n); return s.take n else malformed

/-- The next `n` bytes as a number. -/
def number (n : Nat) : Reader Nat := return ofBigEndian (← take n)

/-- What a leading byte and the length or number behind it announce. -/
inductive Head where
  | nil
  | bool (b : Bool)
  | int (n : Int)
  | single (bits : Nat)
  | double (bits : Nat)
  | text (length : Nat)
  | array (length : Nat)
  | map (length : Nat)
  | extension (length : Nat)
  deriving Repr, DecidableEq

/-- A number of `n` bytes in two's complement. -/
def signed (n v : Nat) : Int :=
  if v < Nat.pow 2 (8 * n - 1) then v else (v : Int) - (Nat.pow 2 (8 * n) : Nat)

/-- Read a leading byte and what belongs to it. -/
def head : Reader Head := do
  let c := (← byte).toNat
  if c < 0x80 then return .int c
  else if c < 0x90 then return .map (c - 0x80)
  else if c < 0xA0 then return .array (c - 0x90)
  else if c < 0xC0 then return .text (c - 0xA0)
  else if 0xE0 ≤ c then return .int ((c : Int) - 256)
  else
    match c with
    | 0xC0 => return .nil
    | 0xC2 => return .bool false
    | 0xC3 => return .bool true
    | 0xC4 | 0xD9 => return .text (← number 1)
    | 0xC5 | 0xDA => return .text (← number 2)
    | 0xC6 | 0xDB => return .text (← number 4)
    | 0xC7 => return .extension (← number 1)
    | 0xC8 => return .extension (← number 2)
    | 0xC9 => return .extension (← number 4)
    | 0xCA => return .single (← number 4)
    | 0xCB => return .double (← number 8)
    | 0xCC => return .int (← number 1)
    | 0xCD => return .int (← number 2)
    | 0xCE => return .int (← number 4)
    | 0xCF => return .int (← number 8)
    | 0xD0 => return .int (signed 1 (← number 1))
    | 0xD1 => return .int (signed 2 (← number 2))
    | 0xD2 => return .int (signed 4 (← number 4))
    | 0xD3 => return .int (signed 8 (← number 8))
    | 0xD4 => return .extension 1
    | 0xD5 => return .extension 2
    | 0xD6 => return .extension 4
    | 0xD7 => return .extension 8
    | 0xD8 => return .extension 16
    | 0xDC => return .array (← number 2)
    | 0xDD => return .array (← number 4)
    | 0xDE => return .map (← number 2)
    | 0xDF => return .map (← number 4)
    | _ => malformed

/-- An integer in any encoding; nothing is zero. -/
def readInt : Reader Int := do
  match ← head with
  | .nil => return 0
  | .int n => return n
  | _ => malformed

/-- An integer, cut to the width of its field. -/
def readU8 : Reader UInt8 := return UInt8.ofInt (← readInt)

@[inherit_doc readU8]
def readU16 : Reader UInt16 := return UInt16.ofInt (← readInt)

@[inherit_doc readU8]
def readU32 : Reader UInt32 := return UInt32.ofInt (← readInt)

@[inherit_doc readU8]
def readI32 : Reader Int32 := return Int32.ofInt (← readInt)

@[inherit_doc readU8]
def readI64 : Reader Int64 := return Int64.ofInt (← readInt)

/-- A truth value; nothing is false. -/
def readBool : Reader Bool := do
  match ← head with
  | .nil => return false
  | .bool b => return b
  | _ => malformed

/-- The 64-bit form of a 32-bit floating point number. -/
def widen (bits : UInt32) : UInt64 :=
  let sign : UInt64 := (bits >>> 31).toUInt64 <<< 63
  let exponent : UInt64 := ((bits >>> 23) &&& 0xFF).toUInt64
  let fraction : UInt64 := (bits &&& 0x7FFFFF).toUInt64
  let build (e f : UInt64) : UInt64 := sign + (e <<< 52) + (f <<< 29)
  if exponent == 0xFF then
    -- No number becomes a quiet one.
    if fraction == 0 then build 0x7FF 0 else build 0x7FF (fraction ||| 0x400000)
  else if exponent == 0 then
    if fraction == 0 then sign
    else
      -- A number below the normal range: shift its leading one into place.
      let shift : UInt64 := UInt64.ofNat (23 - Nat.log2 fraction.toNat)
      build (897 - shift) ((fraction <<< shift) &&& 0x7FFFFF)
  else build (exponent + 896) fraction

/-- A floating point number in any encoding, as the bits of its 64-bit form. -/
def readDouble : Reader UInt64 := do
  match ← head with
  | .nil => return 0
  | .single bits => return widen (UInt32.ofNat bits)
  | .double bits => return UInt64.ofNat bits
  | .int n => return (Int64.ofInt n).toFloat.toBits
  | _ => malformed

/-- A text; nothing is the empty text. -/
def readText : Reader Bytes := do
  match ← head with
  | .nil => return []
  | .text n => take n
  | _ => malformed

/-- Pass over `pending` values; `fuel` bounds how many heads are read. -/
def skip : Nat → Nat → Reader Unit
  | _, 0 => return ()
  | 0, _ + 1 => malformed
  | fuel + 1, pending + 1 => do
    match ← head with
    | .text n => discard (take n); skip fuel pending
    | .extension n => discard (take (n + 1)); skip fuel pending
    | .array n => skip fuel (pending + n)
    | .map n => skip fuel (pending + 2 * n)
    | _ => skip fuel pending

/-- Pass over one value. -/
def skipValue : Reader Unit := do skip ((← get).length + 1) 1

/-! ## Reading over an earlier value

A record may name a field twice. The later value is read over the earlier one: a record keeps the
fields that are not named again, and the elements of a list are read over those that had their
places before.
-/

/-- A reader of a value over the one that was read in its place before. -/
abbrev Update (α : Type) := α → Reader α

/-- The fields of a record: their names, and how each is read into the record. -/
abbrev Fields (α : Type) := List (Bytes × Update α)

/-- Read `n` named fields into a record; unknown names are passed over. -/
def entries {α : Type} (fields : Fields α) : Nat → Update α
  | 0, r => return r
  | n + 1, r => do
    let name ← readText
    match fields.lookup name with
    | some update => entries fields n (← update r)
    | none => skipValue; entries fields n r

/-- Read all fields of a record in order. -/
def positional {α : Type} : Fields α → Update α
  | [], r => return r
  | (_, update) :: rest, r => do positional rest (← update r)

/-- A record over an earlier one: a map from names, or the list of all fields in order. Nothing
and the empty list are the record of zeros. -/
def updateRecord {α : Type} (zero : α) (fields : Fields α) (old : α) : Reader α := do
  match ← head with
  | .nil => return zero
  | .map n => entries fields n old
  | .array n =>
    if n = 0 then return zero
    else if n = fields.length then positional fields old
    else malformed
  | _ => malformed

/-- A record that has its place for itself. -/
def readRecord {α : Type} (zero : α) (fields : Fields α) : Reader α :=
  updateRecord zero fields zero

/-- A value that may be left out, over an earlier one. Nothing leaves it out, and one that was left
out is read over `zero`. -/
def updateOptional {α : Type} (zero : α) (update : Update α) (old : Option α) :
    Reader (Option α) := do
  if (← get).head? = some 0xC0 then
    let _ ← byte
    return none
  else return some (← update (old.getD zero))

/-- `n` elements. -/
def elements {α : Type} (read : Reader α) : Nat → Reader (List α)
  | 0 => return []
  | n + 1 => do
    let a ← read
    return a :: (← elements read n)

/-- A list that may be left out, of elements that hold nothing of earlier ones. -/
def readRows {α : Type} (read : Reader α) : Reader (Option (List α)) := do
  match ← head with
  | .nil => return none
  | .array n => return some (← elements read n)
  | _ => malformed

/-- Texts over earlier ones: a list replaces them all, and nothing leaves them. -/
def updateTexts (old : List Bytes) : Reader (List Bytes) :=
  return (← readRows readText).getD old

/-- A list while it is read: its elements, if it is not left out, and those behind its end that
a longer list left in earlier. A later list is read over both. -/
structure Slots (α : Type) where
  items : Option (List α) := none
  behind : List α := []
  deriving Repr, DecidableEq, Inhabited

/-- The elements that a later list is read over, in order. -/
def Slots.all {α : Type} (s : Slots α) : List α := s.items.getD [] ++ s.behind

/-- `n` elements, each over the one that had its place before, or over `zero`. -/
def updateElements {α : Type} (zero : α) (update : Update α) : Nat → List α → Reader (List α)
  | 0, _ => return []
  | n + 1, old => do
    let a ← update (old.headD zero)
    return a :: (← updateElements zero update n old.tail)

/-- A list that may be left out, over an earlier one. Nothing forgets all elements; a list forgets
those that it is read over, but none behind its end. -/
def updateSlots {α : Type} (zero : α) (update : Update α) (old : Slots α) :
    Reader (Slots α) := do
  match ← head with
  | .nil => return {}
  | .array n => return ⟨some (← updateElements zero update n old.all), old.all.drop n⟩
  | _ => malformed

end WastForge.Pack
