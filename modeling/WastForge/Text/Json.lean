import WastForge.Text.Utf8

/-!
# JSON text

Reports for other programs are written as JSON, either on one line or indented by two blanks per
level. Texts are escaped so that they can stand in HTML.
-/

namespace WastForge

/-- A JSON value; the members of an object keep their order. -/
inductive Json where
  | str (s : Bytes)
  | num (n : Int)
  | bool (b : Bool)
  | arr (items : List Json)
  | obj (members : List (Bytes × Json))

namespace Json

/-- An object whose members are given in groups. -/
def ofGroups (groups : List (List (Bytes × Json))) : Json := .obj groups.flatten

/-- One character of a text between quotation marks. -/
def escape : Rune → Bytes
  | .stray _ => "\\ufffd"
  | .point c =>
    if c == 34 then "\\\""
    else if c == 92 then "\\\\"
    else if c == 8 then "\\b"
    else if c == 12 then "\\f"
    else if c == 10 then "\\n"
    else if c == 13 then "\\r"
    else if c == 9 then "\\t"
    else if c < 32 || c == 60 || c == 62 || c == 38 || c == 0x2028 || c == 0x2029 then
      "\\u" ++ Bytes.ofHexNat 4 c
    else Utf8.encode c

/-- A text between quotation marks. -/
def quote (s : Bytes) : Bytes := 34 :: (Utf8.runes s).flatMap escape ++ [34]

/-- A value that holds no other values. -/
def boolText (b : Bool) : Bytes := if b then "true" else "false"

mutual

/-- The value on one line without blanks. -/
def compact : Json → Bytes
  | .str s => quote s
  | .num n => Bytes.ofInt n
  | .bool b => boolText b
  | .arr items => "[" ++ Bytes.join "," (compactItems items) ++ "]"
  | .obj members => "\x7b" ++ Bytes.join "," (compactMembers members) ++ "\x7d"

/-- The items of an array. -/
def compactItems : List Json → List Bytes
  | [] => []
  | v :: rest => v.compact :: compactItems rest

/-- The members of an object. -/
def compactMembers : List (Bytes × Json) → List Bytes
  | [] => []
  | (k, v) :: rest => (quote k ++ ":" ++ v.compact) :: compactMembers rest

end

/-- A line break and the indentation of a level. -/
def newline (level : Nat) : Bytes := 10 :: List.replicate (2 * level) 32

/-- Parts between brackets, one to a line. -/
def bracketed (level : Nat) (opening closing : Bytes) (parts : List Bytes) : Bytes :=
  if parts.isEmpty then opening ++ closing
  else
    opening ++ Bytes.join "," (parts.map (newline (level + 1) ++ ·)) ++ newline level ++ closing

mutual

/-- The value with one item or member to a line. -/
def indented (level : Nat) : Json → Bytes
  | .str s => quote s
  | .num n => Bytes.ofInt n
  | .bool b => boolText b
  | .arr items => bracketed level "[" "]" (indentedItems (level + 1) items)
  | .obj members => bracketed level "\x7b" "\x7d" (indentedMembers (level + 1) members)

/-- The items of an array. -/
def indentedItems (level : Nat) : List Json → List Bytes
  | [] => []
  | v :: rest => v.indented level :: indentedItems level rest

/-- The members of an object. -/
def indentedMembers (level : Nat) : List (Bytes × Json) → List Bytes
  | [] => []
  | (k, v) :: rest => (quote k ++ ": " ++ v.indented level) :: indentedMembers level rest

end

/-- A document of its own, ended by a line break. -/
def document (v : Json) : Bytes := v.indented 0 ++ "\n"

end Json

end WastForge
