import WastForge.Program.Tree
import WastForge.Text.Utf8

/-!
# Names in a module

Functions, locals and labels of a module have names that start with a dollar sign and go on with
letters, digits and underscores.
-/

namespace WastForge.Name

/-- Whether a character may stand in a name. -/
def isPlain (c : Nat) : Bool :=
  (97 ≤ c && c ≤ 122) || (65 ≤ c && c ≤ 90) || (48 ≤ c && c ≤ 57) || c == 95

/-- A text with an underscore for every character that may not stand in a name. -/
def escape (s : Bytes) : Bytes :=
  (Utf8.runes s).map fun
    | .point c => if isPlain c then UInt8.ofNat c else 95
    | .stray _ => 95

/-- The name of a type without its namespace, which ends at the last dot. -/
def short (type : Bytes) : Bytes := (type.reverse.takeWhile (· != 46)).reverse

/-- A member by its short type and its name. -/
def member (ref : MemberRef) : Bytes := escape (short ref.type ++ "_" ++ ref.name)

/-- The name of a function. Overloads share it. -/
def func (ref : MemberRef) : Bytes := "$" ++ member ref

/-- The name of a parameter or local. -/
def local_ (name : Bytes) : Bytes := "$" ++ escape name

/-- The function that gives the address of the first character of the string at an offset. -/
def stringFirst (offset : UInt32) : Bytes := "$__string_" ++ Bytes.ofNat offset.toNat ++ "_first"

/-- The function that gives the length of the string at an offset. -/
def stringLengthAt (offset : UInt32) : Bytes :=
  "$__string_" ++ Bytes.ofNat offset.toNat ++ "_length"

/-- The function that gives the length of any string. -/
def stringLength : Bytes := "$__string_length"

/-- The function that reads a static field. -/
def fieldGetter (ref : MemberRef) : Bytes := "$__get_" ++ member ref

/-- The function that writes a static field. -/
def fieldSetter (ref : MemberRef) : Bytes := "$__set_" ++ member ref

/-- The label of a loop. -/
def loop (index : LoopIndex) : Bytes := "$loop_" ++ Bytes.ofInt index.toInt

/-- The label at the end of the body of a loop. -/
def continue_ (index : LoopIndex) : Bytes := loop index ++ "_continue"

/-- The label of a switch. -/
def switch (index : LoopIndex) : Bytes := "$switch_" ++ Bytes.ofInt index.toInt

/-- The local that says which label of a group comes next. -/
def currentLabel (group : Nat) : Bytes := "$currentLabel_" ++ Bytes.ofNat group

/-- The label of the loop of a label group. -/
def labelGroup (group : Nat) : Bytes := "$labelgroup_" ++ Bytes.ofNat group

/-- The label at which a label group chooses what comes next. -/
def dispatch (group : Nat) : Bytes := labelGroup group ++ "_dispatch"

/-- The function that runs the static constructors. -/
def staticInit : Bytes := "$__static_init"

/-- The export of the function that runs the static constructors. -/
def staticInitExport : Bytes := "__static_init"

end WastForge.Name
