import WastForge.Types.Keyword

/-!
# Instructions by name
-/

namespace WastForge

/-- What the first word of a form asks for. -/
inductive Opcode where
  | nop
  | block
  | loop
  | ite
  | br
  | ret
  | getLocal
  | setLocal
  | call
  | callImport
  | invoke
  /-- Compare the result of an invocation, which stands behind the expected value or before it. -/
  | assertion (expectedFirst : Bool)
  | assertHeap
  | assertHeapFile
  /-- A construct without code. -/
  | untranslatable
  | const (kw : Keyword)
  | switch (kw : Keyword)
  | load (kw : Keyword) (suffix : Bytes)
  | store (kw : Keyword) (suffix : Bytes)
  /-- An operation on values. -/
  | operation (kw : Keyword) (name : Bytes)
  | unknown
  deriving Repr, DecidableEq

namespace Opcode

/-- The type that an instruction starts with. -/
def keyword? (s : Bytes) : Option Keyword :=
  if s == "i32" then some .i32
  else if s == "i64" then some .i64
  else if s == "f32" then some .f32
  else if s == "f64" then some .f64
  else none

/-- An instruction that starts with a type and a dot. -/
def ofTyped (s : Bytes) : Opcode :=
  match Bytes.cut? 46 s with
  | none => .unknown
  | some (front, name) =>
    match keyword? front with
    | none => .unknown
    | some kw =>
      if name == "const" then .const kw
      else if name == "switch" then .switch kw
      else
        match Bytes.after? "load" name, Bytes.after? "store" name with
        | some suffix, _ => .load kw suffix
        | none, some suffix => .store kw suffix
        | none, none => .operation kw name

/-- The instruction with a name. -/
def ofName (s : Bytes) : Opcode :=
  if s == "nop" then .nop
  else if s == "block" then .block
  else if s == "loop" then .loop
  else if s == "if" then .ite
  else if s == "br" then .br
  else if s == "return" then .ret
  else if s == "get_local" then .getLocal
  else if s == "set_local" then .setLocal
  else if s == "call" then .call
  else if s == "call_import" then .callImport
  else if s == "invoke" then .invoke
  else if s == "assert_eq" then .assertion false
  else if s == "assert_return" then .assertion true
  else if s == "assert_heap_eq" then .assertHeap
  else if s == "assert_heap_eq_file" then .assertHeapFile
  else if ("untranslatable." : Bytes).isPrefixOf s then .untranslatable
  else ofTyped s

end Opcode

/-- How a load or store reaches the memory. -/
structure Access where
  /-- The bytes of an element. -/
  width : Nat
  /-- Whether a load repeats the sign. -/
  signed : Bool
  deriving Repr, DecidableEq

/-- The access of an instruction, from what follows `load` or `store`; a remark on the alignment is
passed over. -/
def Access.ofSuffix? (kw : Keyword) (suffix : Bytes) : Option Access :=
  if suffix.isEmpty then some ⟨if kw = .i64 || kw = .f64 then 8 else 4, false⟩
  else if suffix == "8" || suffix == "8_u" then some ⟨1, false⟩
  else if suffix == "8_s" then some ⟨1, true⟩
  else if suffix == "16" || suffix == "16_u" then some ⟨2, false⟩
  else if suffix == "16_s" then some ⟨2, true⟩
  else if suffix == "32" || suffix == "32_u" then some ⟨4, false⟩
  else if suffix == "32_s" then some ⟨4, true⟩
  else none

end WastForge
