import WastForge.Form.Basic
import WastForge.Number.FloatText
import WastForge.Program.Operator
import WastForge.Types.Keyword

/-!
# Instructions

Which instruction an operator or a conversion becomes on values of given types.
-/

namespace WastForge.Instruction

/-- A constant whose value is given as text. -/
def const (kw : Keyword) (value : Bytes) : Form := .words [kw.text ++ ".const", value]

/-- An integer constant. -/
def intConst (kw : Keyword) (n : Int) : Form := const kw (Bytes.ofInt n)

/-- The text of a floating point constant with the given 64 bits. A constant of 32 bits is
rounded first. -/
def floatText (kw : Keyword) (bits : Nat) : Bytes :=
  match kw, Parts.ofBits .double bits with
  | .f32, .finite negative m q =>
    match Parts.round? .single negative (m * Nat.pow 2 q.toNat) (Nat.pow 2 (-q).toNat) with
    | some b => FloatStyle.message.write .single b
    | none => if negative then FloatStyle.message.negativeInfinity else FloatStyle.message.infinity
  | _, _ => FloatStyle.constant.write .double bits

/-- The bits of the floating point number nearest to an integer. -/
def bitsOfInt (n : Int) : Nat := (Parts.round? .double (n < 0) n.natAbs 1).getD 0

/-- The part of an instruction that names an operator. -/
def stem? : BinaryOp → Option Bytes
  | .add => some "add"
  | .sub => some "sub"
  | .mul => some "mul"
  | .div => some "div"
  | .rem => some "rem"
  | .bitAnd => some "and"
  | .bitOr => some "or"
  | .bitXor => some "xor"
  | .shl => some "shl"
  | .shr => some "shr"
  | .eq => some "eq"
  | .ne => some "ne"
  | .lt => some "lt"
  | .le => some "le"
  | .gt => some "gt"
  | .ge => some "ge"
  | _ => none

/-- Whether an operator works on integers only. -/
def isIntegerOnly : BinaryOp → Bool
  | .rem | .bitAnd | .bitOr | .bitXor | .shl | .shr => true
  | _ => false

/-- Whether an operator on integers depends on their sign. -/
def dependsOnSign : BinaryOp → Bool
  | .div | .rem | .shr | .lt | .le | .gt | .ge => true
  | _ => false

/-- How the sign of a type shows in an instruction. -/
def signLetter (tt : TypeTable) (t : TypeId) : Bytes := if tt.isSigned t then "s" else "u"

/-- The instruction of an operator on values of type `t`, which the machine holds as `kw`. -/
def ofBinary? (tt : TypeTable) (op : BinaryOp) (kw : Keyword) (t : TypeId) : Option Bytes :=
  match stem? op with
  | none => none
  | some stem =>
    if kw.isFloat then
      if isIntegerOnly op then none else some (kw.text ++ "." ++ stem)
    else
      some (kw.text ++ "." ++ stem
        ++ if dependsOnSign op then "_" ++ signLetter tt t else ([] : Bytes))

/-- Cut a value that the machine holds in 32 bits down to the 8 or 16 bits of the type `target`: a
mask for unsigned types, two shifts for signed ones. A conversion that cannot change the value is
left out, unless `wrapped` says that the value may have left its type. -/
def narrow (tt : TypeTable) (x : Option Form) (source target : TypeId) (wrapped : Bool) :
    Option Form :=
  let tw := tt.widthOf target
  let ts := tt.isSigned target
  let fw := tt.widthOf source
  let fs := tt.isSigned source
  if tw = 0 || 32 ≤ tw || tt.isFloat target then x
  else if !wrapped && tt.isIntegral source
      && ((fw < tw && (!fs || ts)) || (fw = tw && fs = ts)) then x
  else if ts then
    let shift := some (intConst .i32 (32 - (tw.toNat : Int)))
    some (.app "i32.shr_s" [some (.app "i32.shl" [x, shift]), shift])
  else some (.app "i32.and" [x, some (intConst .i32 (Nat.pow 2 tw.toNat - 1 : Nat))])

/-- Convert a value held as `fk` to one held as `tk`. -/
def convert (tt : TypeTable) (x : Option Form) (source target : TypeId) (fk tk : Keyword) :
    Option Form :=
  if fk = tk then x
  else if fk = .i32 && tk = .i64 then
    some (.app ("i64.extend_" ++ signLetter tt source ++ "/i32") [x])
  else if fk = .i64 && tk = .i32 then some (.app "i32.wrap/i64" [x])
  else if !fk.isFloat && tk.isFloat then
    some (.app (tk.text ++ ".convert_" ++ signLetter tt source ++ "/" ++ fk.text) [x])
  else if fk.isFloat && !tk.isFloat then
    some (.app (tk.text ++ ".trunc_" ++ signLetter tt target ++ "/" ++ fk.text) [x])
  else if fk = .f32 then some (.app "f64.promote/f32" [x])
  else some (.app "f32.demote/f64" [x])

/-- The cast of a value between two different types. -/
def cast (tt : TypeTable) (x : Option Form) (source target : TypeId) (fk tk : Keyword) :
    Option Form :=
  let out := convert tt x source target fk tk
  if tk = .i32 then narrow tt out source target false else out

/-- A load of a value of type `t` from an address. -/
def load (tt : TypeTable) (t : TypeId) (kw : Keyword) (address : Form) : Form :=
  .app (kw.text ++ ".load" ++ tt.memorySuffix t false) [some address]

/-- A store of a value of type `t` to an address. -/
def store (tt : TypeTable) (t : TypeId) (kw : Keyword) (address : Form) (value : Option Form) :
    Form :=
  .app (kw.text ++ ".store" ++ tt.memorySuffix t true) [some address, value]

end WastForge.Instruction
