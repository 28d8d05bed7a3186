import WastForge.Script.Reader
import WastForge.Types.Keyword

/-!
# Modules of a script

A script holds one module and the directives that run against it. The module is checked as far as
its items can be told apart; what functions do is only looked at when they run.
-/

namespace WastForge

/-- What sort of value a name holds. -/
inductive ValueType where
  /-- No value. -/
  | none
  | i32
  | i64
  | f32
  | f64
  /-- A type that the machine does not know. -/
  | other
  deriving Repr, DecidableEq, Inhabited

namespace ValueType

/-- The type with a name; without a name there is no value. -/
def ofName (s : Bytes) : ValueType :=
  if s.isEmpty then .none
  else if s == "i32" then .i32
  else if s == "i64" then .i64
  else if s == "f32" then .f32
  else if s == "f64" then .f64
  else .other

end ValueType

namespace Script

/-- A function of a module. -/
structure Function where
  name : Bytes
  /-- The names of the parameters. -/
  params : List Bytes := []
  locals : List (Bytes × ValueType) := []
  /-- Whether a result is declared. -/
  hasResult : Bool := false
  body : List SourceForm := []
  deriving Inhabited

/-- A function that a module takes from outside. -/
structure Import where
  name : Bytes
  module : Bytes
  field : Bytes
  /-- How many parameters it has. -/
  params : Nat
  deriving Repr, DecidableEq, Inhabited

/-- What the memory holds at the start, from an offset on. -/
structure Segment where
  offset : UInt32
  data : Bytes
  deriving Repr, DecidableEq, Inhabited

/-- A module. -/
structure Module where
  funcs : List Function := []
  /-- The exported functions by their names, in the order in which they are declared. -/
  exports : List (Bytes × Function) := []
  imports : List Import := []
  memory : UInt32 := 0
  segments : List Segment := []
  deriving Inhabited

namespace Module

/-- The function with a name. -/
def func? (m : Module) (name : Bytes) : Option Function := m.funcs.find? (·.name == name)

/-- The exported function with a name; of two exports with one name the last one counts. -/
def export? (m : Module) (name : Bytes) : Option Function := m.exports.reverse.lookup name

/-- The import with a name; of two imports with one name the last one counts. -/
def import? (m : Module) (name : Bytes) : Option Import := m.imports.reverse.find? (·.name == name)

/-- The names of the exports in the order in which they are declared. -/
def exportNames (m : Module) : List Bytes := m.exports.map (·.1)

end Module

/-- A size or offset in bytes. -/
def size? (f : SourceForm) : Option UInt32 :=
  ((Radix.natIn? 10 Radix.maxWord f.word).filter (· < 0x100000000)).map UInt32.ofNat

/-- Read the declarations that a function starts with, and then its body. -/
def functionFrom (fn : Function) : List SourceForm → Result Function
  | [] => .ok fn
  | item :: rest =>
    let h := item.head
    if h == "param" then
      match item.args with
      | [name, _] => functionFrom { fn with params := fn.params ++ [name.word] } rest
      | _ => malformed item.line ("malformed " ++ h ++ " in " ++ fn.name)
    else if h == "local" then
      match item.args with
      | [name, type] =>
        functionFrom { fn with locals := fn.locals ++ [(name.word, .ofName type.word)] } rest
      | _ => malformed item.line ("malformed " ++ h ++ " in " ++ fn.name)
    else if h == "result" then
      match item.args with
      | [type] => functionFrom { fn with hasResult := !type.word.isEmpty } rest
      | _ => malformed item.line ("malformed " ++ h ++ " in " ++ fn.name)
    else .ok { fn with body := item :: rest }

/-- Read a function. -/
def function (f : SourceForm) : Result Function :=
  match f.args with
  | name :: rest =>
    if name.isList then malformed f.line "function without a name"
    else functionFrom { name := name.word } rest
  | [] => malformed f.line "function without a name"

/-- Read an import. -/
def importOf (f : SourceForm) : Result Import :=
  match f.args with
  | name :: .text _ module :: .text _ field :: rest =>
    let params := (rest.filter fun g => g.head == ("param" : Bytes)).flatMap (·.args)
    .ok ⟨name.word, module, field, params.length⟩
  | _ => malformed f.line "malformed import"

/-- Read the segments of a memory of `size` bytes. -/
def segments (size : UInt32) : List SourceForm → Result (List Segment)
  | [] => .ok []
  | f :: rest =>
    match f.head == "segment", f.args with
    | true, [offset, .text _ data] =>
      match size? offset with
      | none => malformed f.line ("bad segment offset " ++ offset.shown)
      | some off =>
        if size.toNat < off.toNat + data.length then
          malformed f.line ("segment at " ++ Bytes.ofNat off.toNat ++ " overruns memory of "
            ++ Bytes.ofNat size.toNat ++ " bytes")
        else do return ⟨off, data⟩ :: (← segments size rest)
    | _, _ => malformed f.line "malformed segment"

/-- Read a memory: its size and its segments. -/
def memoryOf (f : SourceForm) : Result (UInt32 × List Segment) :=
  match f.args with
  | first :: _ :: rest =>
    match size? first with
    | none => malformed f.line ("bad memory size " ++ first.shown)
    | some size => do return (size, ← segments size rest)
  | _ => malformed f.line "malformed memory"

/-- An export whose function is not looked up yet. -/
structure PendingExport where
  name : Bytes
  target : Bytes
  line : UInt32

/-- Add the items of a module one after the other; exports wait until all functions are known. -/
def addItems (m : Module) (pending : List PendingExport) :
    List SourceForm → Result (Module × List PendingExport)
  | [] => .ok (m, pending)
  | item :: rest =>
    let h := item.head
    if h == "func" then do
      let fn ← function item
      if (m.func? fn.name).isSome then malformed item.line ("duplicate function " ++ fn.name)
      addItems { m with funcs := m.funcs ++ [fn] } pending rest
    else if h == "export" then
      match item.args with
      | [.text _ name, target] => addItems m (pending ++ [⟨name, target.word, item.line⟩]) rest
      | _ => malformed item.line "malformed export"
    else if h == "import" then do
      let imp ← importOf item
      addItems { m with imports := m.imports ++ [imp] } pending rest
    else if h == "memory" then do
      let (size, segs) ← memoryOf item
      addItems { m with memory := size, segments := m.segments ++ segs } pending rest
    else malformed item.line ("unexpected module item " ++ item.shown)

/-- Look up the functions of the exports. -/
def resolveExports (m : Module) : List PendingExport → Result Module
  | [] => .ok m
  | e :: rest =>
    match m.func? e.target with
    | none =>
      malformed e.line ("export " ++ Quoted.text e.name ++ " names unknown function " ++ e.target)
    | some fn => resolveExports { m with exports := m.exports ++ [(e.name, fn)] } rest

/-- Read a module. -/
def moduleOf (f : SourceForm) : Result Module := do
  let (m, pending) ← addItems {} [] f.args
  resolveExports m pending

/-- Find the module among forms, the others being directives. -/
def instantiateFrom (found : Option Module) (rev : List SourceForm) :
    List SourceForm → Result (Module × List SourceForm)
  | [] =>
    match found with
    | some m => .ok (m, rev.reverse)
    | none => Result.problem .scriptSyntax {} "no module form"
  | f :: rest =>
    if f.head != "module" then instantiateFrom found (f :: rev) rest
    else if found.isSome then malformed f.line "more than one module"
    else do instantiateFrom (some (← moduleOf f)) rev rest

/-- The module of a script and its directives. -/
def instantiate (forms : List SourceForm) : Result (Module × List SourceForm) :=
  instantiateFrom none [] forms

end Script

end WastForge
