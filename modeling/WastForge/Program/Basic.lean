import WastForge.Diagnostic.Basic
import WastForge.Program.Tree
import WastForge.Source
import WastForge.Types.Table

/-!
# Programs

A program is a list of type declarations with static fields and functions, over a type table and
a file set. Functions are told apart by their position, since two of them may look the same.
-/

namespace WastForge

/-- A parameter or local variable. -/
structure Local where
  name : Bytes := []
  type : TypeId := 0
  deriving Repr, DecidableEq, Inhabited

/-- A function. -/
structure Func where
  name : Bytes := []
  declaringType : Bytes := []
  params : Rows Local := none
  locals : Rows Local := none
  result : TypeId := 0
  /-- One bit each for static, exported, entry point and static constructor. -/
  flags : UInt8 := 0
  /-- The name of the export; empty when it is the name of the function. -/
  exportName : Bytes := []
  body : Stmt := .missing
  span : Span := {}
  deriving Inhabited

namespace Func

/-- The function as a member of its type. -/
def ref (f : Func) : MemberRef := ⟨f.declaringType, f.name⟩

/-- The qualified name. -/
def qualifiedName (f : Func) : Bytes := f.ref.text

/-- Whether a flag is set. -/
def hasFlag (f : Func) (bit : UInt8) : Bool := f.flags &&& bit != 0

/-- Whether the function needs no receiver. -/
def isStatic (f : Func) : Bool := f.hasFlag 1

/-- Whether the function can be invoked from outside. -/
def isExported (f : Func) : Bool := f.hasFlag 2

/-- Whether the program starts here. -/
def isEntryPoint (f : Func) : Bool := f.hasFlag 4

/-- Whether the function sets up the static fields of its type. -/
def isStaticCtor (f : Func) : Bool := f.hasFlag 8

/-- The name under which the function is exported. -/
def publicName (f : Func) : Bytes := if f.exportName.isEmpty then f.name else f.exportName

end Func

/-- A static field. -/
structure FieldDecl where
  name : Bytes := []
  type : TypeId := 0
  readOnly : Bool := false
  span : Span := {}
  deriving Repr, DecidableEq, Inhabited

/-- A type with its static fields and functions. -/
structure TypeDecl where
  name : Bytes := []
  /-- The static fields; a document may leave one out of the list. -/
  fields : Rows (Option FieldDecl) := none
  funcs : Rows Func := none
  span : Span := {}
  deriving Inhabited

/-- The position of a function: which type declares it, and where in that type it stands. -/
structure FuncId where
  decl : Nat
  index : Nat
  deriving Repr, DecidableEq, Inhabited

/-- A function at its position, with the body that is worked on. -/
structure Body where
  id : FuncId
  func : Func
  root : Stmt
  deriving Inhabited

/-- A program. -/
structure Program where
  name : Bytes := []
  types : TypeTable := .builtin
  files : FileSet := {}
  decls : Rows TypeDecl := none
  deriving Inhabited

namespace TypeDecl

/-- The functions with their positions; `decl` is the position of the type. -/
def bodies (d : TypeDecl) (decl : Nat) : List Body :=
  (Rows.items d.funcs).mapIdx fun i f => ⟨⟨decl, i⟩, f, f.body⟩

/-- The first static constructor. -/
def staticCtor? (d : TypeDecl) (decl : Nat) : Option Body :=
  (d.bodies decl).find? (·.func.isStaticCtor)

/-- Where the search for a field ends: at the first one with the name, or at one that is left
out. -/
def fieldStop? (d : TypeDecl) (name : Bytes) : Option (Option FieldDecl) :=
  (Rows.items d.fields).find? fun f => f.all (·.name == name)

/-- The first field with a name, if the search for it ends there. -/
def field? (d : TypeDecl) (name : Bytes) : Option FieldDecl := (d.fieldStop? name).join

end TypeDecl

namespace Program

/-- The declared types with their positions. -/
def indexedDecls (p : Program) : List (Nat × TypeDecl) :=
  (Rows.items p.decls).mapIdx fun i d => (i, d)

/-- All functions in the order in which they are worked on: for each type its static constructor,
then the functions that are none. -/
def bodies (p : Program) : List Body :=
  p.indexedDecls.flatMap fun (i, d) =>
    (d.staticCtor? i).toList ++ (d.bodies i).filter (!·.func.isStaticCtor)

/-- The first function that is marked as the entry point. -/
def entryPoint? (p : Program) : Option Body :=
  (p.indexedDecls.flatMap fun (i, d) => d.bodies i).find? (·.func.isEntryPoint)

/-- The first type with a name. -/
def type? (p : Program) (name : Bytes) : Option (Nat × TypeDecl) :=
  p.indexedDecls.find? (·.2.name == name)

/-- The function that a reference means: the first of its name, or, if the types of the
parameters are given, the first of its name that has them. -/
def lookup? (p : Program) (ref : MemberRef) (params : Option (List TypeId)) : Option Body :=
  match p.type? ref.type with
  | none => none
  | some (i, d) =>
    (d.bodies i).find? fun b =>
      b.func.name == ref.name
        && params.all fun ts => (Rows.items b.func.params).map (·.type) == ts

/-- Where the search for the static field of a reference ends. -/
def fieldStop? (p : Program) (ref : MemberRef) : Option (Option FieldDecl) :=
  (p.type? ref.type).bind fun (_, d) => d.fieldStop? ref.name

/-- The static field that a reference means. -/
def field? (p : Program) (ref : MemberRef) : Option FieldDecl :=
  (p.type? ref.type).bind fun (_, d) => d.field? ref.name

/-- The program with every function that stands in `bodies` given its body from there. -/
def withBodies (p : Program) (bodies : List Body) : Program :=
  let newBody (i j : Nat) (f : Func) : Func :=
    match bodies.find? (·.id = ⟨i, j⟩) with
    | some b => { f with body := b.root }
    | none => f
  { p with
    decls := p.decls.map fun ds => ds.mapIdx fun i d =>
      { d with funcs := d.funcs.map fun fs => fs.mapIdx (newBody i) } }

end Program

end WastForge

namespace WastForge.Program

/-!
## Entry points

A program that is to be run has exactly one entry point.
-/

/-- The functions that are marked as entry points. -/
def entryPoints (p : Program) : List Body := p.bodies.filter (·.func.isEntryPoint)

/-- Refuse a program without an entry point, or with more than one. -/
def checkEntryPoint (p : Program) : Result Unit :=
  match p.entryPoints with
  | [_] => .ok ()
  | [] => Result.problem .missingEntry {} ("program " ++ p.name ++ " has no entry point")
  | entries@(_ :: second :: _) =>
    Result.problem .missingEntry second.func.span
      ("multiple entry points found: "
        ++ Bytes.join ", " (entries.map fun b => b.func.qualifiedName))

end WastForge.Program
