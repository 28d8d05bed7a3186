import WastForge.Layout.Arena
import WastForge.Program.Basic
import WastForge.Program.Walk
import WastForge.Trace.Journal
import WastForge.Types.Keyword

/-!
# Placing what a program mentions

Every string literal and every static field that a body mentions gets its slot, in the order in
which a visitor meets them. A field whose type has no representation in memory is left without a
slot, with a warning.
-/

namespace WastForge.Arena

/-- Work on the memory that is written down as it goes. -/
abbrev PlaceM := ExceptT Failure (StateT Arena (StateM Journal))

/-- Place the string or static field that an expression mentions; the answer may be a warning. -/
def placeMention (p : Program) (member : Bytes) (e : Expr) : ArenaM (Option Diagnostic) := do
  match e with
  | .literal _ l =>
    match l.kind with
    | .string => let _ ← placeString l.string; return none
    | .null | .default =>
      if p.types.isString e.type then
        let _ ← placeString []
      return none
    | _ => return none
  | .field _ target isStatic _ =>
    match p.fieldStop? target with
    | none => return none
    | some none => throw (.crash .absent)
    | some (some decl) =>
      if !isStatic then return none
      try
        let _ ← placeField target decl.type decl.readOnly
        return none
      catch
        | .unsupported name =>
          let why := LayoutError.message (.unsupported name)
          return some
            { Diagnostic.caution .fieldType decl.span
                ("static field " ++ target.text ++ " skipped: " ++ why) with
              member := member }
        | err => throw err
  | _ => return none

/-- The failure of a member for want of the place that an expression needs. -/
def failureAt (member : Bytes) (span : Span) : LayoutError → Failure
  | .crash how => .crash how
  | e => .problem ((Diagnostic.fatal e.code span e.message).inMember member)

/-- Place what an expression mentions. -/
def place (p : Program) (member : Bytes) (e : Expr) : PlaceM Unit := do
  let (r, a) := (placeMention p member e).run (← getThe Arena)
  set a
  match r with
  | .ok none => return ()
  | .ok (some d) => modifyThe Journal (.warning d :: ·)
  | .error err => throw (failureAt member e.span err)

/-- The expressions of a body in the order in which a visitor meets them. -/
def mentions (b : Body) : List Expr :=
  (Node.all b.root).filterMap fun
    | .expr e => some e
    | .stmt _ => none

/-- Place what the bodies mention, one body after the other. -/
def placeAll (p : Program) (bodies : List Body) : PlaceM Unit :=
  bodies.forM fun b => (mentions b).forM (place p b.func.qualifiedName)

/-- Lay out the memory of a program behind a heap. -/
def ofProgram (p : Program) (heapSize : UInt32) (bodies : List Body) : Work Arena := fun j =>
  let start : Arena := { types := p.types, heapSize := heapSize }
  let ((r, a), j) := ((placeAll p bodies).run start).run (.enter .pass "layout" :: j)
  let counts : List (Bytes × Bytes) :=
    [("fields", Bytes.ofNat a.fields.length), ("strings", Bytes.ofNat a.strings.length)]
  (r.map fun _ => a, .leave [] counts :: j)

end WastForge.Arena
