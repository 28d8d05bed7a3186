import WastForge.Emit.Name
import WastForge.Form.Basic
import WastForge.Program.Walk
import WastForge.Text.Quoted
import WastForge.Trace.Journal

/-!
# Labels of a function

Label groups are numbered in the order in which a visitor meets them, and labels by their position
in their group. A label is known by its name, so no two labels of a function share one.
-/

namespace WastForge.Emit

/-- Where a label stands. -/
structure LabelPlace where
  group : Nat := 0
  index : Nat := 0
  deriving Repr, DecidableEq, Inhabited

/-- The labels of a function. -/
structure LabelTable where
  /-- How many groups there are. -/
  groups : Nat := 0
  /-- The places of the labels by their names. -/
  places : List (Bytes × LabelPlace) := []
  /-- The numbers of the groups by the numbers of their statements, the latest first. -/
  groupOf : List (UInt32 × Nat) := []
  deriving Repr, Inhabited

namespace LabelTable

/-- The place of a label. -/
def place? (t : LabelTable) (name : Bytes) : Option LabelPlace := t.places.lookup name

/-- The number of the group of a statement. -/
def group? (t : LabelTable) (stmt : UInt32) : Option Nat := t.groupOf.lookup stmt

/-- Add the labels of the group `group`, from the position `index` on. -/
def addLabels (span : Span) (group : Nat) : Nat → List Label → LabelTable → Result LabelTable
  | _, [], t => .ok t
  | index, l :: rest, t =>
    match t.place? l.name with
    | some earlier =>
      Result.problem .labelGroup span
        ("label " ++ Quoted.text l.name ++ " declared in group " ++ Bytes.ofNat earlier.group
          ++ " and again in group " ++ Bytes.ofNat group)
    | none =>
      addLabels span group (index + 1) rest
        { t with places := t.places ++ [(l.name, ⟨group, index⟩)] }

/-- Add a label group; other statements declare no labels. -/
def addNode (t : LabelTable) : Node → Result LabelTable
  | .stmt (.labelGroup m labels) =>
    addLabels m.span t.groups 0 (Rows.items labels)
      { t with groups := t.groups + 1, groupOf := (m.id, t.groups) :: t.groupOf }
  | _ => .ok t

/-- The labels of a body. -/
def ofBody (root : Stmt) : Result LabelTable := (Node.all root).foldlM addNode {}

end LabelTable

/-- Go to a label: say which one comes next and choose again. -/
def gotoForm (place : LabelPlace) : Form :=
  .list [.atom "block",
    .list [.atom "set_local", .atom (Name.currentLabel place.group),
      .words ["i32.const", Bytes.ofNat place.index]],
    .words ["br", Name.dispatch place.group]]

end WastForge.Emit
