import WastForge.Emit.Expr
import WastForge.Emit.Label

/-!
# The code of statements

A statement becomes any number of forms, one after the other. Where exactly one form is wanted, as
in the arm of a condition, several are put into a block and none becomes a form that does nothing.
-/

namespace WastForge.Emit

/-- What a statement has to become. -/
inductive Shape where
  /-- Any number of forms. -/
  | plain
  /-- Exactly one form. -/
  | arm
  /-- Any number of forms, which stand in a block already. -/
  | body
  deriving Repr, DecidableEq

namespace Shape

/-- The form that does nothing. -/
def nop : Form := .words ["nop"]

/-- Lines in a block. -/
def block (lines : List Line) : List Line := [.group [some (.atom "block")] lines]

/-- What stands for a statement without code. -/
def nothing : Shape → List Line
  | .arm => [.form nop]
  | _ => []

/-- Forms that may be several. -/
def several (shape : Shape) (lines : List Line) : List Line :=
  match shape with
  | .arm => block lines
  | _ => lines

/-- The statements of a block; `isEmpty` tells that it has none. -/
def ofBlock (shape : Shape) (isEmpty : Bool) (lines : List Line) : List Line :=
  match shape with
  | .plain => if isEmpty then [] else block lines
  | .arm => block lines
  | .body => lines

end Shape

/-- A loop or switch that a break or continue can mean. -/
structure BranchScope where
  isSwitch : Bool
  index : LoopIndex
  deriving Repr, DecidableEq

/-- What encloses a statement, the innermost first. -/
structure Nest where
  scopes : List BranchScope := []
  /-- The label groups. -/
  groups : List Nat := []
  deriving Repr, Inhabited

namespace Nest

/-- The nest inside of a loop or switch. -/
def within (n : Nest) (isSwitch : Bool) (index : LoopIndex) : Nest :=
  { n with scopes := ⟨isSwitch, index⟩ :: n.scopes }

/-- The nest inside of a label group. -/
def withinGroup (n : Nest) (group : Nat) : Nest := { n with groups := group :: n.groups }

/-- The label that a break means: the innermost loop or switch, or the one with the index. -/
def breakLabel? (n : Nest) (target : LoopIndex) : Option Bytes :=
  (n.scopes.find? fun s => !target.isValid || s.index = target).map fun s =>
    if s.isSwitch then Name.switch s.index else Name.loop s.index

/-- The label that a continue means: the innermost loop, or the one with the index. -/
def continueLabel? (n : Nest) (target : LoopIndex) : Option Bytes :=
  (n.scopes.find? fun s => !s.isSwitch && (!target.isValid || s.index = target)).map fun s =>
    Name.continue_ s.index

end Nest

/-- The indices that were chosen for loops and switches without one. -/
structure LoopNumbers where
  next : LoopIndex := 4096
  /-- The choices of this function, by the numbers of the statements. -/
  chosen : List (UInt32 × LoopIndex) := []
  deriving Repr, Inhabited

/-- Writing statements chooses indices on the way. -/
abbrev StmtM := StateT LoopNumbers Work

/-- The index of a loop or switch: its own one, or one that is chosen for its statement. -/
def indexOf (m : Mark) (own : LoopIndex) : StmtM LoopIndex := do
  if own.isValid then return own
  let numbers ← get
  match numbers.chosen.lookup m.id with
  | some index => return index
  | none =>
    set ({ next := numbers.next + 1, chosen := (m.id, numbers.next) :: numbers.chosen } :
      LoopNumbers)
    return numbers.next

/-- The head of a group: a word and a label. -/
def labelled (word label : Bytes) : List (Option Form) := [some (.atom word), some (.atom label)]

variable (env : Env) (labels : LabelTable)

/-- Leave a loop when its condition is false; without a condition nothing is tested. -/
def guard (cond : Expr) (index : LoopIndex) : Work (List Line) := do
  if cond.isMissing then return []
  let c ← expr env true cond
  return [.form (.app "if"
    [c, some Shape.nop, some (.words ["br", Name.loop index])])]

/-- The expressions behind the body of a loop, without their values. -/
def effects : List Expr → Work (List Line)
  | [] => pure []
  | e :: rest => do
    lookAt e
    let x ← expr env false e
    let xs ← effects rest
    return x.toList.map .form ++ xs

/-- The first values of declared variables. -/
def varInits : List VarInit → Work (List Line)
  | [] => pure []
  | v :: rest => do
    if v.init.isMissing then varInits rest
    else
      let value ← expr env true v.init
      let type := (env.local? v.name).getD v.init.type
      let stored ← store env (.variable ⟨type, v.init.span⟩ v.name false) value
      let more ← varInits rest
      return .form stored :: more

/-- The values of an arm of a switch, which have to be literals. -/
def caseValues : List Expr → Work (List Bytes)
  | [] => pure []
  | e :: rest => do
    match e.intConstant? with
    | none =>
      lookAt e
      Work.problem .caseNotConstant e.span "switch case value must be a numeric literal"
    | some n =>
      let more ← caseValues rest
      return Bytes.ofInt n.toInt :: more

/-- An arm of a switch around its body: an empty arm for every value but the last, which falls
through; the default arm has an empty arm for all its values. -/
def caseLines (isDefault : Bool) (values : List Bytes) (body : List Line) : List Line :=
  let fallThrough (vs : List Bytes) : List Line := vs.map fun v => .form (.words ["case", v])
  if isDefault then fallThrough values ++ [.group [some (.atom "default")] body]
  else fallThrough values.dropLast ++ [.group (labelled "case" (values.getLast?.getD [])) body]

/-- The section of a label: it runs when the label is the current one. -/
def section_ (place : LabelPlace) (body : List Line) : Line :=
  let test : Form := .list [.atom "i32.eq", .words ["get_local", Name.currentLabel place.group],
    .words ["i32.const", Bytes.ofNat place.index]]
  .group [some (.atom "if"), some test] (Shape.block body)

/-- A label group around its sections: it starts with the first label, and falling off the last
section leaves it. -/
def groupLines (group : Nat) (sections : List Line) : List Line :=
  [.form (.list [.atom "set_local", .atom (Name.currentLabel group), .words ["i32.const", "0"]]),
   .group (labelled "loop" (Name.labelGroup group))
    [.group (labelled "block" (Name.dispatch group))
      (sections ++ [.form (.words ["br", Name.labelGroup group])])]]

/-- Refuse a group whose labels are not where the table has them. -/
def checkLabels (span : Span) (group : Nat) : Nat → List Label → Result Unit
  | _, [] => .ok ()
  | index, l :: rest =>
    let place := (labels.place? l.name).getD {}
    if place = ⟨group, index⟩ then checkLabels span group (index + 1) rest
    else
      Result.problem .labelGroup span
        ("expected label " ++ l.name ++ " to be in label group " ++ Bytes.ofNat group ++ " at "
          ++ Bytes.ofNat index ++ " but got " ++ Bytes.ofNat place.group ++ " at "
          ++ Bytes.ofNat place.index)

/-- Whether a block with this only statement is as good as the statement. -/
def collapses (s : Stmt) : Bool := s.kind = 1 || s.kind = 2

/-- The line of a goto. -/
def gotoLine (nest : Nest) (span : Span) (label : Bytes) : Work (List Line) :=
  match labels.place? label with
  | none => Work.problem .undeclaredLabel span ("goto " ++ label ++ ": no such label")
  | some place =>
    if nest.groups.contains place.group then return [.form (gotoForm place)]
    else
      Work.problem .undeclaredLabel span
        ("goto " ++ label ++ ": label group " ++ Bytes.ofNat place.group
          ++ " does not enclose the goto")

/-- The line of a break or continue. -/
def branchLine (nest : Nest) (span : Span) (isContinue : Bool) (target : LoopIndex) :
    Work (List Line) :=
  let found := if isContinue then nest.continueLabel? target else nest.breakLabel? target
  match found with
  | some label => pure [.form (.words ["br", label])]
  | none =>
    Work.problem .noEnclosingLoop span
      (if isContinue then "continue outside of a loop"
        else "break outside of a loop or switch" : Bytes)

mutual

/-- The lines of a statement. -/
def stmt (nest : Nest) (shape : Shape) (s : Stmt) : StmtM (List Line) :=
  match s with
  | .missing => pure shape.nothing
  | .block _ stmts => blockRows nest shape stmts
  | .expr _ e => do
    lookAt e
    match ← expr env false e with
    | some f => return [.form f]
    | none => return shape.nothing
  | .ite _ cond yes no => do
    let c ← expr env true cond
    let yes' ← stmt nest .arm yes
    let no' ← if no.isMissing then pure [] else stmt nest .arm no
    return [.group [some (.atom "if"), c] (yes' ++ no')]
  | .forLoop m own init cond post body => do
    let init' ← stmtRows nest init
    let index ← indexOf m own
    let test ← guard env cond index
    let body' ← stmt (nest.within false index) .body body
    let post' ← effects env (Rows.items post)
    return shape.several (init' ++ [.group (labelled "loop" (Name.loop index))
      (test ++ [.group (labelled "block" (Name.continue_ index)) body'] ++ post')])
  | .whileLoop m testLast own cond body => do
    let index ← indexOf m own
    if testLast then
      let body' ← stmt (nest.within false index) .body body
      let test ← guard env cond index
      return [.group (labelled "loop" (Name.loop index))
        ([.group (labelled "block" (Name.continue_ index)) body'] ++ test)]
    else
      let test ← guard env cond index
      let body' ← stmt (nest.within false index) .body body
      return [.group (labelled "loop" (Name.loop index))
        (test ++ [.group (labelled "block" (Name.continue_ index)) body'])]
  | .labelGroup m rows => do
    match labels.group? m.id with
    | none =>
      throw (.problem (.fatal .labelGroup m.span
        ("label group #" ++ Bytes.ofNat m.id.toNat ++ " was not registered")))
    | some group =>
      if (Rows.items rows).isEmpty then return shape.several []
      checkLabels labels m.span group 0 (Rows.items rows)
      let sections ← sectionRows (nest.withinGroup group) group rows
      return shape.several (groupLines group sections)
  | .goto m label => gotoLine labels nest m.span label
  | .branch m isContinue target => branchLine nest m.span isContinue target
  | .ret _ value => do
    if value.isMissing then
      return if env.isTopLevel then [] else [.form (.words ["return"])]
    else return [.form (.app "return" [← expr env true value])]
  | .switch m own key cases => do
    let k ← expr env true key
    lookAt key
    match (env.types.valueKeyword? key.type).filter (!·.isFloat) with
    | none =>
      let typeName ← Work.need .endless (env.types.name? key.type)
      throw (.problem (.fatal .caseNotConstant m.span
        ("switch key of type " ++ typeName ++ " is not an integer")))
    | some kw =>
      let index ← indexOf m own
      let named ← caseRows (nest.within true index) m.span false cases
      let default ← caseRows (nest.within true index) m.span true cases
      return [.group (labelled "block" (Name.switch index))
        [.group [some (.atom (kw.text ++ ".switch")), k] (named ++ default)]]
  | .varDecl _ vars => do return shape.several (← varInits env (Rows.items vars))
  | .bare m kind => do
    env.warn .untranslatable m.span
      ("statement " ++ Stmt.kindName kind ++ " is not supported")
    return [.form (.words ["untranslatable." ++ Stmt.kindName kind])]

/-- The lines of a block. -/
def blockRows (nest : Nest) (shape : Shape) : Option (List Stmt) → StmtM (List Line)
  | none => pure (shape.ofBlock true [])
  | some l => blockItems nest shape l

/-- The lines of a block. A block with a single block or expression in it is as good as that. -/
def blockItems (nest : Nest) (shape : Shape) : List Stmt → StmtM (List Line)
  | [] => pure (shape.ofBlock true [])
  | s :: rest => do
    if rest.isEmpty && collapses s then stmt nest shape s
    else
      let first ← stmt nest .plain s
      let more ← stmts nest rest
      return shape.ofBlock false (first ++ more)

/-- The lines of a list of statements that may be left out. -/
def stmtRows (nest : Nest) : Option (List Stmt) → StmtM (List Line)
  | none => pure []
  | some l => stmts nest l

/-- The lines of a list of statements. -/
def stmts (nest : Nest) : List Stmt → StmtM (List Line)
  | [] => pure []
  | s :: rest => do
    let first ← stmt nest .plain s
    let more ← stmts nest rest
    return first ++ more

/-- The sections of a label group. -/
def sectionRows (nest : Nest) (group : Nat) : Option (List Label) → StmtM (List Line)
  | none => pure []
  | some l => sections nest group 0 l

/-- The sections of labels from a position on. A section that may fall off its end goes to the next
one. -/
def sections (nest : Nest) (group : Nat) (index : Nat) : List Label → StmtM (List Line)
  | [] => pure []
  | .mk _ body :: rest => do
    let lines ← stmtRows nest body
    let next : List Line :=
      if rest.isEmpty || Stmt.rowsTerminal body then []
      else [.form (gotoForm ⟨group, index + 1⟩)]
    let more ← sections nest group (index + 1) rest
    return section_ ⟨group, index⟩ (lines ++ next) :: more

/-- The default arms of a switch, or the others. -/
def caseRows (nest : Nest) (span : Span) (isDefault : Bool) :
    Option (List Case) → StmtM (List Line)
  | none => pure []
  | some l => cases nest span isDefault l

/-- The default arms of a switch, or the others. -/
def cases (nest : Nest) (span : Span) (wanted : Bool) : List Case → StmtM (List Line)
  | [] => pure []
  | .mk values isDefault body :: rest => do
    if isDefault == wanted then
      if !isDefault && (Rows.items values).isEmpty then
        throw (.problem (.fatal .caseWithoutValues span "non-default switch case has no values"))
      let texts ← caseValues (Rows.items values)
      let lines ← stmtRows nest body
      let more ← cases nest span wanted rest
      return caseLines isDefault texts lines ++ more
    else cases nest span wanted rest

end

/-- The lines of the body of a function, whose outermost block stands for the function itself. -/
def rootLines (root : Stmt) : StmtM (List Line) :=
  match root with
  | .block _ rows => stmtRows env labels {} rows
  | s => stmt env labels {} .plain s

end WastForge.Emit
