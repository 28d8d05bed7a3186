import WastForge.Proofs.Control.Reference
import WastForge.Proofs.Emit.Emits

/-!
# Jumps of the source

Which construct every jump of a program means, by the indices of its statements alone. A construct
has one or two places that jumps go to: a loop is left or begins its next round, a switch is left, a
label group is left or chooses its next section.

The labels of loops and switches without an index have numbers, which are given in order. A place
whose number is the index of another one is a decoy for the jumps that name this index.
-/

namespace WastForge

/-- A place that jumps go to. -/
inductive Slot where
  /-- The loop with an index, which a break leaves. The number is that of its label. -/
  | loop (index number : LoopIndex)
  /-- The body of the loop with an index, which a continue leaves. -/
  | body (index number : LoopIndex)
  /-- The switch with an index, which a break leaves. -/
  | switch (index number : LoopIndex)
  /-- The group of these labels, which is left when its last section falls off its end. -/
  | group (labels : List Bytes)
  /-- The sections of these labels, which a goto leaves for the next one. -/
  | section_ (labels : List Bytes)
  deriving Repr, DecidableEq

namespace Slot

/-- Whether a break with a target leaves this: the innermost loop or switch, or the one with the
index. -/
def isBroken (target : LoopIndex) : Slot → Bool
  | loop i _ | switch i _ => Control.meant i target
  | _ => false

/-- Whether a continue with a target leaves this: the innermost loop body, or the one with the
index. -/
def isContinued (target : LoopIndex) : Slot → Bool
  | body i _ => Control.meant i target
  | _ => false

/-- Whether a break or continue with a target leaves this. -/
def isLeft (isContinue : Bool) (target : LoopIndex) (s : Slot) : Bool :=
  if isContinue then s.isContinued target else s.isBroken target

/-- Whether this has no index, but a number that is the target of a break or continue. -/
def passesFor (isContinue : Bool) (target : LoopIndex) : Slot → Bool
  | loop i n | switch i n => !isContinue && (target.isValid && !i.isValid && n = target)
  | body i n => isContinue && (target.isValid && !i.isValid && n = target)
  | _ => false

/-- Whether a goto to a label leaves this: the sections of the group that declares the label. -/
def declares (label : Bytes) : Slot → Bool
  | section_ labels => labels.contains label
  | _ => false

end Slot

/-- A jump: the places around it, the innermost first, and the one among them that it goes to. -/
structure Jump where
  around : List Slot
  target : Option Nat
  /-- The innermost place whose number is the index that the jump names. -/
  decoy : Option Nat := none
  deriving Repr, DecidableEq

namespace Jump

/-- No decoy lies inside of the place that the jump goes to. -/
def IsClear (j : Jump) : Prop := ∀ d ∈ j.decoy, ∃ n ∈ j.target, n ≤ d

instance (j : Jump) : Decidable j.IsClear :=
  decidable_of_iff (j.decoy.all fun d => j.target.any fun n => n ≤ d) (by
    simp [IsClear, Option.all_eq_true, Option.any_eq_true])

/-- The place whose label the code of the jump names. -/
def reached (j : Jump) : Option Nat := if j.IsClear then j.target else j.decoy

end Jump

namespace Stmt

/-- The number of a loop or switch: its own index, or the one that its statement is given. -/
def pick (m : Mark) (own : LoopIndex) : StateM Emit.LoopNumbers LoopIndex := fun n =>
  if own.isValid then (own, n)
  else
    match n.chosen.lookup m.id with
    | some index => (index, n)
    | none => (n.next, { next := n.next + 1, chosen := (m.id, n.next) :: n.chosen })

/-- A loop leaves itself when its condition is false. -/
def exits (around : List Slot) (own n : LoopIndex) (cond : Expr) : List Jump :=
  if cond.isMissing then [] else [{ around := .loop own n :: around, target := some 0 }]

mutual

/-- The jumps of a statement, in order. -/
def jumps (around : List Slot) : Stmt → StateM Emit.LoopNumbers (List Jump)
  | .block _ rows => jumpsRows around rows
  | .ite _ _ yes no => do
    let a ← jumps around yes
    let b ← jumps around no
    return a ++ b
  | .forLoop m own init cond _ body => do
    let a ← jumpsRows around init
    let n ← pick m own
    let b ← jumps (.body own n :: .loop own n :: around) body
    return a ++ (exits around own n cond ++ b)
  | .whileLoop m testLast own cond body => do
    let n ← pick m own
    let b ← jumps (.body own n :: .loop own n :: around) body
    return if testLast then b ++ exits around own n cond else exits around own n cond ++ b
  | .labelGroup _ rows => do
    if (Rows.items rows).isEmpty then return []
    let labels := (Rows.items rows).map Label.name
    let inner := .section_ labels :: .group labels :: around
    let a ← jumpsLabelRows inner rows
    return a ++ [{ around := inner, target := some 1 }]
  | .goto _ label => return [{ around, target := around.findIdx? (·.declares label) }]
  | .branch _ isContinue target =>
    return [{
      around
      target := around.findIdx? (·.isLeft isContinue target)
      decoy := around.findIdx? (·.passesFor isContinue target) }]
  | .switch m own _ cases => do
    let n ← pick m own
    let a ← jumpsCaseRows (.switch own n :: around) false cases
    let b ← jumpsCaseRows (.switch own n :: around) true cases
    return a ++ b
  | .missing | .expr .. | .ret .. | .varDecl .. | .bare .. => return []

/-- The jumps of statements one after the other. -/
def jumpsRows (around : List Slot) : Option (List Stmt) → StateM Emit.LoopNumbers (List Jump)
  | none => return []
  | some l => jumpsAll around l

/-- The jumps of statements one after the other. -/
def jumpsAll (around : List Slot) : List Stmt → StateM Emit.LoopNumbers (List Jump)
  | [] => return []
  | s :: rest => do
    let a ← jumps around s
    let b ← jumpsAll around rest
    return a ++ b

/-- The jumps of the sections of a label group. -/
def jumpsLabelRows (around : List Slot) : Option (List Label) → StateM Emit.LoopNumbers (List Jump)
  | none => return []
  | some l => jumpsLabels around l

/-- The jumps of sections. One that may fall off its end goes on with the next one. -/
def jumpsLabels (around : List Slot) : List Label → StateM Emit.LoopNumbers (List Jump)
  | [] => return []
  | .mk _ body :: rest => do
    let a ← jumpsRows around body
    let b ← jumpsLabels around rest
    let next : List Jump :=
      if rest.isEmpty || Stmt.rowsTerminal body then [] else [{ around, target := some 0 }]
    return a ++ next ++ b

/-- The jumps of the default arms of a switch, or of the others. -/
def jumpsCaseRows (around : List Slot) (wanted : Bool) :
    Option (List Case) → StateM Emit.LoopNumbers (List Jump)
  | none => return []
  | some l => jumpsCases around wanted l

/-- The jumps of the default arms of a switch, or of the others. -/
def jumpsCases (around : List Slot) (wanted : Bool) :
    List Case → StateM Emit.LoopNumbers (List Jump)
  | [] => return []
  | .mk _ isDefault body :: rest => do
    let a ← if isDefault == wanted then jumpsRows around body else pure []
    let b ← jumpsCases around wanted rest
    return a ++ b

end

end Stmt

namespace Program

/-- The jumps of bodies one after the other, with the number for the next loop without an index. -/
def bodiesJumps (next : LoopIndex) : List Body → List Jump × LoopIndex
  | [] => ([], next)
  | b :: rest =>
    let (js, numbers) := (b.root.jumps []).run { next := next }
    let (more, next) := bodiesJumps numbers.next rest
    (js ++ more, next)

/-- The jumps of the functions that are part of the module. -/
def functionJumps (p : Program) : List Jump × LoopIndex :=
  bodiesJumps ({} : Emit.LoopNumbers).next (p.bodies.filter fun b =>
    p.entryPoint?.map (·.id) ≠ some b.id && !p.leftOut.contains b.id)

/-- The jumps of the entry point. -/
def entryJumps (p : Program) (next : LoopIndex) (b : Body) : List Jump :=
  let root := ((p.bodies.find? (·.id = b.id)).map (·.root)).getD .missing
  (bodiesJumps next [{ b with root := root }]).1

/-- The jumps of the functions of a program and of its entry point. -/
def jumps (p : Program) : List Jump :=
  p.functionJumps.1 ++ p.entryPoint?.elim [] (p.entryJumps p.functionJumps.2)

end Program

end WastForge
