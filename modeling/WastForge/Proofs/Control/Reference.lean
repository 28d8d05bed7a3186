import WastForge.Emit.Stmt
import WastForge.Proofs.Emit.Emits
import WastForge.Proofs.Machine.Construct

/-!
# What statements mean

Statements are given a meaning that knows no labels of blocks and no locals for label groups: a
break, a continue or a goto is a way of ending, which goes outwards to the loop, switch or label
group that it means. Only expressions are left to the machine, by their code.
-/

namespace WastForge.Control

open Eval Emit

/-- How a statement ends. -/
inductive Ending where
  /-- It falls off its end, with the value of what ran last. -/
  | done (v : Value)
  /-- A break of the innermost loop or switch, or of the one with the index. -/
  | leave (target : LoopIndex)
  /-- A continue of the innermost loop, or of the one with the index. -/
  | again (target : LoopIndex)
  | goto (label : Bytes)
  /-- A return, a trap, or a crash. -/
  | stop (s : Stop)
  deriving DecidableEq

/-- Whether a target means the loop or switch with the index `i`, as the innermost one. -/
def meant (i target : LoopIndex) : Bool := !target.isValid || i = target

namespace Ending

/-- Whether a statement fell off its end. -/
def isDone : Ending → Bool
  | .done _ => true
  | _ => false

/-- Whether this is a break of the loop or switch with the index `i`. -/
def breaks (i : LoopIndex) : Ending → Bool
  | .leave t => meant i t
  | _ => false

/-- Whether this is a continue of the loop with the index `i`. -/
def continues (i : LoopIndex) : Ending → Bool
  | .again t => meant i t
  | _ => false

/-- How code of an expression ended. -/
def ofOutcome : Except Stop Value → Ending
  | .ok v => .done v
  | .error s => .stop s

end Ending

/-- What a statement does: from the value of what ran before it and from a machine, how it ends,
and with which machine. -/
abbrev Behaviour := Value → Machine → Ending → Machine → Prop

namespace Behaviour

/-- Do nothing. -/
def skip : Behaviour := fun v m e m' => e = .done v ∧ m' = m

/-- End at once. -/
def ends (e : Ending) : Behaviour := fun _ m e' m' => e' = e ∧ m' = m

/-- One behaviour after another, unless the first one does not fall off its end. -/
def seq (a b : Behaviour) : Behaviour := fun v m e m' =>
  (∃ u m₁, a v m (.done u) m₁ ∧ b u m₁ e m') ∨ a v m e m' ∧ e.isDone = false

/-- A behaviour for which the endings of `caught` are falling off the end. -/
def catching (caught : Ending → Bool) (a : Behaviour) : Behaviour := fun v m e m' =>
  ∃ e₀, a v m e₀ m' ∧ e = if caught e₀ then .done .void else e₀

/-- A behaviour on its own: nothing ran before it. -/
def fresh (a : Behaviour) : Behaviour := fun _ m e m' => a .void m e m'

/-- What comes next depends on whether the value of the first behaviour is true. -/
def choose (a yes no : Behaviour) : Behaviour := fun _ m e m' =>
  (∃ v m₁, a .void m (.done v) m₁ ∧ (if v.isTrue then yes else no) .void m₁ e m')
    ∨ a .void m e m' ∧ e.isDone = false

/-- Repeat a behaviour until it does not fall off its end; the endings of `leaves` leave the
repetition normally. -/
inductive Rounds (leaves : Ending → Bool) (a : Behaviour) : Machine → Ending → Machine → Prop where
  | leave {m m' : Machine} {e : Ending} (h : a .void m e m') (he : leaves e = true) :
    Rounds leaves a m (.done .void) m'
  | stop {m m' : Machine} {e : Ending} (h : a .void m e m') (he : leaves e = false)
    (hdone : e.isDone = false) : Rounds leaves a m e m'
  | again {m m₁ m' : Machine} {v : Value} {e : Ending} (h : a .void m (.done v) m₁)
    (hrest : Rounds leaves a m₁ e m') : Rounds leaves a m e m'

/-- A loop with the index `i`. In every round `before` comes first, then the body, which a continue
ends, and then `after`. A break ends the loop. -/
def loop (i : LoopIndex) (before body after : Behaviour) : Behaviour := fun _ =>
  Rounds (Ending.breaks i) (before.seq ((body.fresh.catching (Ending.continues i)).seq after))

/-- A label group that goes on with the section at a position. -/
inductive Sections (sections : List (Bytes × Behaviour)) :
    Nat → Machine → Ending → Machine → Prop where
  /-- A goto to a label of the group goes on with its section. -/
  | goto {i k : Nat} {l label : Bytes} {a b : Behaviour} {m m₁ m' : Machine} {e : Ending}
    (hi : sections[i]? = some (l, a)) (h : a .void m (.goto label) m₁)
    (hk : sections[k]? = some (label, b)) (hrest : Sections sections k m₁ e m') :
    Sections sections i m e m'
  /-- A section that falls off its end goes on with the next one. -/
  | next {i : Nat} {l : Bytes} {a : Behaviour} {m m₁ m' : Machine} {v : Value} {e : Ending}
    (hi : sections[i]? = some (l, a)) (h : a .void m (.done v) m₁)
    (hnext : i + 1 < sections.length) (hrest : Sections sections (i + 1) m₁ e m') :
    Sections sections i m e m'
  /-- The last section leaves the group by falling off its end. -/
  | finish {i : Nat} {l : Bytes} {a : Behaviour} {m m' : Machine} {v : Value}
    (hi : sections[i]? = some (l, a)) (h : a .void m (.done v) m')
    (hlast : i + 1 = sections.length) : Sections sections i m (.done .void) m'
  /-- Any other ending of a section is that of the group. -/
  | leave {i : Nat} {l : Bytes} {a : Behaviour} {m m' : Machine} {e : Ending}
    (hi : sections[i]? = some (l, a)) (h : a .void m e m') (hdone : e.isDone = false)
    (hgoto : ∀ p ∈ sections, e ≠ .goto p.1) : Sections sections i m e m'

/-- A label group, which starts with its first section. -/
def group (sections : List (Bytes × Behaviour)) : Behaviour := fun _ => Sections sections 0

/-- What a switch does after its key. -/
def selected (kw : Keyword) (key : Value) (arms : List (Arm Behaviour)) : Behaviour :=
  fun _ m e m' =>
    match Arm.select kw key.bits arms with
    | .error t => e = .stop (.trap t.plain) ∧ m' = m
    | .ok none => e = .done .void ∧ m' = m
    | .ok (some a) => (a.fresh.catching Ending.isDone) .void m e m'

/-- A switch with the index `i`, which a break ends. -/
def switch (i : LoopIndex) (kw : Keyword) (key : Behaviour) (arms : List (Arm Behaviour)) :
    Behaviour :=
  catching (Ending.breaks i) fun _ m e m' =>
    (∃ v m₁, key .void m (.done v) m₁ ∧ selected kw v arms .void m₁ e m')
      ∨ key .void m e m' ∧ e.isDone = false

end Behaviour

/-- The code of an expression. -/
def codeOf (env : Env) (want : Bool) (e : Expr) : Option Form := (expr env want e).result?.join

/-- Where statements run: what their code is written against, the indices that were chosen for
loops, what the run is given, and the function. -/
structure Setting where
  env : Env
  numbers : LoopNumbers
  world : MachineEnv
  frame : Frame

namespace Setting

variable (c : Setting)

/-- Forms that the machine evaluates one after the other. -/
def code (fs : List Form) : Behaviour := fun v m e m' =>
  ∃ o, SeqEnds c.world c.frame fs v m o m' ∧ e = Ending.ofOutcome o

/-- An expression as a statement; nothing if it has no code. -/
def perform (e : Expr) : Behaviour :=
  match codeOf c.env false e with
  | none => .skip
  | some f => c.code [f]

/-- Expressions one after the other, for their effects. -/
def effects (l : List Expr) : Behaviour :=
  c.code (Line.formsAll ((Emit.effects c.env l).result?.getD []))

/-- The first values of variables. -/
def inits (l : List VarInit) : Behaviour :=
  c.code (Line.formsAll ((varInits c.env l).result?.getD []))

/-- The condition of a loop: the loop is left where it is false. A condition without code is never
false, and a missing one is not tested. -/
def test (cond : Expr) : Behaviour :=
  if cond.isMissing then .skip
  else
    match codeOf c.env true cond with
    | none => .ends (.done .void)
    | some f => .choose (c.code [f]) (.ends (.done .void)) (.ends (.leave noIndex))

/-- Return from the function, with the value of an expression if it has one. -/
def return_ (value : Expr) : Behaviour :=
  match codeOf c.env true value with
  | none => .ends (.stop (.ret .void))
  | some f => fun _ m e m' =>
    (∃ v, c.code [f] .void m (.done v) m' ∧ e = .stop (.ret v))
      ∨ c.code [f] .void m e m' ∧ e.isDone = false

/-- The index of a loop or switch: its own one, or the one that was chosen for its statement. -/
def indexOf (m : Mark) (own : LoopIndex) : LoopIndex :=
  if own.isValid then own else (c.numbers.chosen.lookup m.id).getD own

/-- The trap of a condition that is not there. -/
def badIf : Stop := .trap { code := .badOperand, message := "malformed if with 1 operands" }

/-- The trap of a switch in which the first arm stands in place of the key. -/
def badSwitch {β : Type} : List (Arm β) → Stop
  | [] => .trap { code := .badOperand, message := "switch without a key" }
  | a :: _ =>
    .trap
      { code := .unknownName
        message := "unknown instruction "
          ++ Quoted.text (if a.value.isSome then "case" else "default") }

end Setting

/-- The numbers among the values of an arm, as texts. -/
def caseTexts (values : List Expr) : List Bytes :=
  (values.filterMap Expr.intConstant?).map fun n => Bytes.ofInt n.toInt

/-- An arm of a switch: its values are arms of their own, of which all fall through. The body is
that of the last value, or of the default arm behind them. -/
def armsOf {β : Type} (isDefault : Bool) (values : List Bytes) (body : Option β) : List (Arm β) :=
  let empty (vs : List Bytes) : List (Arm β) := vs.map fun v => ⟨some v, none⟩
  if isDefault then empty values ++ [⟨none, body⟩]
  else empty values.dropLast ++ [⟨some (values.getLast?.getD []), body⟩]

mutual

/-- Whether a statement leaves any code. -/
def hasCode (env : Env) : Stmt → Bool
  | .missing => false
  | .block _ stmts => blockHasCode env stmts
  | .expr _ e => (codeOf env false e).isSome
  | .labelGroup _ rows => !(Rows.items rows).isEmpty
  | .varDecl _ vars => (Rows.items vars).any fun v => !v.init.isMissing
  | _ => true

/-- Whether a block leaves any code. -/
def blockHasCode (env : Env) : Option (List Stmt) → Bool
  | none => false
  | some l => itemsHaveCode env l

/-- Whether a block of these statements leaves any code. -/
def itemsHaveCode (env : Env) : List Stmt → Bool
  | [] => false
  | s :: rest => if rest.isEmpty && collapses s then hasCode env s else true

end

/-- Whether any of the statements leaves code. -/
def anyCode (env : Env) (rows : Rows Stmt) : Bool := (Rows.items rows).any (hasCode env)

mutual

/-- What a statement does. -/
def behave (c : Setting) : Stmt → Behaviour
  | .missing => .skip
  | .block _ stmts => behaveBlock c stmts
  | .expr _ e => c.perform e
  | .ite _ cond yes no =>
    match codeOf c.env true cond with
    | some f =>
      .choose (c.code [f]) (behave c yes)
        (if no.isMissing then .ends (.done .void) else behave c no)
    | none =>
      -- the first arm stands in place of the condition
      if no.isMissing then .ends (.stop Setting.badIf)
      else .choose (behave c yes) (behave c no) (.ends (.done .void))
  | .forLoop m own init cond post body =>
    .seq (behaveRows c init)
      (.loop (c.indexOf m own) (c.test cond) (behave c body) (c.effects (Rows.items post)))
  | .whileLoop m testLast own cond body =>
    if testLast then .loop (c.indexOf m own) .skip (behave c body) (c.test cond)
    else .loop (c.indexOf m own) (c.test cond) (behave c body) .skip
  | .labelGroup _ rows =>
    if (Rows.items rows).isEmpty then .skip else .group (behaveLabelRows c rows)
  | .goto _ label => .ends (.goto label)
  | .branch _ isContinue target => .ends (if isContinue then .again target else .leave target)
  | .ret _ value => c.return_ value
  | .switch m own key cases =>
    let kw := (c.env.types.valueKeyword? key.type).getD .i32
    let arms := behaveCaseRows c false cases ++ behaveCaseRows c true cases
    match codeOf c.env true key with
    | some f => .switch (c.indexOf m own) kw (c.code [f]) arms
    | none => .ends (.stop (Setting.badSwitch arms))
  | .varDecl _ vars => c.inits (Rows.items vars)
  | .bare _ kind => c.code [.words ["untranslatable." ++ Stmt.kindName kind]]

/-- What a block does. -/
def behaveBlock (c : Setting) : Option (List Stmt) → Behaviour
  | none => .skip
  | some l => behaveItems c l

/-- What a block of these statements does. A block of a single block or expression is as good as
that. -/
def behaveItems (c : Setting) : List Stmt → Behaviour
  | [] => .skip
  | s :: rest =>
    if rest.isEmpty && collapses s then behave c s
    else .fresh (.seq (behave c s) (behaveAll c rest))

/-- What statements do one after the other. -/
def behaveRows (c : Setting) : Option (List Stmt) → Behaviour
  | none => .skip
  | some l => behaveAll c l

/-- What statements do one after the other. -/
def behaveAll (c : Setting) : List Stmt → Behaviour
  | [] => .skip
  | s :: rest => .seq (behave c s) (behaveAll c rest)

/-- The sections of a label group. -/
def behaveLabelRows (c : Setting) : Option (List Label) → List (Bytes × Behaviour)
  | none => []
  | some l => behaveLabels c l

/-- The sections of labels. -/
def behaveLabels (c : Setting) : List Label → List (Bytes × Behaviour)
  | [] => []
  | .mk name body :: rest => (name, behaveRows c body) :: behaveLabels c rest

/-- The default arms of a switch, or the others. -/
def behaveCaseRows (c : Setting) (wanted : Bool) : Option (List Case) → List (Arm Behaviour)
  | none => []
  | some l => behaveCases c wanted l

/-- The default arms of a switch, or the others. -/
def behaveCases (c : Setting) (wanted : Bool) : List Case → List (Arm Behaviour)
  | [] => []
  | .mk values isDefault body :: rest =>
    if isDefault == wanted then
      armsOf isDefault (caseTexts (Rows.items values))
        (if anyCode c.env body then some (behaveRows c body) else none)
        ++ behaveCases c wanted rest
    else behaveCases c wanted rest

end

/-! ## Directives -/

mutual

/-- What a statement of the entry point does, one part for every directive that it is written as. -/
def parts (c : Setting) : Stmt → List Behaviour
  | .missing => []
  | .block _ rows => blockParts c rows
  | .expr _ e => if (codeOf c.env false e).isSome then [c.perform e] else []
  | .forLoop m own init cond post body =>
    rowsParts c init
      ++ [.loop (c.indexOf m own) (c.test cond) (behave c body) (c.effects (Rows.items post))]
  | .labelGroup _ rows =>
    -- the group starts with its first label, whose position is set before
    if (Rows.items rows).isEmpty then []
    else [.ends (.done (.i32 0)), .group (behaveLabelRows c rows)]
  | .varDecl _ vars =>
    (Line.formsAll ((varInits c.env (Rows.items vars)).result?.getD [])).map fun f => c.code [f]
  | s => [behave c s]

/-- The parts of a block, which is a single one unless it is as good as its only statement. -/
def blockParts (c : Setting) : Option (List Stmt) → List Behaviour
  | none => []
  | some l => itemParts c l

/-- The parts of a block of these statements. -/
def itemParts (c : Setting) : List Stmt → List Behaviour
  | [] => []
  | s :: rest =>
    if rest.isEmpty && collapses s then parts c s else [behaveItems c (s :: rest)]

/-- The parts of statements one after the other. -/
def rowsParts (c : Setting) : Option (List Stmt) → List Behaviour
  | none => []
  | some l => allParts c l

/-- The parts of statements one after the other. -/
def allParts (c : Setting) : List Stmt → List Behaviour
  | [] => []
  | s :: rest => parts c s ++ allParts c rest

end

/-- The parts of the body of the entry point, whose outermost block stands for the function. -/
def rootParts (c : Setting) : Stmt → List Behaviour
  | .block _ rows => rowsParts c rows
  | s => parts c s

end WastForge.Control
