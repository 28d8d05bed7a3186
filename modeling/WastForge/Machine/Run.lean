import WastForge.Machine.Eval
import WastForge.Trace.Journal

/-!
# Running a script

The directives of a script run one after the other against its module. A trap ends its directive
only; a return ends the run, and a crash ends the process that runs the script.
-/

namespace WastForge

/-- What came out of a run. -/
structure RunReport where
  passed : Nat := 0
  failed : Nat := 0
  traps : Nat := 0
  /-- The directives and their results. -/
  printed : Bytes := []
  output : Output := {}
  deriving Repr, DecidableEq, Inhabited

namespace RunReport

/-- One if anything went wrong. -/
def exitCode (r : RunReport) : Nat := if r.failed > 0 || r.traps > 0 then 1 else 0

/-- The numbers of a run on one line. -/
def summary (r : RunReport) : Bytes :=
  "passed=" ++ Bytes.ofNat r.passed ++ " failed=" ++ Bytes.ofNat r.failed ++ " traps="
    ++ Bytes.ofNat r.traps

end RunReport

namespace Machine

/-- The machine before the first directive: a memory with the segments of the module in it. -/
def start (mod : Script.Module) : Except Trap Machine := do
  let memory ← mod.segments.foldlM (fun mem s => mem.write s.offset s.data)
    (Memory.ofSize mod.memory)
  return { memory := memory }

/-- What came out so far. -/
def report (m : Machine) : RunReport where
  passed := m.passed
  failed := m.failed
  traps := m.traps
  printed := m.printed.reverse.flatten
  output := m.output

/-- What comes after a directive. -/
inductive Next where
  /-- The directives behind it. -/
  | goOn
  /-- Nothing more, since it returned. -/
  | over
  /-- Not even a report, since it ended the process that runs the script. -/
  | crash
  deriving Repr, DecidableEq, Inhabited

/-- Run a directive. -/
def directive (env : MachineEnv) (n : SourceForm) (m : Machine) : Next × Machine :=
  let trapped (t : Trap) (m : Machine) : Machine :=
    let m : Machine :=
      if m.pending then m
      else { m with printed := ("(" ++ n.head ++ " ...)\n") :: m.printed }
    { m with
      traps := m.traps + 1
      printed := ("-> trap: " ++ t.text ++ "\n") :: m.printed
      pending := false }
  match Eval.run env (env.maxSteps + 1) {} n { m with steps := 0, pending := false } with
  | .ok _ m => (.goOn, m)
  | .error (.ret _) m => (.over, m)
  | .error (.branch label) m =>
    (.goOn, trapped { code := .unknownName, message := "br to unknown label " ++ label } m)
  | .error (.trap t) m => (.goOn, trapped t m)
  | .error .crash m => (.crash, m)

/-- Run directives as long as they go on. -/
def directives (env : MachineEnv) : List SourceForm → Machine → Next × Machine
  | [], m => (.goOn, m)
  | n :: rest, m =>
    match directive env n m with
    | (.goOn, m) => directives env rest m
    | (next, m) => (next, m)

end Machine

/-- What a run needs besides its text. -/
structure RunOptions where
  /-- How many forms a directive may evaluate; nothing is said by a number that is not positive. -/
  maxSteps : Int := 0
  /-- Look up a file to compare the memory with: its contents, or why there are none. -/
  readFile : Bytes → Except Bytes Bytes := fun _ => .error []
  /-- Whether the run was called off before it began. -/
  cancelled : Bool := false

/-- How many steps the options allow. -/
def RunOptions.steps (o : RunOptions) : Nat :=
  if o.maxSteps ≤ 0 then defaultMaxSteps else o.maxSteps.toNat

/-- Why work that was called off did not go on. -/
def cancelFailure : Failure := .other "context canceled"

namespace Script

/-- Run a script. With the report, or without one, comes what the journal says of the end; of a
crash it says nothing. -/
def execute (text : Bytes) (o : RunOptions) : Result RunReport × Bytes :=
  match read text with
  | .error f => (.error f, "parse failed")
  | .ok forms =>
    match instantiate forms with
    | .error f => (.error f, "instantiate failed")
    | .ok (mod, ds) =>
      match Machine.start mod with
      | .error t => (.error t.failure, "instantiate failed")
      | .ok m =>
        if o.cancelled && !ds.isEmpty then (.error cancelFailure, "canceled")
        else
          let env : MachineEnv := ⟨mod, o.steps, o.readFile⟩
          match Machine.directives env ds m with
          | (.crash, _) => (.error (.crash .absent), [])
          | (_, m) => (.ok m.report, m.report.summary)

/-- Run a script as a pass that is written down. -/
def run (text : Bytes) (o : RunOptions) : Work RunReport := fun j =>
  let (r, detail) := execute text o
  (r, .leave detail [] :: .enter .pass "run" :: j)

end Script

end WastForge
