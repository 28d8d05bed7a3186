import WastForge.Diagnostic.Bag
import WastForge.Emit.Module
import WastForge.Timing

/-!
# Compiling a program

A compilation gives a module or a failure, and in both cases the diagnostics: warnings pass the
filter and fill the bag first, and a failure comes last, if there is room for it.
-/

namespace WastForge

/-- The outcome of a compilation. -/
structure Compiled where
  name : Bytes := []
  outcome : Result ModuleOutput
  bag : Bag
  files : FileSet := {}
  /-- What happened, the latest entry first. -/
  journal : Journal := []

/-- Whether the process ends in the middle of the compilation. -/
def Compiled.crashes (c : Compiled) : Bool := c.outcome.crash?.isSome

/-- The passes of a compilation. The time that they take is not counted. -/
def Compiled.timing (c : Compiled) : TimingReport where
  phases := c.journal.reverse.filterMap fun
    | .enter scope name => if scope = .pass then some { name := name } else none
    | _ => none

/-- Put the warnings of a journal and the failure of the work into a bag. Without a failure the
diagnostics are listed by place. -/
def Bag.ofWork {α : Type} (limit : Int) (journal : Journal) (outcome : Result α) : Bag :=
  let filled := (FilteredBag.reportAll { bag := Bag.ofLimit limit } journal.warnings).bag
  match outcome with
  | .ok _ => filled.sort
  | .error f => filled.add f.diagnostic

/-- Compile a program, keeping at most `limit` diagnostics. -/
def Program.compile (p : Program) (limit : Int) : Compiled :=
  let (outcome, journal) := p.emit.run []
  { name := p.name
    outcome := outcome
    bag := Bag.ofWork limit journal outcome
    files := p.files
    journal := journal }

end WastForge
