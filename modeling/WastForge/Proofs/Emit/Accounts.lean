import WastForge.Proofs.Document.RoundTrip
import WastForge.Proofs.Emit.Output
import WastForge.Proofs.Emit.Slots
import WastForge.Proofs.Program.Functions

/-!
# Every function is accounted for

A function that is worked on has its statement numbers checked, its support calls expanded and its
strings and fields laid out, and in the end its code is part of the module, or it was left out with
a warning, or it is the entry point. All functions are worked on if no type has a second static
constructor.
-/

namespace WastForge

namespace Work

variable {α β : Type} {j j' : Journal}

theorem run_bind_ok {act : Work α} {next : α → Work β} {b : β}
    (h : (act >>= next).run j = (.ok b, j')) :
    ∃ a j₁, act.run j = (.ok a, j₁) ∧ (next a).run j₁ = (.ok b, j') := by
  rw [run_bind_eq] at h
  cases hrun : act.run j with
  | mk r j₁ =>
    rw [hrun] at h
    cases r with
    | error e => cases h
    | ok a => exact ⟨a, j₁, rfl, h⟩

theorem run_within_ok {scope : Scope} {name : Bytes} {act : Work α} {a : α}
    (h : (within scope name act).run j = (.ok a, j')) :
    ∃ j₁, act.run (.enter scope name :: j) = (.ok a, j₁) ∧ j' = .leave [] [] :: j₁ := by
  refine ⟨(act.run (.enter scope name :: j)).2, ?_, (Prod.mk.inj h).2.symm⟩
  exact Prod.ext (Prod.mk.inj h).1 rfl

end Work

namespace Emit

open Work

/-- What is said of a function that is left out. -/
def skippedWarning (f : Func) (why : Bytes) : JournalEntry :=
  .warning { Diagnostic.caution .skippedFunction f.span
      ("function " ++ f.qualifiedName ++ " skipped: " ++ why) with
    member := f.qualifiedName }

/-- Of every function that is left out there is a warning. -/
theorem warned_findSkipped {p : Program} {entry : Option FuncId} {b : Body} {text : Option Bytes}
    (hentry : entry ≠ some b.id) (hwhy : unsupportedSignature? p.types b.func = some text) :
    ∀ {bodies : List Body} {skipped : List FuncId} {j j' : Journal},
      (findSkipped p entry bodies).run j = (.ok skipped, j') → b ∈ bodies →
      ∃ why, skippedWarning b.func why ∈ j'
  | [], _, _, _, _, hb => absurd hb List.not_mem_nil
  | b' :: rest, skipped, j, j', h, hb => by
    unfold findSkipped at h
    rcases List.mem_cons.mp hb with rfl | hb
    · rw [if_neg hentry, hwhy] at h
      obtain ⟨why, _, _, h⟩ := run_bind_ok h
      obtain ⟨_, j₁, hwarn, h⟩ := run_bind_ok h
      obtain ⟨more, j₂, hmore, hpure⟩ := run_bind_ok h
      have hhonest : Reports (Justified p []) .missingSlot (findSkipped p entry rest) :=
        honest_findSkipped p entry rest
      obtain ⟨new, hnew, -⟩ := hhonest.warns j₁
      rw [hmore] at hnew
      refine ⟨why, ?_⟩
      rw [← (Prod.mk.inj hpure).2, show j₂ = new ++ j₁ from hnew, ← (Prod.mk.inj hwarn).2]
      exact List.mem_append_right _ List.mem_cons_self
    · split at h
      · exact warned_findSkipped hentry hwhy h hb
      · obtain ⟨_, _, _, h⟩ := run_bind_ok h
        obtain ⟨_, j₁, _, h⟩ := run_bind_ok h
        obtain ⟨more, j₂, hmore, hpure⟩ := run_bind_ok h
        rw [← (Prod.mk.inj hpure).2]
        exact warned_findSkipped hentry hwhy hmore hb

/-- The code of every function that is written is part of the lines of the functions. -/
theorem infix_of_comes_funcsLines {env : Env} :
    ∀ {bodies : List Body} {next : LoopIndex} {lines : List Line} {next' : LoopIndex},
      Comes (funcsLines env next bodies) (lines, next') →
      ∀ b ∈ bodies, ∃ n code n', Comes (funcLines env n b) (code, n') ∧ code <:+: lines
  | [], _, _, _, _, _, hb => absurd hb List.not_mem_nil
  | b :: rest, next, lines, next', h, b', hb' => by
    obtain ⟨⟨first, n⟩, hfirst, h⟩ := comes_bind h
    obtain ⟨⟨more, n'⟩, hmore, h⟩ := comes_bind h
    obtain ⟨rfl, rfl⟩ := Prod.mk.inj (comes_pure h)
    rcases List.mem_cons.mp hb' with rfl | hb'
    · exact ⟨next, first, n, hfirst, List.infix_append' [] first more⟩
    · obtain ⟨m, code, m', hcode, hinfix⟩ := infix_of_comes_funcsLines hmore b' hb'
      exact ⟨m, code, m', hcode, hinfix.trans (List.suffix_append _ _).isInfix⟩

end Emit

open Emit Work

/-- Writing the program comes out with the module, and the function is the entry point, or it was
left out with a warning, or its code is part of the module. -/
def Program.Accounts (p : Program) (out : ModuleOutput) (j : Journal) (b : Body) : Prop :=
  p.entryPoint?.map (·.id) = some b.id
    ∨ (b.func.qualifiedName ∈ out.skipped ∧ ∃ why, skippedWarning b.func why ∈ j)
    ∨ ∃ (e : Emission) (funcs directives : List Line),
        e.program = p ∧ e.Writes out funcs directives
          ∧ ∃ b' ∈ e.expanded.bodies, b'.id = b.id ∧ b'.func = b.func
            ∧ ∃ n code n', Comes (funcLines e.env n b') (code, n') ∧ code <:+: funcs

/-- The warnings are still there when the module is written. -/
theorem warned_of_emit {p : Program} {out : ModuleOutput} {j j' : Journal} {b : Body}
    {text : Option Bytes} (h : p.emit.run j = (.ok out, j')) (hb : b ∈ p.bodies)
    (hentry : p.entryPoint?.map (·.id) ≠ some b.id)
    (hwhy : unsupportedSignature? p.types b.func = some text) :
    ∃ why, skippedWarning b.func why ∈ j' := by
  obtain ⟨j₀, hrun, rfl⟩ := run_within_ok h
  obtain ⟨x, j₁, hx, hrun⟩ := run_bind_ok hrun
  obtain ⟨a, j₂, ha, hrun⟩ := run_bind_ok hrun
  obtain ⟨y, hy, hpoint⟩ := comes_bind (comes_within ⟨_, _, hx⟩)
  obtain ⟨_, _, hpure⟩ := comes_bind hpoint
  obtain rfl := comes_pure hpure
  obtain ⟨next, heq, hnext⟩ := reports_after_findSkipped fun b hb =>
    told_of_serves (mention_serves (comes_result hy) ⟨_, _, ha⟩ b hb)
  rw [heq] at hrun
  obtain ⟨j₃, hwrite, rfl⟩ := run_within_ok hrun
  obtain ⟨skipped, j₄, hskipped, hrest⟩ := run_bind_ok hwrite
  obtain ⟨new, hnew, -⟩ := (hnext skipped).warns j₄
  rw [hrest] at hnew
  obtain ⟨why, hwarned⟩ := warned_findSkipped hentry hwhy hskipped hb
  rw [show j₃ = new ++ j₄ from hnew]
  exact ⟨why, .tail _ (.tail _ (List.mem_append_right _ hwarned))⟩

/-- Of the functions that are worked on, those are left out that are not supported. -/
theorem Program.mem_leftOut_iff {p : Program} {b : Body} (hb : b ∈ p.bodies)
    (hentry : p.entryPoint?.map (·.id) ≠ some b.id) :
    b.id ∈ p.leftOut ↔ (unsupportedSignature? p.types b.func).isSome = true := by
  unfold leftOut
  constructor
  · intro hid
    obtain ⟨b', hb', hsame⟩ := List.mem_map.mp hid
    obtain ⟨hmem, hkept⟩ := List.mem_filter.mp hb'
    obtain rfl := eq_of_id_eq (mem_functions_of_mem_bodies hmem) (mem_functions_of_mem_bodies hb)
      hsame
    exact (Bool.and_eq_true _ _ ▸ hkept).2
  · intro hsome
    refine List.mem_map.mpr ⟨b, List.mem_filter.mpr ⟨hb, ?_⟩, rfl⟩
    rw [hsome, Bool.and_true]
    exact decide_eq_true hentry

/-- A function that is worked on is written, if it is not left out and no entry point. -/
theorem Emission.Writes.exists_written {e : Emission} {out : ModuleOutput}
    {funcs directives : List Line} (h : e.Writes out funcs directives) {b : Body}
    (hb : b ∈ e.program.bodies) (hkept : b.id ∉ e.program.leftOut)
    (hentry : e.entry.map (·.id) ≠ some b.id) :
    ∃ b' ∈ e.written, b'.id = b.id ∧ b'.func = b.func := by
  obtain ⟨b', hb', hid, hfunc⟩ := exists_of_forall₂ (Support.ids_of_expand h.expanded).flip hb
  refine ⟨b', List.mem_filter.mpr ⟨hb', ?_⟩, hid, hfunc⟩
  rw [hid]
  simp [hkept, hentry]

/-- Every function that is worked on is accounted for. -/
theorem accounts_of_mem_bodies {p : Program} {out : ModuleOutput} {j j' : Journal} {b : Body}
    (h : p.emit.run j = (.ok out, j')) (hb : b ∈ p.bodies) : p.Accounts out j' b := by
  by_cases hentry : p.entryPoint?.map (·.id) = some b.id
  · exact .inl hentry
  right
  obtain ⟨e, funcs, directives, rfl, hwrites⟩ := Program.writes_of_emit ⟨j, j', h⟩
  have hout := Program.mem_leftOut_iff hb hentry
  cases hwhy : unsupportedSignature? e.program.types b.func with
  | some text =>
    left
    refine ⟨?_, warned_of_emit h hb hentry hwhy⟩
    rw [hwrites.output]
    refine List.mem_map.mpr ⟨b, List.mem_filter.mpr ⟨hb, ?_⟩, rfl⟩
    exact List.contains_iff_mem.mpr (hout.mpr (by rw [hwhy]; rfl))
  | none =>
    right
    have hkept : b.id ∉ e.program.leftOut := by
      rw [hout, hwhy]
      exact Bool.false_ne_true
    obtain ⟨b', hb', hid, hfunc⟩ := hwrites.exists_written hb hkept hentry
    obtain ⟨next, hfuncs, -⟩ := hwrites.code
    exact ⟨e, funcs, directives, rfl, hwrites, b', List.mem_of_mem_filter hb', hid, hfunc,
      infix_of_comes_funcsLines hfuncs b' hb'⟩

/-- What is done with the functions `l` when the program is read, checked, compiled and run. -/
structure Program.TakePart (p : Program) (l : List Body) : Prop where
  /-- The statements of all bodies have different numbers, none of them zero. -/
  checked : Document.checkProgram p = .ok () ↔
    0 ∉ l.flatMap Document.idsOf ∧ (l.flatMap Document.idsOf).Nodup
  /-- Every body is expanded once. -/
  expanded : ∀ x, Support.expand p = .ok x → ∀ b ∈ l,
    (x.bodies.map (·.id)).count b.id = 1 ∧ ∃ b' ∈ x.bodies, b'.id = b.id ∧ b'.func = b.func
  /-- What the expanded bodies mention has its slot. -/
  placed : ∀ x a, Support.expand p = .ok x →
    Comes (Arena.ofProgram p (x.heapSize p.entryPoint?) x.bodies) a →
    ∀ b ∈ l, ∀ b' ∈ x.bodies, b'.id = b.id → ∀ e ∈ Arena.mentions b', a.Serves p e
  /-- A program may run if just one of the functions is marked as its entry point. -/
  validated : p.checkEntryPoint = .ok () ↔ (l.filter (·.func.isEntryPoint)).length = 1
  /-- Every function is part of the module, left out with a warning, or the entry point. -/
  accounted : ∀ out j j', p.emit.run j = (.ok out, j') → ∀ b ∈ l, p.Accounts out j' b
  /-- So is every function that a call may mean. -/
  resolved : ∀ out j j', p.emit.run j = (.ok out, j') → ∀ ref params b,
    p.lookup? ref params = some b → p.Accounts out j' b

theorem Program.checkEntryPoint_eq_ok_iff {p : Program} :
    p.checkEntryPoint = .ok () ↔ (p.bodies.filter (·.func.isEntryPoint)).length = 1 := by
  unfold checkEntryPoint entryPoints
  split
  · rename_i heq
    exact iff_of_true rfl (by rw [heq]; rfl)
  · rename_i heq
    exact iff_of_false (nomatch ·) (by rw [heq]; decide)
  · rename_i heq
    exact iff_of_false (nomatch ·) (by rw [heq]; simp)

theorem Program.mem_functions_of_lookup {p : Program} {ref : MemberRef}
    {params : Option (List TypeId)} {b : Body} (h : p.lookup? ref params = some b) :
    b ∈ p.functions := by
  unfold lookup? at h
  split at h
  · cases h
  · rename_i i d htype
    exact mem_functions.mpr ⟨i, d, List.mem_of_find?_eq_some htype, List.mem_of_find?_eq_some h⟩

theorem Program.takePart_functions {p : Program} (h : p.SingleCtors) : p.TakePart p.functions := by
  have hperm := perm_functions h
  have hmem : ∀ b ∈ p.functions, b ∈ p.bodies := fun b hb => hperm.mem_iff.mpr hb
  have hids : p.statementIds.Perm (p.functions.flatMap Document.idsOf) := hperm.flatMap_right _
  refine ⟨?_, fun x hx b hb => ⟨?_, ?_⟩, fun x a hx ha b _ b' hb' _ e he => ?_, ?_,
    fun out j j' hout b hb => accounts_of_mem_bodies hout (hmem b hb),
    fun out j j' hout ref params b hb =>
      accounts_of_mem_bodies hout (hmem b (mem_functions_of_lookup hb))⟩
  · rw [Document.checkProgram_eq_ok_iff, hids.mem_iff, hids.nodup_iff]
  · rw [Support.map_id_of_expand hx]
    exact (count_ids_bodies hb).mpr (hmem b hb)
  · exact exists_of_forall₂ (Support.ids_of_expand hx).flip (hmem b hb)
  · exact (mention_serves hx ha b' hb' e he).2
  · rw [checkEntryPoint_eq_ok_iff, (hperm.filter _).length_eq]

/-- A function is worked on once or not at all; all functions are, just if no type has a second
static constructor; and then all of them take part in everything. -/
theorem Program.functions_take_part (p : Program) :
    (∀ b ∈ p.functions, (p.bodies.map (·.id)).count b.id ≤ 1) ∧
    ((∀ b ∈ p.functions, (p.bodies.map (·.id)).count b.id = 1) ↔ p.SingleCtors) ∧
    (p.SingleCtors → p.TakePart p.functions) := by
  refine ⟨fun b _ => List.nodup_iff_count_le_one.mp p.nodup_ids_bodies b.id, ?_,
    takePart_functions⟩
  rw [← forall_mem_bodies_iff]
  exact forall₂_congr fun b hb => count_ids_bodies hb

/-- A static constructor, an exported function and an entry point all take part. -/
theorem Program.functions_take_part_greeting :
    greetingProgram.TakePart greetingProgram.functions
      ∧ ∃ out j j', greetingProgram.emit.run j = (.ok out, j')
        ∧ ∀ b ∈ greetingProgram.functions, greetingProgram.Accounts out j' b := by
  have hctors : greetingProgram.SingleCtors := by
    unfold SingleCtors
    decide
  have hpart := (functions_take_part greetingProgram).2.2 hctors
  have hcomes : greetingProgram.emit.result?.isSome := by decide +kernel
  obtain ⟨out, j, j', hrun⟩ := Work.exists_comes hcomes
  exact ⟨hpart, out, j, j', hrun, hpart.accounted out j j' hrun⟩

/-- A second static constructor is found by calls, and is not worked on. -/
theorem Program.function_not_worked_on :
    let p : Program := {
      decls := some [{ name := "T", funcs := some [
        { name := "First", declaringType := "T", flags := 9 },
        { name := "Second", declaringType := "T", flags := 9 }] }] }
    ∃ b ∈ p.functions, p.lookup? ⟨"T", "Second"⟩ none = some b
      ∧ (p.bodies.map (·.id)).count b.id = 0 :=
  ⟨_, List.mem_cons_of_mem _ List.mem_cons_self, rfl, by decide⟩

end WastForge
