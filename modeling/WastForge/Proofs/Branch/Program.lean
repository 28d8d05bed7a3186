import WastForge.Proofs.Branch.Module
import WastForge.Proofs.Control.Correct
import WastForge.Proofs.Support.Expansion
import WastForge.Proofs.Text.Reading

/-!
# Branches of programs

The branches in the text of a program are the jumps of its functions and of its entry point. Each
stands inside of a block or loop with its label, in the same function or directive. The innermost
one is that of the construct that the jump means, unless a loop or switch inside has the index that
the jump names for its number. No run of the program loses a branch.
-/

namespace WastForge

open Emit Control Support

/-- Expanding support calls keeps the jumps. -/
theorem bodiesJumps_eq_of_becomes {Q : Bytes → Prop} {bodies bodies' : List Body}
    (h : List.Forall₂ (BodyBecomes Q) bodies bodies') (next : LoopIndex) :
    Program.bodiesJumps next bodies' = Program.bodiesJumps next bodies := by
  induction h generalizing next with
  | nil => rfl
  | cons hb _ ih =>
    simp only [Program.bodiesJumps, hb.root.jumps, ih]

/-- Every body names only instructions that expressions may have. -/
def Program.NamesOps (p : Program) : Prop := ∀ b ∈ p.bodies, Body.NamesOps b

theorem Program.IsFrontEnd.namesOps {p : Program} (h : p.IsFrontEnd) : p.NamesOps :=
  fun b hb x hx => (h b hb x hx).names

namespace Emission

variable {e : Emission} {out : ModuleOutput} {funcs directives : List Line}

theorem Writes.becomes (h : e.Writes out funcs directives) :
    List.Forall₂ (BodyBecomes IsOp) e.program.bodies e.expanded.bodies :=
  forall₂_of_expand (by decide) h.expanded

/-- The functions that are written and what they were before their support calls were expanded. -/
theorem Writes.becomes_written (h : e.Writes out funcs directives) :
    List.Forall₂ (BodyBecomes IsOp)
      (e.program.bodies.filter fun b =>
        e.entry.map (·.id) ≠ some b.id && !e.program.leftOut.contains b.id) e.written := by
  refine List.rel_filter (fun b b' hb => ?_) h.becomes
  simp only [hb.id]

/-- The expanded body of a function is the one of its body. -/
theorem find?_of_becomes {bodies bodies' : List Body}
    (h : List.Forall₂ (BodyBecomes IsOp) bodies bodies') (id : FuncId) :
    Option.Rel (BodyBecomes IsOp) (bodies.find? (·.id = id)) (bodies'.find? (·.id = id)) := by
  induction h with
  | nil => exact .none
  | @cons b b' _ _ hb _ ih =>
    rw [List.find?_cons, List.find?_cons, hb.id]
    cases decide (b.id = id) with
    | true => exact .some hb
    | false => exact ih

/-- What the entry point does, and what it did before its support calls were expanded. -/
theorem Writes.becomes_entry (h : e.Writes out funcs directives) (b : Body) :
    Stmt.Becomes IsOp (((e.program.bodies.find? (·.id = b.id)).map (·.root)).getD .missing)
      (e.entryRoot b) := by
  have hfind := find?_of_becomes h.becomes b.id
  unfold entryRoot Expanded.body?
  generalize e.program.bodies.find? (·.id = b.id) = x at hfind ⊢
  generalize e.expanded.bodies.find? (·.id = b.id) = y at hfind ⊢
  cases hfind with
  | none => exact Stmt.Becomes.refl _
  | some hb => exact hb.root

theorem names_entryRoot (h : e.Writes out funcs directives) (hops : e.program.NamesOps)
    (b : Body) : ∀ x ∈ Node.all (e.entryRoot b), x.Names IsOp := by
  refine (h.becomes_entry b).names fun x hx => ?_
  cases hfind : e.program.bodies.find? (·.id = b.id) with
  | none =>
    rw [hfind] at hx
    cases hx
  | some b' =>
    rw [hfind] at hx
    exact hops b' (List.mem_of_find?_eq_some hfind) x hx

theorem namesOps_written (h : e.Writes out funcs directives) (hops : e.program.NamesOps) :
    ∀ b ∈ e.written, Body.NamesOps b := by
  intro b hb
  obtain ⟨b', hb', hbecomes⟩ := exists_of_forall₂ h.becomes_written hb
  exact hbecomes.root.names (hops b' (List.mem_of_mem_filter hb'))

/-- The lines of a program have its jumps for branches. -/
theorem Writes.lands (h : e.Writes out funcs directives) (hops : e.program.NamesOps) :
    ∃ bs bs', Written [] funcs bs ∧ Written [] directives bs'
      ∧ List.Forall₂ Branch.Reaches (bs ++ bs') e.program.jumps := by
  obtain ⟨next, hfuncs, hdirectives⟩ := h.code
  obtain ⟨js, bs, hjumps, hwritten, hhits⟩ := lands_funcs (namesOps_written h hops) hfuncs
  rw [bodiesJumps_eq_of_becomes h.becomes_written] at hjumps
  have hfunctions : e.program.functionJumps = (js, next) := hjumps
  unfold Program.jumps
  rw [hfunctions]
  cases hentry : e.program.entryPoint? with
  | none =>
    rw [entryCode_none hentry] at hdirectives
    obtain rfl := Work.comes_pure hdirectives
    exact ⟨bs, [], hwritten, .nil, List.rel_append hhits .nil⟩
  | some b =>
    rw [entryCode_some hentry] at hdirectives
    obtain ⟨js', bs', hjumps', hwritten', hhits'⟩ :=
      lands_entry (names_entryRoot h hops b) hdirectives
    have hentryJumps : e.program.entryJumps next b = js' := by
      rw [← hjumps', Program.entryJumps]
      simp only [Program.bodiesJumps, (h.becomes_entry b).jumps]
    refine ⟨bs, bs', hwritten, hwritten', List.rel_append hhits ?_⟩
    rw [Option.elim_some, hentryJumps]
    exact hhits'

/-- The text of a program is read back: a module, and behind it the directives. -/
theorem Writes.read {bs bs' : List Branch} (h : e.Writes out funcs directives)
    (hname : 10 ∉ e.program.name) (hfuncs : Written [] funcs bs)
    (hdirectives : Written [] directives bs') :
    ∃ ns, Script.read out.text = .ok ns
      ∧ SourceForm.forms ns = .list (.atom "module" :: Line.formsAll (e.moduleLines funcs))
        :: Line.formsAll directives := by
  have hmodule : Written [] (e.moduleLines funcs) bs := written_moduleLines hfuncs
  have hgroup : (Line.group [some (.atom "module")] (e.moduleLines funcs)).isReadable := by
    rw [Line.isReadable, hmodule.readable]
    decide
  have hreadable : Line.areReadable (e.lines funcs directives) := by
    simp only [lines, Line.areReadable_append, Line.areReadable, Line.isReadable.eq_1,
      Line.isReadable.eq_2, hgroup, hdirectives.readable]
    simpa using hname
  obtain ⟨ns, hread, hforms⟩ := Script.read_renderAll 0 _ hreadable
  refine ⟨ns, ?_, hforms.trans ?_⟩
  · rw [h.output]
    exact hread
  · rfl

end Emission

/-- The branches of the text that is read back. -/
theorem branches_of_forms {e : Emission} {funcs directives : List Line} {bs bs' : List Branch}
    {ns : List SourceForm} (hfuncs : Written [] funcs bs) (hdirectives : Written [] directives bs')
    (hforms : SourceForm.forms ns
      = .list (.atom "module" :: Line.formsAll (e.moduleLines funcs))
        :: Line.formsAll directives) :
    Form.branchesAll [] (SourceForm.forms ns) = bs ++ bs' := by
  have hmodule : Written [] (e.moduleLines funcs) bs := written_moduleLines hfuncs
  rw [hforms, Form.branchesAll, Form.branches_list (by decide) (by decide) (by decide),
    hmodule.branches, hdirectives.branches]

/-- Every branch in the text of a program stands inside of a block or loop with its label. The
innermost one is that of the construct that its jump means, just if no loop or switch inside of that
has the index that the jump names for its number. No run of the program loses a branch. -/
theorem branches_hit {p : Program} {out : ModuleOutput} (hname : 10 ∉ p.name)
    (hfront : p.IsFrontEnd) (h : Work.Comes p.emit out) :
    ∃ ns, Script.read out.text = .ok ns
      ∧ List.Forall₂ (fun b j => Branch.Reaches b j ∧ (Branch.Hits b j ↔ j.IsClear))
        (Form.branchesAll [] (SourceForm.forms ns)) p.jumps
      ∧ ∀ m ds, Script.instantiate ns = .ok (m, ds) →
        ∀ env : MachineEnv, env.module = m → ∀ n ∈ ds, ∀ (fuel : Nat) (f : Frame) (s : Machine),
          ¬Eval.Lost (Eval.run env fuel f n s) := by
  obtain ⟨e, funcs, directives, rfl, hwrites⟩ := Program.writes_of_emit h
  obtain ⟨bs, bs', hfuncs, hdirectives, hreaches⟩ := hwrites.lands hfront.namesOps
  obtain ⟨ns, hread, hforms⟩ := hwrites.read hname hfuncs hdirectives
  have hmodule : Written [] (e.moduleLines funcs) bs := written_moduleLines hfuncs
  have hnone : ∀ fs : List Form, Form.SafeAll [] (· ∈ ([] : List Bytes)) fs →
      Form.SafeAll [] (fun _ => False) fs :=
    fun fs hfs => hfs.mono fun _ hmem => List.not_mem_nil hmem
  refine ⟨ns, hread, ?_, ?_⟩
  · rw [branches_of_forms hfuncs hdirectives hforms]
    exact hreaches.imp fun b j hj => ⟨hj, hj.hits_iff⟩
  · have hkept : Script.Kept ns := by
      unfold Script.Kept
      rw [hforms]
      exact ⟨(Form.safe_list (by decide)).mpr (hnone _ hmodule.safe), hnone _ hdirectives.safe⟩
    rintro m ds hinstantiate env rfl n hn fuel f s
    obtain ⟨hclosed, hsafe⟩ := Script.closed_instantiate hkept hinstantiate
    exact Eval.not_lost_run hclosed (hsafe n hn) fuel f s

/-- A program with a single function, which has the local `i`. -/
def bodyProgram (s : Stmt) : Program :=
  { name := "jumps"
    decls := some [{ name := "T", funcs := some [
      { name := "F", declaringType := "T", flags := 1, result := TypeTable.void
        locals := some [{ name := "i", type := TypeTable.int32 }]
        body := .block { id := 1 } (some [s]) }] }] }

/-- The group of labels around a loop around a group. -/
def jumpProgram : Program := bodyProgram jumpOuter

/-- The branches of that program, by the number of labels that they leave behind. -/
theorem branches_hit_nested :
    ∃ out, Work.Comes jumpProgram.emit out ∧ ∃ ns, Script.read out.text = .ok ns
      ∧ List.Forall₂ (fun b j => Branch.Reaches b j ∧ (Branch.Hits b j ↔ j.IsClear))
        (Form.branchesAll [] (SourceForm.forms ns)) jumpProgram.jumps
      ∧ jumpProgram.jumps.map Jump.target
        = [some 0, some 4, some 2, some 0, some 3, some 1, some 1]
      ∧ ∀ j ∈ jumpProgram.jumps, j.IsClear := by
  obtain ⟨out, hout⟩ : ∃ out, Work.Comes jumpProgram.emit out :=
    Work.exists_comes (by decide +kernel)
  obtain ⟨ns, hread, hhits, _⟩ := branches_hit (by decide) (by decide +kernel) hout
  exact ⟨out, hout, ns, hread, hhits, by decide +kernel, by decide +kernel⟩

/-- The break of the loop with the index 4096, in a loop without an index that is given this
number. -/
def decoyProgram : Program := bodyProgram indexedLoop

/-- Its branch does not go where the break means. -/
theorem branch_hits_decoy :
    10 ∉ decoyProgram.name ∧ decoyProgram.IsFrontEnd
      ∧ ∃ out ns, Work.Comes decoyProgram.emit out ∧ Script.read out.text = .ok ns
        ∧ ¬List.Forall₂ Branch.Hits (Form.branchesAll [] (SourceForm.forms ns))
          decoyProgram.jumps := by
  obtain ⟨out, hout⟩ : ∃ out, Work.Comes decoyProgram.emit out :=
    Work.exists_comes (by decide +kernel)
  have hfront : decoyProgram.IsFrontEnd := by decide +kernel
  obtain ⟨e, funcs, directives, he, hwrites⟩ := Program.writes_of_emit hout
  obtain ⟨bs, bs', hfuncs, hdirectives, hreaches⟩ := hwrites.lands (he ▸ hfront.namesOps)
  obtain ⟨ns, hread, hforms⟩ := hwrites.read (he ▸ by decide) hfuncs hdirectives
  refine ⟨by decide, hfront, out, ns, hout, hread, fun hhits => ?_⟩
  rw [branches_of_forms hfuncs hdirectives hforms] at hhits
  rw [he] at hreaches
  -- its only jump has a decoy
  have hjumps : decoyProgram.jumps = [⟨[.body noIndex 4096, .loop noIndex 4096, .body 4096 4096,
    .loop 4096 4096], some 3, some 1⟩] := by decide +kernel
  rw [hjumps] at hhits hreaches
  generalize bs ++ bs' = l at hhits hreaches
  cases hhits with
  | cons hhit _ =>
    cases hreaches with
    | cons hreach _ => exact absurd (hreach.hits_iff.mp hhit) (by decide)

end WastForge
