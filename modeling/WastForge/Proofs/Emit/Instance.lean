import WastForge.Proofs.Emit.Output
import WastForge.Proofs.Layout.Variables
import WastForge.Proofs.Text.Preamble

/-!
# The module behind a text

A text that is read and accepted has the module that was written, whatever the name of the program
is: the name stands in a remark at the start, and lines of it that are read as forms add directives
at most.
-/

namespace WastForge

namespace Script

/-- Once there is a module there is no other. -/
theorem instantiateFrom_some {m₀ m : Module} {rev forms ds : List SourceForm}
    (h : instantiateFrom (some m₀) rev forms = .ok (m, ds)) :
    m = m₀ ∧ ∀ n ∈ forms, n.head ≠ "module" := by
  induction forms generalizing rev with
  | nil =>
    obtain ⟨rfl, -⟩ := Prod.mk.inj (Except.ok.inj h)
    exact ⟨rfl, List.forall_mem_nil _⟩
  | cons n rest ih =>
    rw [instantiateFrom] at h
    split at h
    · rename_i hhead
      obtain ⟨hm, hrest⟩ := ih h
      exact ⟨hm, List.forall_mem_cons.mpr ⟨bne_iff_ne.mp hhead, hrest⟩⟩
    · cases h

/-- The form of a module is the one of the instance. -/
theorem moduleOf_of_instantiateFrom {m : Module} {rev forms ds : List SourceForm} {n : SourceForm}
    (h : instantiateFrom none rev forms = .ok (m, ds)) (hn : n ∈ forms)
    (hhead : n.head = "module") :
    moduleOf n = .ok m := by
  induction forms generalizing rev with
  | nil => cases hn
  | cons first rest ih =>
    rw [instantiateFrom] at h
    split at h
    · rename_i hfirst
      rcases List.mem_cons.mp hn with rfl | hn
      · exact absurd hhead (bne_iff_ne.mp hfirst)
      · exact ih h hn
    · cases hm : moduleOf first with
      | error f =>
        rw [hm] at h
        cases h
      | ok m₀ =>
        rw [hm] at h
        obtain ⟨rfl, hrest⟩ := instantiateFrom_some h
        rcases List.mem_cons.mp hn with rfl | hn
        · exact hm
        · exact absurd hhead (hrest n hn)

/-- The directives of an instance are all forms but the one of the module. -/
theorem directives_of_instantiateFrom {found : Option Module} {m : Module}
    {rev forms ds : List SourceForm} (h : instantiateFrom found rev forms = .ok (m, ds)) :
    ds = rev.reverse ++ forms.filter (fun d => d.head != ("module" : Bytes)) := by
  induction forms generalizing found rev with
  | nil =>
    cases found with
    | none => cases h
    | some m₀ =>
      obtain ⟨-, rfl⟩ := Prod.mk.inj (Except.ok.inj h)
      exact (List.append_nil _).symm
  | cons n rest ih =>
    rw [instantiateFrom] at h
    by_cases hn : (n.head != "module") = true
    · rw [if_pos hn] at h
      rw [ih h, List.reverse_cons, List.append_assoc, List.filter_cons, if_pos hn]
      rfl
    · rw [if_neg hn] at h
      rw [List.filter_cons, if_neg hn]
      split at h
      · cases h
      · cases hm : moduleOf n with
        | error f =>
          rw [hm] at h
          cases h
        | ok m₀ =>
          rw [hm] at h
          exact ih h

theorem nodup_funcNames_concat {done : List Item} {i : Item} (h : (funcNames done).Nodup)
    (hfresh : ∀ t, i = .func t → t.name ∉ funcNames done) : (funcNames (done ++ [i])).Nodup := by
  unfold funcNames at h hfresh ⊢
  cases i with
  | func t =>
    rw [filterMap_concat_some Item.func? rfl, List.map_append, List.map_singleton,
      ← List.concat_eq_append]
    exact h.concat (hfresh t rfl)
  | _ =>
    rw [filterMap_concat_none rfl]
    exact h

/-- Functions that are accepted one after the other have names of their own. -/
theorem Added.nodup {m : Module} {pending : List PendingExport} {done items : List Item}
    {ns : List SourceForm} {r : Module × List PendingExport} (h : Added m pending done)
    (hns : SourceForm.forms ns = items.map Item.form) (hsound : ∀ i ∈ items, i.IsSound)
    (hdone : (funcNames done).Nodup) (hok : addItems m pending ns = .ok r) :
    (funcNames (done ++ items)).Nodup := by
  induction items generalizing m pending done ns with
  | nil => rwa [List.append_nil]
  | cons i items ih =>
    rw [List.forall_mem_cons] at hsound
    obtain ⟨n, ns, rfl, hn, hns⟩ := SourceForm.forms_eq_cons hns
    have hfresh : ∀ t, i = .func t → t.name ∉ funcNames done := by
      rintro t rfl hmem
      obtain ⟨fn, hfn, his⟩ := function_of_form hn hsound.1
      have hsome : (m.func? fn.name).isSome := by
        rw [funcNames, ← name_of_is h.funcs, ← his.name] at hmem
        obtain ⟨g, hg, hname⟩ := List.mem_map.mp hmem
        rw [Module.func?, List.find?_isSome]
        exact ⟨g, hg, beq_iff_eq.mpr hname⟩
      rw [addItems, head_of_form hn, hfn] at hok
      change (if (m.func? fn.name).isSome then _ else _) = _ at hok
      rw [if_pos hsome] at hok
      cases hok
    obtain ⟨m₁, pending₁, hstep, h₁⟩ := h.step hn hsound.1 hfresh ns
    rw [List.append_cons]
    exact ih h₁ hns hsound.2 (nodup_funcNames_concat hdone hfresh) (hstep ▸ hok)

/-- A module that is read back from sound items has functions with names of their own. -/
theorem nodup_of_moduleOf {n : SourceForm} {items : List Item} {m : Module}
    (hn : n.form = .list (.atom "module" :: items.map Item.form)) (hsound : ∀ i ∈ items, i.IsSound)
    (h : moduleOf n = .ok m) : (funcNames items).Nodup := by
  obtain ⟨line, parts, rfl, hparts⟩ := SourceForm.eq_list_of_form hn
  obtain ⟨_, ns, rfl, hns⟩ := SourceForm.forms_eq_atom_cons hparts
  have hstart : Added {} [] [] := ⟨.nil, rfl, rfl, rfl, rfl, rfl⟩
  change (addItems {} [] ns >>= fun r => resolveExports r.1 r.2) = _ at h
  cases hitems : addItems {} [] ns with
  | error f =>
    rw [hitems] at h
    cases h
  | ok r => exact hstart.nodup hns hsound .nil hitems

/-- Every function that is an item is found by its name. -/
theorem Module.Has.func?_of_mem {m : Module} {items : List Item} {t : FuncText} (h : m.Has items)
    (ht : t ∈ items.filterMap Item.func?) : ∃ fn, m.func? t.name = some fn ∧ fn.Is t := by
  obtain ⟨i, hi, hit⟩ := List.mem_filterMap.mp ht
  cases i with
  | func t' =>
    obtain rfl := Option.some.inj hit
    exact h.func _ hi
  | _ => cases hit

end Script

open Emit Control Script

namespace Emission

variable {e : Emission} {out : ModuleOutput} {funcs directives : List Line}

/-- What a text holds behind the name. -/
theorem Writes.exists_text (h : e.Writes out funcs directives) (hops : e.program.NamesOps) :
    ∃ ls, out.text = ((";; " : Bytes) ++ e.program.name) ++ 10 :: Line.renderAll 0 ls
      ∧ Line.areReadable ls ∧ Line.formsAll ls
        = .list (.atom "module" :: Line.formsAll (e.moduleLines funcs))
          :: Line.formsAll directives := by
  obtain ⟨bs, bs', hfuncs, hdirectives, _⟩ := h.lands hops
  have hmodule : Written [] (e.moduleLines funcs) bs := written_moduleLines hfuncs
  have hgroup : (Line.group [some (.atom "module")] (e.moduleLines funcs)).isReadable := by
    rw [Line.isReadable, hmodule.readable]
    decide
  refine ⟨.blank :: .group [some (.atom "module")] (e.moduleLines funcs) :: directives, ?_, ?_, rfl⟩
  · rw [h.output]
    show Line.renderAll 0 (e.lines funcs directives) = _
    simp [lines, Line.renderAll, Line.render, Line.indent]
  · simp only [Line.areReadable, Line.isReadable.eq_1, hgroup, hdirectives.readable]
    rfl

/-- A text that is read holds what was written, whatever stands before it. -/
theorem Writes.read_any {ns : List SourceForm} (h : e.Writes out funcs directives)
    (hops : e.program.NamesOps) (hread : Script.read out.text = .ok ns) :
    ∃ before n ds, ns = before ++ n :: ds
      ∧ n.form = .list (.atom "module" :: Line.formsAll (e.moduleLines funcs))
      ∧ SourceForm.forms ds = Line.formsAll directives := by
  obtain ⟨ls, htext, hreadable, hforms⟩ := h.exists_text hops
  rw [htext] at hread
  obtain ⟨before, behind, rfl, hbehind⟩ := read_behind hreadable hread
  obtain ⟨n, ds, rfl, hn, hds⟩ := SourceForm.forms_eq_cons (hbehind.trans hforms)
  exact ⟨before, n, ds, rfl, hn, hds⟩

/-- The directives of a text that is accepted end with those of the entry point. -/
theorem Writes.exists_own {ns ds : List SourceForm} {m : Module} (h : e.Writes out funcs directives)
    (hops : e.program.NamesOps) (hread : Script.read out.text = .ok ns)
    (hm : instantiate ns = .ok (m, ds)) :
    ∃ front own, ds = front ++ own ∧ SourceForm.forms own = Line.formsAll directives := by
  obtain ⟨before, n, own, rfl, hn, hown⟩ := h.read_any hops hread
  have hhead : (n.head != "module") = false := by simp [head_of_form hn]
  have hall : own.filter (fun d => d.head != ("module" : Bytes)) = own :=
    List.filter_eq_self.mpr fun d hd => bne_iff_ne.mpr (h.head_ne_module hops hown d hd)
  refine ⟨before.filter (fun d => d.head != ("module" : Bytes)), own, ?_, hown⟩
  rw [directives_of_instantiateFrom hm, List.filter_append, List.filter_cons, hhead, hall]
  rfl

/-- The instance of a text that is accepted comes from the items that were written. -/
theorem Writes.moduleOf {ns ds : List SourceForm} {m : Module} (h : e.Writes out funcs directives)
    (hops : e.program.NamesOps) (hread : Script.read out.text = .ok ns)
    (hm : instantiate ns = .ok (m, ds)) :
    ∃ n texts, List.Forall₂ (IsText e.env) e.written texts
      ∧ n.form = .list (.atom "module" :: (e.items texts).map Item.form)
      ∧ Script.moduleOf n = .ok m := by
  obtain ⟨before, n, behind, rfl, hn, _⟩ := h.read_any hops hread
  obtain ⟨texts, hitems, htexts⟩ := h.items hops
  have hform : n.form = .list (.atom "module" :: (e.items texts).map Item.form) := by
    rw [hn, hitems]
  exact ⟨n, texts, htexts, hform, moduleOf_of_instantiateFrom hm
    (List.mem_append_right _ List.mem_cons_self) (head_of_form hform)⟩

/-- No two functions of a text that is accepted have one name. -/
theorem Writes.nodup_functionNames {ns ds : List SourceForm} {m : Module}
    (h : e.Writes out funcs directives) (hops : e.program.NamesOps)
    (hread : Script.read out.text = .ok ns) (hm : instantiate ns = .ok (m, ds)) :
    e.functionNames.Nodup := by
  obtain ⟨n, texts, htexts, hform, hmodule⟩ := h.moduleOf hops hread hm
  rw [← funcNames_items htexts]
  exact nodup_of_moduleOf hform (h.isSound htexts) hmodule

/-- The instance of a text that is accepted has the items that were written. -/
theorem Writes.has {ns ds : List SourceForm} {m : Module} (h : e.Writes out funcs directives)
    (hops : e.program.NamesOps) (hread : Script.read out.text = .ok ns)
    (hm : instantiate ns = .ok (m, ds)) :
    ∃ texts, List.Forall₂ (IsText e.env) e.written texts ∧ m.Has (e.items texts) := by
  obtain ⟨n, texts, htexts, hform, hmodule⟩ := h.moduleOf hops hread hm
  obtain ⟨m', hm', hhas⟩ :=
    moduleOf_of_items hform (h.areSound htexts (h.nodup_functionNames hops hread hm))
  obtain rfl := Except.ok.inj (hmodule.symm.trans hm')
  exact ⟨texts, htexts, hhas⟩

/-- A function that is written is found by its name, with the code of its body. -/
theorem func?_of_written {m : Module} {texts : List FuncText} {b : Body}
    (htexts : List.Forall₂ (IsText e.env) e.written texts) (hhas : m.Has (e.items texts))
    (hb : b ∈ e.written) :
    ∃ fn t, m.func? (Name.func b.func.ref) = some fn ∧ IsText e.env b t ∧ fn.Is t := by
  obtain ⟨t, ht, htext⟩ := exists_of_forall₂ htexts.flip hb
  obtain ⟨fn, hfn, his⟩ : ∃ fn, m.func? t.name = some fn ∧ fn.Is t := by
    refine hhas.func?_of_mem ?_
    rw [funcs_items]
    exact List.mem_append_left _ (List.mem_append_left _ ht)
  refine ⟨fn, t, ?_, htext, his⟩
  obtain ⟨_, _, _, _, _, _, rfl, _⟩ := htext
  exact hfn

/-- There are no strings where there is no memory. -/
theorem Writes.strings_eq_nil (h : e.Writes out funcs directives)
    (hzero : ¬(e.arena.total != 0) = true) : e.arena.strings = [] := by
  have hstop : e.arena.stop = 0 := by rw [← h.memorySize, ← memorySize_eq_zero hzero]; rfl
  refine List.eq_nil_iff_forall_not_mem.mpr fun s hs => ?_
  have hle := (h.sound.string s hs).segment_le
  have hle' := (h.sound.string s hs).stop
  omega

/-- The size of the memory and what is written into it at the start. -/
theorem Writes.memory {m : Module} {texts : List FuncText} (h : e.Writes out funcs directives)
    (hhas : m.Has (e.items texts)) :
    m.memory = e.arena.total.toUInt32
      ∧ m.segments = e.arena.strings.map StringSlot.toSegment := by
  rw [hhas.memory, hhas.segments, memory_items, h.sound.stringTable]
  by_cases htotal : (e.arena.total != 0) = true
  · rw [if_pos htotal]
    exact ⟨rfl, List.append_nil _⟩
  · rw [if_neg htotal, h.strings_eq_nil htotal]
    exact ⟨memorySize_eq_zero htotal, rfl⟩

/-- The machine starts with the memory of the arena. -/
theorem Writes.start {m : Module} {texts : List FuncText} (h : e.Writes out funcs directives)
    (hhas : m.Has (e.items texts)) : Machine.start m = .ok { memory := e.arena.memory } := by
  obtain ⟨hsize, hsegments⟩ := h.memory hhas
  rw [Machine.start_ok, hsize, hsegments]
  · rfl
  · rw [hsegments, hsize, h.memorySize]
    refine List.forall_mem_map.mpr fun s hs => ?_
    have hle := (h.sound.string s hs).segment_le
    exact (Nat.le_of_add_right_le hle).trans (h.sound.string s hs).stop

end Emission

/-- The module that a program is written as, read back. -/
def Program.module? (p : Program) : Option Module := do
  let out ← p.emit.result?
  let ns ← (Script.read out.text).toOption
  let r ← (instantiate ns).toOption
  return r.1

theorem Program.comes_of_module? {p : Program} {m : Module} (h : p.module? = some m) :
    ∃ out ns ds, Work.Comes p.emit out ∧ Script.read out.text = .ok ns
      ∧ instantiate ns = .ok (m, ds) := by
  simp only [Program.module?, Option.bind_eq_bind, Option.bind_eq_some_iff] at h
  obtain ⟨out, hout, ns, hns, ⟨m', ds⟩, hds, hm⟩ := h
  obtain rfl := Option.some.inj hm
  exact ⟨out, ns, ds, Work.comes_of_result? hout, ok_of_toOption hns, ok_of_toOption hds⟩

/-- A function with an instruction that is given by its name, which is more than a word: it ends the
module before its memory. -/
def intruder : Func :=
  let rest : Expr :=
    .intrinsic { type := TypeTable.void } "nop))) (block $l (br $l) (block (nop" none
  { name := "Rest", declaringType := "T", flags := 1, result := TypeTable.void
    body := .block { id := 3 } (some [.expr { id := 4 } rest]) }

end WastForge
