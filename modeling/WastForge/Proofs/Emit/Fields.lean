import WastForge.Proofs.Emit.Instance
import WastForge.Proofs.Emit.Slots
import WastForge.Proofs.Layout.Variables
import WastForge.Proofs.Machine.Access

/-!
# Static fields of a module

The code that reads and writes static fields, run one after the other in any order: fields are
variables of their own.
-/

namespace WastForge

open Emit Script

/-- A use of a static field. -/
inductive FieldUse where
  | read (field : MemberRef)
  | write (field : MemberRef) (v : Value)

namespace FieldUse

def field : FieldUse → MemberRef
  | .read field => field
  | .write field _ => field

/-- What is written is a value of the field. -/
def IsFor (s : Cell) : FieldUse → Prop
  | .read _ => True
  | .write _ v => s.IsValue v

end FieldUse

namespace Program

/-- The bodies of the program mention the field, it is declared with a type whose values are held
in memory, and what is written is such a value. -/
structure Uses (p : Program) (u : FieldUse) : Prop where
  mentioned : ∃ x ∈ p.mentions, x.staticField? = some u.field
  declared : ∃ decl s, p.field? u.field = some decl ∧ p.types.cell? decl.type = some s ∧ u.IsFor s

/-- What fields are before anything is written. -/
def zeros (p : Program) (field : MemberRef) : Value :=
  ((p.field? field).bind fun decl => p.types.cell? decl.type).elim .void Cell.zero

end Program

namespace Emission

variable (e : Emission)

/-- A read of the field is written as the form. -/
def ReadsAs (field : MemberRef) (g : Form) : Prop :=
  ∀ (env : Env) (want : Bool) (a : Annot), env.program = e.program → env.arena = e.arena →
    expr env want (.field a field true .missing) = pure (some g)

/-- A write of what `x` gives to the field is written as the form. -/
def WritesAs (field : MemberRef) (x g : Form) : Prop :=
  ∀ (env : Env) (a : Annot), env.program = e.program → env.arena = e.arena →
    store env (.field a field true .missing) (some x) = pure g

/-- In the module `m`, the code of the uses does one after the other what it has to do with
variables: a read gives the value of its field, and a write whose operand gives the value leaves
behind a memory in which no other slot, no string and no byte of the heap is changed. -/
def Follows (m : Module) : (MemberRef → Value) → Memory → List FieldUse → Prop
  | _, _, [] => True
  | value, memory, .read field :: rest =>
    (∃ g, e.ReadsAs field g ∧ ∀ (env : MachineEnv) (f : Frame) (s : Machine), env.module = m →
      s.plain = s → s.memory = memory → Eval.FormEnds env f g s (.ok (value field)) s)
      ∧ Follows m value memory rest
  | value, memory, .write field v :: rest =>
    ∃ memory', e.arena.Spares field memory memory'
      ∧ (∀ x, ∃ g, e.WritesAs field x g
        ∧ ∀ (env : MachineEnv) (f : Frame) (s s' : Machine), env.module = m →
          Eval.FormEnds env f x s (.ok v) s' → s'.memory = memory →
          Eval.FormEnds env f g s (.ok v) { s' with memory := memory' })
      ∧ Follows m (Function.update value field v) memory' rest

end Emission

/-- Static fields are variables in the module of a program. -/
def Program.KeepsFields (p : Program) (m : Module) : Prop :=
  ∃ (e : Emission) (start : Machine), p.emission? = some e ∧ Machine.start m = .ok start
    ∧ ∀ uses : List FieldUse, (∀ u ∈ uses, p.Uses u) → e.Follows m p.zeros start.memory uses

namespace Emission

variable {e : Emission} {out : ModuleOutput} {funcs directives : List Line} {m : Module}
variable {f : FieldSlot} {s : Cell} {field : MemberRef}

theorem mem_fields_of_field? (hf : e.arena.field? field = some f) :
    f ∈ e.arena.fields ∧ f.field = field := by
  have hfield := List.find?_some hf
  exact ⟨List.mem_of_find?_eq_some hf, of_decide_eq_true hfield⟩

theorem Writes.types (h : e.Writes out funcs directives) : e.arena.types = e.program.types :=
  h.steps.extends.types

/-- Every slot is that of a field that the program declares. -/
theorem Writes.declares (h : e.Writes out funcs directives) :
    ∀ f ∈ e.arena.fields, e.program.Declares f.field f.type :=
  h.steps.fields (List.forall_mem_nil _)

/-- The slot of a field that is used, with the cell in it. -/
theorem Writes.exists_field (h : e.Writes out funcs directives) {u : FieldUse}
    (hu : e.program.Uses u) :
    ∃ f s, e.arena.field? u.field = some f ∧ e.arena.types.cell? f.type = some s ∧ u.IsFor s := by
  obtain ⟨x, hx, hfield⟩ := hu.mentioned
  obtain ⟨decl, s, hdecl, hs, hfor⟩ := hu.declared
  rw [Program.mentions, h.expanded] at hx
  obtain ⟨b, hb, hx⟩ := List.mem_flatMap.mp hx
  have hserves := (Arena.comes_ofProgram h.arena).2 b hb x hx
  have hkeyword := TypeTable.keyword_of_cell? hs
  have hsize := TypeTable.hasSize_of_valueKeyword? (Option.isSome_of_eq_some hkeyword)
  obtain ⟨f, hf⟩ := Option.isSome_iff_exists.mp (hserves.field _ decl hfield hdecl hsize)
  refine ⟨f, s, hf, ?_, hfor⟩
  obtain ⟨hmem, hname⟩ := mem_fields_of_field? hf
  obtain ⟨decl', hdecl', htype⟩ := h.declares f hmem
  rw [hname] at hdecl'
  obtain rfl := Option.some.inj (hdecl.symm.trans hdecl')
  rw [h.types, htype]
  exact hs

/-- The slot of a field with a type that has a machine type is found. -/
theorem fieldSlot_of_field? {env : Env} {a : Annot} (harena : env.arena = e.arena)
    (hf : e.arena.field? field = some f) (hs : env.types.cell? f.type = some s) :
    fieldSlot env (.field a field true .missing) field true .missing
      = pure (.ok (f, s.keyword)) := by
  unfold fieldSlot
  rw [harena, hf]
  simp only [TypeTable.keyword_of_cell? hs]
  rfl

theorem Writes.types_eq (h : e.Writes out funcs directives) {env : Env}
    (hprogram : env.program = e.program) : env.types = e.arena.types := by
  rw [Env.types, hprogram, h.types]

theorem Writes.readsAs (h : e.Writes out funcs directives) (hf : e.arena.field? field = some f)
    (hs : e.arena.types.cell? f.type = some s) :
    e.ReadsAs field (.list [.atom (s.keyword.text ++ ".load" ++ s.suffix false), addressOf f]) := by
  intro env want a hprogram harena
  rw [← h.types_eq hprogram] at hs
  rw [expr, fieldLoad, fieldSlot_of_field? harena hf hs, ← TypeTable.suffix_of_cell? hs]
  rfl

theorem Writes.writesAs (h : e.Writes out funcs directives) (hf : e.arena.field? field = some f)
    (hs : e.arena.types.cell? f.type = some s) (x : Form) :
    e.WritesAs field x
      (.list [.atom (s.keyword.text ++ ".store" ++ s.suffix true), addressOf f, x]) := by
  intro env a hprogram harena
  rw [← h.types_eq hprogram] at hs
  rw [store, fieldStore, fieldSlot_of_field? harena hf hs, ← TypeTable.suffix_of_cell? hs]
  rfl

/-- What a memory with these values does. -/
theorem Writes.follows (h : e.Writes out funcs directives) {uses : List FieldUse}
    (huses : ∀ u ∈ uses, e.program.Uses u) {memory : Memory} {value : MemberRef → Value}
    (hmemory : e.arena.Holds memory value) : e.Follows m value memory uses := by
  induction uses generalizing memory value with
  | nil => trivial
  | cons u rest ih =>
    rw [List.forall_mem_cons] at huses
    obtain ⟨f, s, hf, hs, hfor⟩ := h.exists_field huses.1
    obtain ⟨hmem, hname⟩ := mem_fields_of_field? hf
    cases u with
    | read field =>
      refine ⟨⟨_, h.readsAs hf hs, fun env fr x henv hx hxm => ?_⟩, ih huses.2 hmemory⟩
      obtain ⟨bits, hload, hvalue⟩ := hmemory.load f hmem s hs
      have haddr := Eval.formEnds_address env fr hx f.offset
      have hends := Eval.formEnds_load s.ofName_load s.access_load haddr
        (by rw [Value.word_i32, hxm]; exact hload)
      rwa [hvalue, hname] at hends
    | write field v =>
      obtain ⟨memory', hstore, hspares, hholds⟩ := hmemory.write h.sound hmem hs hfor
      rw [hname] at hspares hholds
      refine ⟨memory', hspares, fun x => ⟨_, h.writesAs hf hs x, ?_⟩, ih huses.2 hholds⟩
      intro env fr y y' henv hx hym
      have haddr := Eval.formEnds_address env fr hx.plain.1 f.offset
      exact Eval.formEnds_store s.ofName_store s.access_store haddr hx
        (by rw [Value.word_i32, hym]; exact hstore)

end Emission

/-- Static fields are independent variables: in the module that is read from the text of a program,
however its code reads and writes static fields, every read gives what was written last to the
field, or zero, and no write touches another field, a string or the heap. -/
theorem fields_kept {p : Program} {out : ModuleOutput} {ns ds : List SourceForm} {m : Module}
    (hops : p.NamesOps) (hemit : Work.Comes p.emit out) (hread : Script.read out.text = .ok ns)
    (hm : instantiate ns = .ok (m, ds)) : p.KeepsFields m := by
  obtain ⟨e, funcs, directives, rfl, hwrites⟩ := Program.writes_of_emit hemit
  obtain ⟨texts, _, hhas⟩ := hwrites.has hops hread hm
  refine ⟨e, _, hwrites.emission?, hwrites.start hhas, fun uses huses => hwrites.follows huses ?_⟩
  refine hwrites.sound.holds_start fun f hf s hs => ?_
  obtain ⟨decl, hdecl, htype⟩ := hwrites.declares f hf
  rw [hwrites.types, htype] at hs
  rw [Program.zeros, hdecl, Option.bind_some, hs]
  rfl

/-- A program with a static field of eight bits that a function reads, and more functions. -/
def meterProgram (more : List Func) : Program :=
  let int8 : TypeId := 4
  let level : Expr := .field { type := int8 } ⟨"T", "level"⟩ true .missing
  { name := "meter"
    decls := some [{
      name := "T"
      fields := some [some { name := "level", type := int8 }]
      funcs := some ({
        name := "Level", declaringType := "T", flags := 3, result := int8
        body := .block { id := 1 } (some [.ret { id := 2 } level]) } :: more) }] }

/-- What may be done with its field. -/
theorem uses_meter {more : List Func} {u : FieldUse} (hfield : u.field = ⟨"T", "level"⟩)
    (hmentioned : ∃ x ∈ (meterProgram more).mentions, x.staticField? = some ⟨"T", "level"⟩)
    (hfor : u.IsFor (.int .i8)) : (meterProgram more).Uses u where
  mentioned := hfield ▸ hmentioned
  declared := ⟨{ name := "level", type := 4 }, .int .i8, by rw [hfield]; rfl, rfl, hfor⟩

/-- Its field is zero, and then it is what was written, a negative number. -/
theorem fields_kept_meter :
    ∃ m e start, (meterProgram []).module? = some m ∧ (meterProgram []).emission? = some e
      ∧ Machine.start m = .ok start
      ∧ (meterProgram []).zeros ⟨"T", "level"⟩ = IntType.i8.value 0
      ∧ e.Follows m (meterProgram []).zeros start.memory
        [.read ⟨"T", "level"⟩, .write ⟨"T", "level"⟩ (IntType.i8.value (-5)),
          .read ⟨"T", "level"⟩] := by
  have hmodule : (meterProgram []).module?.isSome := by decide +kernel
  obtain ⟨m, hm⟩ := Option.isSome_iff_exists.mp hmodule
  obtain ⟨out, ns, ds, hemit, hread, hinstantiate⟩ := Program.comes_of_module? hm
  have hfront : (meterProgram []).IsFrontEnd := by decide +kernel
  obtain ⟨e, start, he, hstart, hfollows⟩ :=
    fields_kept hfront.namesOps hemit hread hinstantiate
  refine ⟨m, e, start, hm, he, hstart, by decide +kernel, hfollows _ fun u hu => ?_⟩
  have hmentioned : ∃ x ∈ (meterProgram []).mentions,
      x.staticField? = some ⟨"T", "level"⟩ := by decide +kernel
  simp only [List.mem_cons, List.not_mem_nil, or_false] at hu
  rcases hu with rfl | rfl | rfl
  · exact uses_meter rfl hmentioned trivial
  · exact uses_meter rfl hmentioned ⟨-5, by decide, rfl⟩
  · exact uses_meter rfl hmentioned trivial

/-- Names of instructions have to be words: with such a function the program is still written, its
text is accepted and its functions have names of their own, but its field cannot be read. -/
theorem field_lost :
    ∃ out ns ds m, Work.Comes (meterProgram [intruder]).emit out ∧ Script.read out.text = .ok ns
      ∧ instantiate ns = .ok (m, ds) ∧ (meterProgram [intruder]).functionNames.Nodup
      ∧ ¬(meterProgram [intruder]).KeepsFields m := by
  have hmodule : (meterProgram [intruder]).module?.any
      (fun m => decide (m.memory = 0 ∧ m.segments = [])) := by decide +kernel
  have hmentioned : ∃ x ∈ (meterProgram [intruder]).mentions,
      x.staticField? = some ⟨"T", "level"⟩ := by decide +kernel
  obtain ⟨m, hm, hempty⟩ := (Option.any_eq_true _ _).mp hmodule
  obtain ⟨hmemory, hsegments⟩ := of_decide_eq_true hempty
  obtain ⟨out, ns, ds, hemit, hread, hinstantiate⟩ := Program.comes_of_module? hm
  refine ⟨out, ns, ds, m, hemit, hread, hinstantiate, by decide +kernel, ?_⟩
  rintro ⟨e, start, he, hstart, hfollows⟩
  obtain ⟨e', funcs, directives, hprogram, hwrites⟩ := Program.writes_of_emit hemit
  have hsame := hwrites.emission?
  rw [hprogram, he] at hsame
  obtain rfl := Option.some.inj hsame
  have huses : (meterProgram [intruder]).Uses (.read ⟨"T", "level"⟩) :=
    uses_meter rfl hmentioned trivial
  obtain ⟨f, s, hf, hs, _⟩ := hwrites.exists_field (hprogram ▸ huses)
  obtain ⟨⟨g, hreads, hends⟩, _⟩ := hfollows _ (List.forall_mem_singleton.mpr huses)
  have hcode : g = .list [.atom (s.keyword.text ++ ".load" ++ s.suffix false), addressOf f] := by
    have hexpr := (hreads e.env true {} rfl rfl).symm.trans
      (hwrites.readsAs hf hs e.env true {} rfl rfl)
    exact Option.some.inj (Option.some.inj (congrArg Work.result? hexpr))
  -- the memory has no bytes
  rw [Machine.start_ok (by rw [hsegments]; exact List.forall_mem_nil _), hmemory, hsegments]
    at hstart
  obtain rfl := Except.ok.inj hstart
  have hends := hends ⟨m, 0, fun _ => .error []⟩ ⟨none, 0⟩ _ rfl rfl rfl
  obtain ⟨t, ht⟩ : ∃ t, (Memory.ofSize 0).load f.offset s.access.width = .error t := by
    refine Memory.load_error (s.width_le.trans_lt (by decide)) ?_
    exact s.width_pos.trans_le (Nat.le_add_left _ _)
  rw [hcode] at hends
  exact Eval.not_formEnds_load s.ofName_load s.access_load (Eval.formEnds_address _ _ rfl f.offset)
    (by rw [Value.word_i32]; exact ht) hends

end WastForge
