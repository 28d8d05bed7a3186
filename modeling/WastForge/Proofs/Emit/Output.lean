import WastForge.Proofs.Branch.Program
import WastForge.Proofs.Emit.Items
import WastForge.Proofs.Layout.Placement

/-!
# What a module says of itself

The text of a module is read back and accepted, and what comes with the text is true of it: the
sizes of heap and memory, and the names of the exports.
-/

namespace WastForge

open Emit Control Script

/-- The expansion and the memory of a program, if it has them. -/
def Program.emission? (p : Program) : Option Emission :=
  (Support.expand p).toOption.bind fun x =>
    (Arena.ofProgram p (x.heapSize p.entryPoint?) x.bodies).result?.map fun a => ⟨p, x, a⟩

/-- The names of the functions that are written: those of the program, the one that runs the static
constructors, and the accessors of strings and fields. -/
def Emission.functionNames (e : Emission) : List Bytes :=
  e.written.map (fun b => Name.func b.func.ref)
    ++ (if e.ctors.isEmpty then [] else [Name.staticInit])
    ++ if e.arena.total != 0 then (stringTexts e.arena ++ fieldTexts e.arena).map (·.name) else []

/-- The names of the functions that a program is written with. -/
def Program.functionNames (p : Program) : List Bytes :=
  p.emission?.elim [] Emission.functionNames

namespace Emission

variable {e : Emission} {out : ModuleOutput} {funcs directives : List Line}

/-- The items of the module. -/
def items (e : Emission) (texts : List FuncText) : List Item :=
  moduleItems e.expanded e.arena e.ctors e.exported texts

theorem Writes.emission? (h : e.Writes out funcs directives) : e.program.emission? = some e := by
  have harena := Arena.result?_ofProgram h.arena
  unfold Emission.entry at harena
  rw [Program.emission?, h.expanded, Except.toOption, Option.bind_some, harena]
  rfl

theorem Writes.functionNames (h : e.Writes out funcs directives) :
    e.program.functionNames = e.functionNames := by
  rw [Program.functionNames, h.emission?]
  rfl

theorem Writes.steps (h : e.Writes out funcs directives) :
    Arena.Steps e.program.Declares
      { types := e.program.types, heapSize := e.expanded.heapSize e.entry } e.arena :=
  (Arena.comes_ofProgram h.arena).1

theorem Writes.sound (h : e.Writes out funcs directives) : e.arena.Sound :=
  h.steps.sound (Arena.sound_start _ _)

theorem Writes.total_lt (h : e.Writes out funcs directives) : e.arena.total < 0x100000000 := by
  have hbound := h.sound.bound
  rw [← h.sound.total] at hbound
  exact UInt64.lt_iff_toNat_lt.mpr hbound

/-- Functions that are not supported are left out. -/
theorem Writes.supported (h : e.Writes out funcs directives) :
    ∀ b ∈ e.written, unsupportedSignature? e.env.types b.func = none := by
  intro b hb
  obtain ⟨b', hb', hbecomes⟩ := exists_of_forall₂ h.becomes_written hb
  obtain ⟨hmem, hfilter⟩ := List.mem_filter.mp hb'
  rw [Bool.and_eq_true, Bool.not_eq_true'] at hfilter
  rw [hbecomes.func]
  by_contra hne
  have hsome : (unsupportedSignature? e.program.types b'.func).isSome :=
    Option.isSome_iff_ne_none.mpr hne
  have hout : b'.id ∈ e.program.leftOut := by
    refine List.mem_map.mpr ⟨b', List.mem_filter.mpr ⟨hmem, ?_⟩, rfl⟩
    rw [hsome, Bool.and_true]
    exact hfilter.1
  have hnot : b'.id ∉ e.program.leftOut := by
    simpa using hfilter.2
  exact hnot hout

/-- The lines of the module are its items. -/
theorem Writes.items (h : e.Writes out funcs directives) (hops : e.program.NamesOps) :
    ∃ texts, Line.formsAll (e.moduleLines funcs) = (e.items texts).map Item.form
      ∧ List.Forall₂ (IsText e.env) e.written texts := by
  obtain ⟨next, hfuncs, _⟩ := h.code
  obtain ⟨texts, hforms, htexts⟩ := text_funcs (namesOps_written h hops) h.supported hfuncs
  exact ⟨texts, formsAll_moduleLines h.total_lt hforms, htexts⟩

theorem name_of_isText {env : Env} {bodies : List Body} {texts : List FuncText}
    (h : List.Forall₂ (IsText env) bodies texts) :
    texts.map (·.name) = bodies.map fun b => Name.func b.func.ref := by
  induction h with
  | nil => rfl
  | cons ht _ ih =>
    obtain ⟨_, _, _, _, _, _, rfl, _⟩ := ht
    rw [List.map_cons, List.map_cons, ih]
    rfl

theorem filterMap_map_none {α β γ : Type} {f : α → β} {g : β → Option γ} (l : List α)
    (h : ∀ x, g (f x) = none) : (l.map f).filterMap g = [] := by
  rw [List.filterMap_map, List.filterMap_eq_nil_iff]
  exact fun x _ => h x

theorem filterMap_func (l : List FuncText) : (l.map Item.func).filterMap Item.func? = l := by
  rw [List.filterMap_map]
  exact List.filterMap_some

theorem filterMap_staticInit {α : Type} (f : Item → Option α) :
    (staticInitItems e.ctors).filterMap f = if e.ctors.isEmpty then []
      else [Item.func (staticInitText e.ctors),
        .export_ Name.staticInitExport Name.staticInit].filterMap
        f := by
  unfold staticInitItems
  split <;> rfl

theorem filterMap_ite {α β : Type} (f : α → Option β) (c : Prop) [Decidable c] (l : List α) :
    (if c then l else []).filterMap f = if c then l.filterMap f else [] := by
  split <;> rfl

theorem funcs_items (texts : List FuncText) :
    (e.items texts).filterMap Item.func? = texts
      ++ (if e.ctors.isEmpty then [] else [staticInitText e.ctors])
      ++ if e.arena.total != 0 then stringTexts e.arena ++ fieldTexts e.arena else [] := by
  have himports : (e.expanded.use.imports.map importItem).filterMap Item.func? = [] :=
    filterMap_map_none _ fun _ => rfl
  have hexports : (exportItems e.exported).filterMap Item.func? = [] :=
    filterMap_map_none _ fun _ => rfl
  have hmemory : [memoryItem e.arena].filterMap Item.func? = [] := rfl
  simp only [items, moduleItems, List.filterMap_append, filterMap_func, himports, hexports, hmemory,
    filterMap_staticInit, filterMap_ite, List.nil_append, List.append_nil, ite_self]
  rfl

theorem funcNames_items {texts : List FuncText} (h : List.Forall₂ (IsText e.env) e.written texts) :
    funcNames (e.items texts) = e.functionNames := by
  rw [funcNames, funcs_items, List.map_append, List.map_append, name_of_isText h, functionNames]
  congr 1
  · congr 1
    split <;> rfl
  · split <;> rfl

theorem exports_items (texts : List FuncText) :
    (e.items texts).filterMap Item.export?
      = (if e.ctors.isEmpty then [] else [(Name.staticInitExport, Name.staticInit)])
        ++ e.exported.map fun b => (b.func.publicName, Name.func b.func.ref) := by
  have himports : (e.expanded.use.imports.map importItem).filterMap Item.export? = [] :=
    filterMap_map_none _ fun _ => rfl
  have hfuncs : ∀ l : List FuncText, (l.map Item.func).filterMap Item.export? = [] :=
    fun l => filterMap_map_none _ fun _ => rfl
  have hexports : (exportItems e.exported).filterMap Item.export?
      = e.exported.map fun b => (b.func.publicName, Name.func b.func.ref) := by
    rw [exportItems, List.filterMap_map]
    exact congrFun List.filterMap_eq_map _
  have hmemory : [memoryItem e.arena].filterMap Item.export? = [] := rfl
  simp only [items, moduleItems, List.filterMap_append, himports, hfuncs, hexports, hmemory,
    filterMap_staticInit, filterMap_ite, List.nil_append, List.append_nil, ite_self]
  rfl

theorem memory_items (texts : List FuncText) :
    (e.items texts).filterMap Item.memory? = if e.arena.total != 0
      then [(e.arena.total.toUInt32, e.arena.stringTable.map fun s => ⟨s.offset, s.segment⟩)]
      else [] := by
  have himports : (e.expanded.use.imports.map importItem).filterMap Item.memory? = [] :=
    filterMap_map_none _ fun _ => rfl
  have hfuncs : ∀ l : List FuncText, (l.map Item.func).filterMap Item.memory? = [] :=
    fun l => filterMap_map_none _ fun _ => rfl
  have hexports : (exportItems e.exported).filterMap Item.memory? = [] :=
    filterMap_map_none _ fun _ => rfl
  have hinit : [Item.func (staticInitText e.ctors),
      .export_ Name.staticInitExport Name.staticInit].filterMap Item.memory? = [] := rfl
  simp only [items, moduleItems, List.filterMap_append, himports, hfuncs, hexports, hinit,
    filterMap_staticInit, filterMap_ite, List.nil_append, List.append_nil, ite_self]
  rfl

theorem instruction_stringTexts (a : Arena) :
    ∀ t ∈ stringTexts a, ∀ f ∈ t.body, f.IsInstruction := by
  have hreturn : ∀ value : Form, Form.IsInstruction (.list [.atom "return", value]) :=
    fun value => show ("return" : Bytes) ∉ Form.declaring by decide
  exact forall_stringTexts (fun _ => List.forall_mem_singleton.mpr (hreturn _))
    (fun _ => List.forall_mem_singleton.mpr (hreturn _)) (List.forall_mem_singleton.mpr (hreturn _))

theorem instruction_fieldTexts (a : Arena) :
    ∀ t ∈ fieldTexts a, ∀ f ∈ t.body, f.IsInstruction := by
  refine forall_fieldTexts (fun f kw => ?_) (fun f kw => ?_)
  · exact List.forall_mem_singleton.mpr (show ("return" : Bytes) ∉ Form.declaring by decide)
  · have hvalue : Form.Plain (.words ["get_local", "$value"]) := plain_getLocal (by decide)
    exact List.forall_mem_singleton.mpr (plain_store (plain_intConst .i32 _) hvalue).instruction

theorem Writes.memorySize (h : e.Writes out funcs directives) :
    e.arena.total.toUInt32.toNat = e.arena.stop := by
  rw [UInt64.toNat_toUInt32, h.sound.total]
  exact Nat.mod_eq_of_lt h.sound.bound

theorem Writes.hasMemory (h : e.Writes out funcs directives) :
    (e.arena.total != 0) = true ↔ 0 < e.arena.total.toUInt32 := by
  rw [UInt32.lt_iff_toNat_lt, h.memorySize, ← h.sound.total, bne_iff_ne]
  show _ ↔ 0 < e.arena.total.toNat
  rw [Nat.pos_iff_ne_zero, ne_eq, ne_eq, ← UInt64.toNat_inj]
  rfl

theorem memorySize_eq_zero (hzero : ¬(e.arena.total != 0) = true) :
    0 = e.arena.total.toUInt32 := by
  rw [bne_iff_ne, not_not] at hzero
  rw [hzero]
  rfl

theorem Writes.heapSize_le (h : e.Writes out funcs directives) :
    e.arena.heapSize ≤ e.arena.total.toUInt32 := by
  rw [UInt32.le_iff_toNat_le, h.memorySize]
  exact Nat.le_add_right _ _

/-- Every segment lies in the memory. -/
theorem Writes.segments (h : e.Writes out funcs directives) :
    ∀ s ∈ e.arena.stringTable,
      s.offset.toNat + s.segment.length ≤ e.arena.total.toUInt32.toNat := by
  intro s hs
  rw [h.sound.stringTable] at hs
  have hstop := (h.sound.string s hs).stop
  have hsize := (h.sound.string s hs).size
  have hspec := slotSize_spec (s.chars.length + 8)
  have htotal := h.memorySize
  have hlength : s.segment.length = 4 + s.chars.length := List.length_append
  unfold StringSlot.stop at hstop
  omega

/-- Every item makes sense by itself. -/
theorem Writes.isSound (h : e.Writes out funcs directives) {texts : List FuncText}
    (htexts : List.Forall₂ (IsText e.env) e.written texts) : ∀ i ∈ e.items texts, i.IsSound := by
  unfold Emission.items moduleItems exportItems
  simp only [List.forall_mem_append, List.forall_mem_map]
  refine ⟨⟨⟨⟨⟨fun _ _ => trivial, fun t ht => ?_⟩, ?_⟩, ?_⟩, fun _ _ => trivial⟩, ?_⟩
  · obtain ⟨_, _, _, _, _, _, _, _, _, hbody⟩ := exists_of_forall₂ htexts ht
    exact hbody
  · unfold staticInitItems
    split
    · exact List.forall_mem_nil _
    · refine List.forall_mem_cons.mpr ⟨?_, List.forall_mem_singleton.mpr trivial⟩
      exact List.forall_mem_map.mpr fun _ _ => show ("call" : Bytes) ∉ Form.declaring by decide
  · split
    · refine List.forall_mem_map.mpr (List.forall_mem_append.mpr ⟨?_, ?_⟩)
      · exact instruction_stringTexts e.arena
      · exact instruction_fieldTexts e.arena
    · exact List.forall_mem_nil _
  · split
    · exact List.forall_mem_singleton.mpr (List.forall_mem_map.mpr h.segments)
    · exact List.forall_mem_nil _

/-- The items make sense together if no name is given twice. -/
theorem Writes.areSound (h : e.Writes out funcs directives) {texts : List FuncText}
    (htexts : List.Forall₂ (IsText e.env) e.written texts) (hnames : e.functionNames.Nodup) :
    AreSound (e.items texts) where
  each := h.isSound htexts
  names := by rwa [funcNames_items htexts]
  exports := by
    rw [exports_items, funcNames_items htexts]
    unfold Emission.functionNames
    refine List.forall_mem_append.mpr ⟨fun w hw => ?_, List.forall_mem_map.mpr fun b hb => ?_⟩
    · refine List.mem_append_left _ (List.mem_append_right _ ?_)
      split at hw
      · cases hw
      · rename_i hctors
        obtain rfl := List.mem_singleton.mp hw
        simp [hctors]
    · refine List.mem_append_left _ (List.mem_append_left _ ?_)
      exact List.mem_map.mpr ⟨b, List.mem_of_mem_filter hb, rfl⟩

end Emission

theorem exportNames_of_exports {m : Module} {declared : List (Bytes × Bytes)}
    (h : List.Forall₂ (IsExport m) m.exports declared) :
    m.exportNames = declared.map (·.1) := by
  unfold Module.exportNames
  generalize m.exports = l at h
  induction h with
  | nil => rfl
  | cons he _ ih => rw [List.map_cons, List.map_cons, he.1, ih]

/-- Forms behind a module are directives unless they are modules too. -/
theorem instantiate_of_module {n : SourceForm} {ds : List SourceForm} {m : Module}
    (hn : n.head = "module") (hm : moduleOf n = .ok m) (hds : ∀ d ∈ ds, d.head ≠ "module") :
    instantiate (n :: ds) = .ok (m, ds) := by
  have hrest : ∀ rev, instantiateFrom (some m) rev ds = .ok (m, rev.reverse ++ ds) := by
    induction ds with
    | nil =>
      intro rev
      rw [instantiateFrom, List.append_nil]
    | cons d ds ih =>
      intro rev
      rw [List.forall_mem_cons] at hds
      rw [instantiateFrom, if_pos (by simpa using hds.1), ih hds.2]
      simp
  unfold instantiate instantiateFrom
  rw [if_neg (by simpa using hn)]
  simp only [Option.isSome_none, Bool.false_eq_true, if_false, hm]
  exact hrest []

/-- The form of a module has a memory if its items have one. -/
theorem hasMemory_iff {n : SourceForm} {items : List Item}
    (h : n.form = .list (.atom "module" :: items.map Item.form)) :
    (∃ item ∈ n.args, item.head = "memory") ↔ items.filterMap Item.memory? ≠ [] := by
  obtain ⟨line, parts, rfl, hparts⟩ := SourceForm.eq_list_of_form h
  obtain ⟨_, ns, rfl, hns⟩ := SourceForm.forms_eq_atom_cons hparts
  rw [SourceForm.forms_eq_map] at hns
  have hitem : ∀ {i : Item} {n : SourceForm}, n.form = i.form →
      (n.head = "memory" ↔ i.memory?.isSome) := by
    intro i n hn
    cases i with
    | func t =>
      rw [head_of_form (w := "func") hn]
      show _ ↔ false = true
      decide
    | export_ name target =>
      rw [head_of_form (w := "export") hn]
      show _ ↔ false = true
      decide
    | import_ name module field params =>
      rw [head_of_form (w := "import") hn]
      show _ ↔ false = true
      decide
    | memory size segments =>
      rw [head_of_form (w := "memory") hn]
      exact ⟨fun _ => rfl, fun _ => rfl⟩
  constructor
  · rintro ⟨n, hn, hhead⟩ hnil
    obtain ⟨i, hi, hform⟩ := List.mem_map.mp (hns ▸ List.mem_map_of_mem hn)
    have hnone := List.filterMap_eq_nil_iff.mp hnil i hi
    have hsome := (hitem hform.symm).mp hhead
    rw [hnone] at hsome
    cases hsome
  · intro hne
    obtain ⟨x, hx⟩ := List.exists_mem_of_ne_nil _ hne
    obtain ⟨i, hi, hsome⟩ := List.mem_filterMap.mp hx
    obtain ⟨n, hn, hform⟩ := List.mem_map.mp (hns.symm ▸ List.mem_map_of_mem hi)
    exact ⟨n, hn, (hitem hform).mpr (hsome ▸ rfl)⟩

/-- No directive of the entry point is a module. -/
theorem Emission.Writes.head_ne_module {e : Emission} {out : ModuleOutput}
    {funcs directives : List Line} {ds : List SourceForm} (h : e.Writes out funcs directives)
    (hops : e.program.NamesOps) (hds : SourceForm.forms ds = Line.formsAll directives) :
    ∀ d ∈ ds, d.head ≠ "module" := by
  obtain ⟨_, _, _, hdirectives, _⟩ := h.lands hops
  intro d hd heq
  have hmem : d.form ∈ Line.formsAll directives := by
    rw [← hds, SourceForm.forms_eq_map]
    exact List.mem_map_of_mem hd
  have hhead := head_of_instruction (hdirectives.instructions _ hmem)
  rw [heq] at hhead
  exact hhead (by decide)

/-- Text and metadata agree: if no two functions have one name, then the text of a program is read
back as one module and the directives of its entry point, and what is said of the memory and the
exports holds of the module. -/
theorem output_agrees {p : Program} {out : ModuleOutput} (hname : 10 ∉ p.name)
    (hfront : p.IsFrontEnd) (h : Work.Comes p.emit out) (hnames : p.functionNames.Nodup) :
    ∃ n ds m, Script.read out.text = .ok (n :: ds)
      ∧ n.head = "module" ∧ (∀ d ∈ ds, d.head ≠ "module")
      ∧ (∃ e next lines, p.emission? = some e ∧ Work.Comes (e.entryCode next) lines
        ∧ SourceForm.forms ds = Line.formsAll lines)
      ∧ instantiate (n :: ds) = .ok (m, ds)
      ∧ m.memory = out.memorySize ∧ out.heapSize ≤ out.memorySize
      ∧ ((∃ item ∈ n.args, item.head = "memory") ↔ 0 < out.memorySize)
      ∧ m.exportNames = out.exports := by
  obtain ⟨e, funcs, directives, rfl, hwrites⟩ := Program.writes_of_emit h
  obtain ⟨bs, bs', hfuncs, hdirectives, _⟩ := hwrites.lands hfront.namesOps
  obtain ⟨ns, hread, hforms⟩ := hwrites.read hname hfuncs hdirectives
  obtain ⟨texts, hitems, htexts⟩ := hwrites.items hfront.namesOps
  obtain ⟨next, _, hentry⟩ := hwrites.code
  obtain ⟨n, ds, rfl, hn, hds⟩ := SourceForm.forms_eq_cons hforms
  have hform : n.form = .list (.atom "module" :: (e.items texts).map Item.form) := by
    rw [hn, hitems]
  rw [hwrites.functionNames] at hnames
  obtain ⟨m, hm, hhas⟩ := moduleOf_of_items hform (hwrites.areSound htexts hnames)
  have hhead : n.head = "module" := head_of_form hform
  have hmodule := hwrites.head_ne_module hfront.namesOps hds
  refine ⟨n, ds, m, hread, hhead, hmodule, ⟨e, next, directives, hwrites.emission?, hentry, hds⟩,
    instantiate_of_module hhead hm hmodule, ?_, ?_, ?_, ?_⟩
  · rw [hhas.memory, Emission.memory_items, hwrites.output]
    split
    · rfl
    · rename_i hzero
      exact Emission.memorySize_eq_zero hzero
  · rw [hwrites.output]
    exact hwrites.heapSize_le
  · rw [hwrites.output, hasMemory_iff hform, Emission.memory_items]
    show _ ↔ 0 < e.arena.total.toUInt32
    rw [← hwrites.hasMemory]
    split <;> simp_all
  · rw [exportNames_of_exports hhas.exports, Emission.exports_items, hwrites.output,
      List.map_append, List.map_map]
    show _ = e.exportNames
    unfold Emission.exportNames
    split <;> rfl

/-- A program with a static constructor, a function that is exported and an entry point. -/
def greetingProgram : Program :=
  let text : Expr := .field { type := TypeTable.string } ⟨"T", "text"⟩ true .missing
  let greeting : Expr := .literal { type := TypeTable.string } { kind := .string, string := "hi" }
  { name := "greeting"
    decls := some [{
      name := "T"
      fields := some [some { name := "text", type := TypeTable.string }]
      funcs := some [
        { name := "Init", declaringType := "T", flags := 9, result := TypeTable.void
          body := .block { id := 1 } (some [
            .expr { id := 2 } (.binary { type := TypeTable.string } .assign text greeting)]) },
        { name := "Greet", declaringType := "T", flags := 3, result := TypeTable.string
          body := .block { id := 3 } (some [.ret { id := 4 } text]) },
        { name := "Main", declaringType := "T", flags := 5, result := TypeTable.void
          body := .block { id := 5 } (some [
            .expr { id := 6 } (.call { type := TypeTable.string } ⟨"T", "Greet"⟩ none true .missing
              none)]) }] }] }

/-- Its text is read back with its memory and its two exports. -/
theorem output_agrees_greeting :
    ∃ out, Work.Comes greetingProgram.emit out ∧ ∃ n ds m, Script.read out.text = .ok (n :: ds)
      ∧ instantiate (n :: ds) = .ok (m, ds) ∧ m.memory = 24
      ∧ m.exportNames = ([Name.staticInitExport, "Greet"] : List Bytes) := by
  have hresult : greetingProgram.emit.result?.any (fun out =>
      out.memorySize = 24 ∧ out.exports = ([Name.staticInitExport, "Greet"] : List Bytes)) := by
    decide +kernel
  obtain ⟨out, hout, hmeta⟩ := (Option.any_eq_true _ _).mp hresult
  obtain ⟨hsize, hexports⟩ := of_decide_eq_true hmeta
  have hcomes := Work.comes_of_result? hout
  obtain ⟨n, ds, m, hread, _, _, _, hinstantiate, hmemory, _, _, hnames⟩ :=
    output_agrees (by decide) (by decide +kernel) hcomes (by decide +kernel)
  exact ⟨out, hcomes, n, ds, m, hread, hinstantiate, hmemory.trans hsize, hnames.trans hexports⟩

end WastForge
