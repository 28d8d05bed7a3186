import WastForge.Proofs.Emit.Instance

/-!
# What an invocation runs

An invocation runs the function of the last export of its name, and nothing keeps exports from
having one name: functions are exported under any names that they are given, and the function that
runs the static constructors under one of its own. Every export runs the function that it is
declared for exactly if no name is declared twice.
-/

namespace WastForge

open Emit Control Script

namespace Script.Module

variable {m : Module} {declared : List (Bytes × Bytes)}

/-- Invoking the first name runs the function that has the second one, whatever the arguments are
and wherever the invocation stands. -/
def Runs (m : Module) (d : Bytes × Bytes) : Prop :=
  ∃ fn, m.func? d.2 = some fn ∧
    ∀ (env : MachineEnv) (eval : Eval.Inner) (f : Frame) (n : SourceForm) (line : UInt32)
      (args : List SourceForm), env.module = m → n.head = "invoke" →
      n.args = .text line d.1 :: args →
      Eval.resolve env eval f n = do
        let vs ← Eval.args eval f args
        return ⟨fn, "(invoke " ++ Bytes.join " " (Quoted.text d.1 :: vs.map Value.text) ++ ")", vs⟩

theorem name_of_func? {name : Bytes} {fn : Function} (h : m.func? name = some fn) :
    fn.name = name := by
  have hfound := List.find?_some h
  exact beq_iff_eq.mp hfound

theorem runs_iff {d : Bytes × Bytes} :
    m.Runs d ↔ ∃ fn, m.func? d.2 = some fn ∧ m.export? d.1 = some fn := by
  refine exists_congr fun fn => and_congr_right fun _ => ⟨fun h => ?_, fun h => ?_⟩
  · -- an invocation without arguments is enough to see the function
    have hrun := h ⟨m, 0, fun _ => .error []⟩ (fun _ _ => pure .void) {}
      (.list 0 [.atom 0 "invoke", .text 0 d.1]) 0 [] rfl rfl rfl
    have hstate := congrFun hrun {}
    unfold Eval.resolve at hstate
    simp only [SourceForm.head, SourceForm.word, SourceForm.args, beq_self_eq_true] at hstate
    cases hexport : m.export? d.1 with
    | none =>
      rw [hexport] at hstate
      cases hstate
    | some fn' =>
      rw [hexport] at hstate
      injection hstate with hstate
      injection hstate with hfn
      rw [hfn]
  · rintro env eval f n line args rfl hhead hargs
    unfold Eval.resolve
    rw [hhead, hargs]
    simp only [beq_self_eq_true, h]

/-- Of two exports with one name the last one counts. -/
theorem export?_of_exports (h : List.Forall₂ (IsExport m) m.exports declared) (name : Bytes) :
    m.export? name = (declared.reverse.lookup name).bind m.func? := by
  have hreverse : List.Forall₂ (IsExport m) m.exports.reverse declared.reverse :=
    List.rel_reverse h
  unfold Module.export?
  generalize m.exports.reverse = l at hreverse
  generalize declared.reverse = l' at hreverse
  induction hreverse with
  | nil => rfl
  | @cons x d _ _ hx _ ih =>
    obtain ⟨hname, hfunc⟩ := hx
    rw [List.lookup_cons, List.lookup_cons, hname]
    cases name == d.1 with
    | true => exact hfunc.symm
    | false => exact ih

/-- Where functions are exported at most once each, an export runs its own function just if no later
export has its name. -/
theorem runs_split_iff {before after : List (Bytes × Bytes)} {d : Bytes × Bytes}
    (h : List.Forall₂ (IsExport m) m.exports declared) (htargets : (declared.map Prod.snd).Nodup)
    (hsplit : declared = before ++ d :: after) : m.Runs d ↔ ∀ d' ∈ after, d'.1 ≠ d.1 := by
  have hexport := export?_of_exports h d.1
  rw [hsplit, List.reverse_append, List.reverse_cons, List.append_assoc, List.lookup_append,
    List.singleton_append, List.lookup_cons, beq_self_eq_true] at hexport
  obtain ⟨x, -, hx⟩ := exists_of_forall₂ h (hsplit ▸ List.mem_append_right _ List.mem_cons_self)
  rw [runs_iff]
  cases hlast : after.reverse.lookup d.1 with
  | none =>
    refine iff_of_true ⟨x.2, hx.2, ?_⟩ fun d' hd' heq => ?_
    · rw [hexport, hlast]
      exact hx.2
    · have hne := List.lookup_eq_none_iff.mp hlast d' (List.mem_reverse.mpr hd')
      exact beq_eq_false_iff_ne.mp (by simpa using hne) heq.symm
  | some target =>
    obtain ⟨l₁, l₂, hmem, -⟩ := List.lookup_eq_some_iff.mp hlast
    have hmem : (d.1, target) ∈ after :=
      List.mem_reverse.mp (hmem ▸ List.mem_append_right _ List.mem_cons_self)
    refine iff_of_false ?_ fun hne => hne _ hmem rfl
    rintro ⟨fn, hfn, hfn'⟩
    rw [hexport, hlast] at hfn'
    -- a function has one name, and is exported once
    rw [hsplit, List.map_append, List.map_cons, List.nodup_append, List.nodup_cons] at htargets
    refine htargets.2.1.1 ?_
    rw [← name_of_func? hfn, name_of_func? hfn']
    exact List.mem_map_of_mem hmem

/-- Where functions are exported at most once each, every export runs its own function just if no
name is exported twice. -/
theorem runs_all_iff (h : List.Forall₂ (IsExport m) m.exports declared)
    (htargets : (declared.map Prod.snd).Nodup) :
    (∀ d ∈ declared, m.Runs d) ↔ (declared.map Prod.fst).Nodup := by
  constructor
  · intro hruns
    refine List.Nodup.map_on (fun d hd d' hd' hname => ?_) (List.Nodup.of_map _ htargets)
    obtain ⟨fn, hfn, hexport⟩ := runs_iff.mp (hruns d hd)
    obtain ⟨fn', hfn', hexport'⟩ := runs_iff.mp (hruns d' hd')
    rw [hname, hexport'] at hexport
    obtain rfl := Option.some.inj hexport
    exact Prod.ext hname ((name_of_func? hfn).symm.trans (name_of_func? hfn'))
  · intro hnames d hd
    obtain ⟨before, after, hsplit⟩ := List.append_of_mem hd
    refine (runs_split_iff h htargets hsplit).mpr fun d' hd' heq => ?_
    rw [hsplit, List.map_append, List.map_cons, List.nodup_append, List.nodup_cons] at hnames
    exact hnames.2.1.1 (heq ▸ List.mem_map_of_mem hd')

end Script.Module

/-- Behind the module, the forms start with the invocation of a name. -/
def Script.InvokesFirst (ns : List SourceForm) (name : Bytes) : Prop :=
  ∃ (before : List SourceForm) (n d : SourceForm) (rest : List SourceForm) (line : UInt32),
    ns = before ++ n :: d :: rest ∧ n.head = "module" ∧ d.head = "invoke"
      ∧ d.args = [.text line name]

namespace Emission

variable {e : Emission} {out : ModuleOutput} {funcs directives : List Line}

/-- The exports that are declared, each with the name of its function. -/
def declared (e : Emission) : List (Bytes × Bytes) :=
  (if e.ctors.isEmpty then [] else [(Name.staticInitExport, Name.staticInit)])
    ++ e.exported.map fun b => (b.func.publicName, Name.func b.func.ref)

/-- The functions that are exported have the code of their bodies, and the one for the static
constructors calls them in order. -/
structure HasExported (e : Emission) (m : Module) : Prop where
  own : ∀ b ∈ e.exported,
    ∃ fn t, m.func? (Name.func b.func.ref) = some fn ∧ IsText e.env b t ∧ fn.Is t
  init : e.ctors ≠ [] → ∃ fn, m.func? Name.staticInit = some fn ∧ fn.Is (staticInitText e.ctors)

theorem names_declared (e : Emission) : e.declared.map Prod.fst = e.exportNames := by
  unfold declared exportNames
  rw [List.map_append, List.map_map]
  split <;> rfl

theorem nodup_targets (h : e.functionNames.Nodup) : (e.declared.map Prod.snd).Nodup := by
  have htargets : e.declared.map Prod.snd
      = (if e.ctors.isEmpty then [] else [Name.staticInit])
        ++ e.exported.map fun b => Name.func b.func.ref := by
    unfold declared
    rw [List.map_append, List.map_map]
    split <;> rfl
  have hsub : (e.exported.map fun b => Name.func b.func.ref).Sublist
      (e.written.map fun b => Name.func b.func.ref) := List.filter_sublist.map _
  have hnames := (List.nodup_append.mp h).1
  rw [htargets, List.nodup_append_comm]
  exact (hsub.append_right _).nodup hnames

theorem hasExported_of_has {m : Module} {texts : List FuncText}
    (htexts : List.Forall₂ (IsText e.env) e.written texts) (hhas : m.Has (e.items texts)) :
    e.HasExported m := by
  refine ⟨fun b hb => func?_of_written htexts hhas (List.mem_of_mem_filter hb), fun hctors => ?_⟩
  refine hhas.func?_of_mem (t := staticInitText e.ctors) ?_
  rw [funcs_items]
  refine List.mem_append_left _ (List.mem_append_right _ ?_)
  rw [if_neg (by simpa using hctors)]
  exact List.mem_singleton_self _

/-- Behind the module stands the invocation of the static constructors. -/
theorem Writes.invokes_init {ns : List SourceForm} (h : e.Writes out funcs directives)
    (hops : e.program.NamesOps) (hread : Script.read out.text = .ok ns) (hctors : e.ctors ≠ [])
    (hentry : e.entry.isSome) : InvokesFirst ns Name.staticInitExport := by
  obtain ⟨before, n, ds, rfl, hn, hds⟩ := h.read_any hops hread
  obtain ⟨next, -, hcode⟩ := h.code
  obtain ⟨b, hb⟩ := Option.isSome_iff_exists.mp hentry
  rw [entryCode_some hb] at hcode
  obtain ⟨_, code, _, _, _, rfl⟩ := comes_entryLines hcode
  have hsome : (!e.ctors.isEmpty) = true := by simpa using hctors
  rw [hsome, if_pos rfl] at hds
  obtain ⟨d, rest, rfl, hd, -⟩ := SourceForm.forms_eq_cons hds
  obtain ⟨line, parts, rfl, hparts⟩ := SourceForm.eq_list_of_form hd
  obtain ⟨_, args, rfl, hargs⟩ := SourceForm.forms_eq_atom_cons hparts
  obtain ⟨x, args, rfl, hx, hnil⟩ := SourceForm.forms_eq_cons hargs
  obtain rfl := SourceForm.forms_eq_nil hnil
  obtain ⟨line', rfl⟩ := text_of_form hx
  exact ⟨before, n, _, rest, line', rfl, head_of_form hn, rfl, rfl⟩

/-- The exports of a module are the ones that are declared, each function at most once. -/
theorem Writes.exports {ns ds : List SourceForm} {m : Module} (h : e.Writes out funcs directives)
    (hops : e.program.NamesOps) (hread : Script.read out.text = .ok ns)
    (hm : instantiate ns = .ok (m, ds)) :
    List.Forall₂ (IsExport m) m.exports e.declared ∧ (e.declared.map Prod.snd).Nodup
      ∧ e.HasExported m := by
  obtain ⟨texts, htexts, hhas⟩ := h.has hops hread hm
  refine ⟨?_, nodup_targets (h.nodup_functionNames hops hread hm), hasExported_of_has htexts hhas⟩
  have hexports := hhas.exports
  rwa [exports_items] at hexports

end Emission

/-- What the exports of a program run: an export runs its own function unless a later one has its
name, so all of them do just if no name is exported twice. The same holds of the export that the
entry point invokes first, which runs the static constructors: it does not if a function is exported
under its name. -/
theorem exports_run_iff {p : Program} {out : ModuleOutput} {ns ds : List SourceForm} {m : Module}
    (hops : p.NamesOps) (hemit : Work.Comes p.emit out) (hread : Script.read out.text = .ok ns)
    (hm : instantiate ns = .ok (m, ds)) :
    ∃ e, p.emission? = some e ∧ e.HasExported m
      ∧ m.exportNames = out.exports ∧ out.exports = e.declared.map Prod.fst
      ∧ (∀ before d after, e.declared = before ++ d :: after →
          (m.Runs d ↔ ∀ d' ∈ after, d'.1 ≠ d.1))
      ∧ ((∀ d ∈ e.declared, m.Runs d) ↔ out.exports.Nodup)
      ∧ (e.ctors ≠ [] →
          (e.entry.isSome → InvokesFirst ns Name.staticInitExport)
          ∧ (m.Runs (Name.staticInitExport, Name.staticInit)
            ↔ ∀ b ∈ e.exported, b.func.publicName ≠ Name.staticInitExport)) := by
  obtain ⟨e, funcs, directives, rfl, hwrites⟩ := Program.writes_of_emit hemit
  obtain ⟨hexports, htargets, hexported⟩ := hwrites.exports hops hread hm
  have hnames : out.exports = e.declared.map Prod.fst := by
    rw [hwrites.output, Emission.names_declared]
    rfl
  refine ⟨e, hwrites.emission?, hexported, ?_, hnames,
    fun before d after hsplit => Module.runs_split_iff hexports htargets hsplit, ?_,
    fun hctors => ⟨hwrites.invokes_init hops hread hctors, ?_⟩⟩
  · rw [hnames]
    exact exportNames_of_exports hexports
  · rw [hnames]
    exact Module.runs_all_iff hexports htargets
  · have hsplit : e.declared = [] ++ (Name.staticInitExport, Name.staticInit)
        :: e.exported.map fun b => (b.func.publicName, Name.func b.func.ref) := by
      rw [Emission.declared, if_neg (by simpa using hctors)]
      rfl
    rw [Module.runs_split_iff hexports htargets hsplit, List.forall_mem_map]

/-- The greeting and the static constructor in front of it are run by their exports. -/
theorem exports_run_iff_greeting :
    ∃ m, greetingProgram.module? = some m ∧ m.Runs (Name.staticInitExport, Name.staticInit)
      ∧ m.Runs ("Greet", Name.func ⟨"T", "Greet"⟩) := by
  have hmodule : greetingProgram.module?.isSome := by decide +kernel
  obtain ⟨m, hm⟩ := Option.isSome_iff_exists.mp hmodule
  obtain ⟨out, ns, ds, hemit, hread, hinstantiate⟩ := Program.comes_of_module? hm
  have hfront : greetingProgram.IsFrontEnd := by decide +kernel
  obtain ⟨e, he, -, -, hnames, -, hall, -⟩ :=
    exports_run_iff hfront.namesOps hemit hread hinstantiate
  have hdeclared : greetingProgram.emission?.map Emission.declared
      = some [(Name.staticInitExport, Name.staticInit), ("Greet", Name.func ⟨"T", "Greet"⟩)] := by
    decide +kernel
  rw [he, Option.map_some, Option.some.injEq] at hdeclared
  rw [hnames, hdeclared] at hall
  have hruns := hall.mpr (by decide)
  exact ⟨m, hm, hruns _ List.mem_cons_self, hruns _ (List.mem_cons_of_mem _ List.mem_cons_self)⟩

/-- A program with a static constructor and with a function that is exported under the name of the
function that runs it. -/
def resetProgram : Program :=
  let field : Expr := .field { type := TypeTable.int32 } ⟨"T", "f"⟩ true .missing
  let write (id : UInt32) (n : Int64) : Stmt :=
    .block { id := id } (some [.expr { id := id + 1 } (.binary { type := TypeTable.int32 } .assign
      field (.literal { type := TypeTable.int32 } { kind := .int, int := n }))])
  { name := "p"
    decls := some [{
      name := "T"
      fields := some [some { name := "f", type := TypeTable.int32 }]
      funcs := some [
        { name := "Init", declaringType := "T", flags := 9, result := TypeTable.void
          body := write 1 7 },
        { name := "Reset", declaringType := "T", flags := 3, exportName := "__static_init"
          result := TypeTable.void, body := write 3 0 },
        { name := "Get", declaringType := "T", flags := 3, result := TypeTable.int32
          body := .block { id := 5 } (some [.ret { id := 6 } field]) },
        { name := "Main", declaringType := "T", flags := 5, result := TypeTable.void
          body := .block { id := 7 } (some [
            .expr { id := 8 } (.call { type := TypeTable.void } ⟨"Wasm.Test", "Invoke"⟩ none true
              .missing (some [
                .literal { type := TypeTable.string } { kind := .string, string := "Get" },
                .arrayInit {} TypeTable.object .missing (some []) true]))]) }] }] }

/-- Its entry point asks for the static constructors first, but runs that function instead. -/
theorem init_redirected :
    ∃ out ns ds m, Work.Comes resetProgram.emit out ∧ Script.read out.text = .ok ns
      ∧ instantiate ns = .ok (m, ds) ∧ InvokesFirst ns Name.staticInitExport
      ∧ m.Runs (Name.staticInitExport, Name.func ⟨"T", "Reset"⟩)
      ∧ ¬m.Runs (Name.staticInitExport, Name.staticInit) := by
  have hmodule : resetProgram.module?.isSome := by decide +kernel
  have hdeclared : resetProgram.emission?.any fun e =>
      decide (e.ctors.isEmpty = false ∧ e.entry.isSome ∧ e.declared =
        [(Name.staticInitExport, Name.staticInit),
          (Name.staticInitExport, Name.func ⟨"T", "Reset"⟩), ("Get", Name.func ⟨"T", "Get"⟩)]) := by
    decide +kernel
  have hfront : resetProgram.IsFrontEnd := by decide +kernel
  obtain ⟨m, hm⟩ := Option.isSome_iff_exists.mp hmodule
  obtain ⟨out, ns, ds, hemit, hread, hinstantiate⟩ := Program.comes_of_module? hm
  obtain ⟨e, funcs, directives, hprogram, hwrites⟩ := Program.writes_of_emit hemit
  have hops : e.program.NamesOps := hprogram ▸ hfront.namesOps
  rw [← hprogram, hwrites.emission?] at hdeclared
  obtain ⟨hctors, hentry, hdeclared⟩ := of_decide_eq_true hdeclared
  obtain ⟨hexports, htargets, -⟩ := hwrites.exports hops hread hinstantiate
  refine ⟨out, ns, ds, m, hemit, hread, hinstantiate,
    hwrites.invokes_init hops hread (by simpa using hctors) hentry, ?_, ?_⟩
  · have hlast : e.declared = [(Name.staticInitExport, Name.staticInit)]
        ++ (Name.staticInitExport, Name.func ⟨"T", "Reset"⟩)
          :: [("Get", Name.func ⟨"T", "Get"⟩)] := hdeclared
    exact (Module.runs_split_iff hexports htargets hlast).mpr (by decide)
  · have hfirst : e.declared = [] ++ (Name.staticInitExport, Name.staticInit)
        :: [(Name.staticInitExport, Name.func ⟨"T", "Reset"⟩),
          ("Get", Name.func ⟨"T", "Get"⟩)] := hdeclared
    rw [Module.runs_split_iff hexports htargets hfirst]
    decide

end WastForge
