import WastForge.Proofs.Emit.Instance
import WastForge.Proofs.Emit.Slots

/-!
# The name of a program

The name of a program stands in its text once, in the remark at the start, and nothing else that is
written depends on it. The remark ends with its line, so the first line of the name is passed over
by the reader, and the other lines are text like any other: what they hold stands in front of the
module.
-/

namespace WastForge

/-! ## Writing under another name -/

/-- The program under another name. -/
def Program.named (p : Program) (n : Bytes) : Program := { p with name := n }

namespace Emit

/-- Code that is written against the program under another name. -/
def Env.named (env : Env) (n : Bytes) : Env := { env with program := env.program.named n }

variable (env : Env) (labels : LabelTable) (n : Bytes)

-- Of the program, expressions look at its types and functions only: both sides unfold to one term.
theorem expr_named : expr (env.named n) = expr env := by
  delta expr
  rfl

theorem guard_named (cond : Expr) (index : LoopIndex) :
    guard (env.named n) cond index = guard env cond index := by
  rw [Emit.guard, Emit.guard, expr_named]

theorem effects_named (l : List Expr) : effects (env.named n) l = effects env l := by
  induction l with
  | nil => rfl
  | cons e rest ih => rw [effects, effects, expr_named, ih]

theorem store_named : store (env.named n) = store env := rfl

theorem varInits_named (l : List VarInit) : varInits (env.named n) l = varInits env l := by
  induction l with
  | nil => rfl
  | cons v rest ih =>
    rw [varInits, varInits, expr_named, store_named, ih]
    rfl

mutual

theorem stmt_named (nest : Nest) (shape : Shape) :
    ∀ s, stmt (env.named n) labels nest shape s = stmt env labels nest shape s
  | .missing => rfl
  | .block _ rows => blockRows_named nest shape rows
  | .expr _ e => by rw [stmt, stmt, expr_named]
  | .ite _ cond yes no => by
    rw [stmt, stmt, expr_named, stmt_named nest .arm yes, stmt_named nest .arm no]
  | .forLoop m own init cond post body => by
    simp only [stmt, stmtRows_named nest init, guard_named, stmt_named _ _ body, effects_named]
  | .whileLoop m testLast own cond body => by
    simp only [stmt, guard_named, stmt_named _ _ body]
  | .labelGroup m rows => by simp only [stmt, sectionRows_named _ _ rows]
  | .goto m label => rfl
  | .branch m isContinue target => rfl
  | .ret _ value => by
    simp only [stmt, expr_named]
    rfl
  | .switch m own key cases => by
    simp only [stmt, expr_named, caseRows_named _ _ _ cases]
    rfl
  | .varDecl _ vars => by rw [stmt, stmt, varInits_named]
  | .bare m kind => rfl

theorem blockRows_named (nest : Nest) (shape : Shape) :
    ∀ rows, blockRows (env.named n) labels nest shape rows = blockRows env labels nest shape rows
  | none => rfl
  | some l => blockItems_named nest shape l

theorem blockItems_named (nest : Nest) (shape : Shape) :
    ∀ l, blockItems (env.named n) labels nest shape l = blockItems env labels nest shape l
  | [] => rfl
  | s :: rest => by
    rw [blockItems, blockItems, stmt_named nest shape s, stmt_named nest .plain s,
      stmts_named nest rest]

theorem stmtRows_named (nest : Nest) :
    ∀ rows, stmtRows (env.named n) labels nest rows = stmtRows env labels nest rows
  | none => rfl
  | some l => stmts_named nest l

theorem stmts_named (nest : Nest) :
    ∀ l, stmts (env.named n) labels nest l = stmts env labels nest l
  | [] => rfl
  | s :: rest => by rw [stmts, stmts, stmt_named nest .plain s, stmts_named nest rest]

theorem sectionRows_named (nest : Nest) (group : Nat) :
    ∀ rows, sectionRows (env.named n) labels nest group rows
      = sectionRows env labels nest group rows
  | none => rfl
  | some l => sections_named nest group 0 l

theorem sections_named (nest : Nest) (group index : Nat) :
    ∀ l, sections (env.named n) labels nest group index l = sections env labels nest group index l
  | [] => rfl
  | .mk _ body :: rest => by
    rw [sections, sections, stmtRows_named nest body, sections_named nest group (index + 1) rest]

theorem caseRows_named (nest : Nest) (span : Span) (wanted : Bool) :
    ∀ rows, caseRows (env.named n) labels nest span wanted rows
      = caseRows env labels nest span wanted rows
  | none => rfl
  | some l => cases_named nest span wanted l

theorem cases_named (nest : Nest) (span : Span) (wanted : Bool) :
    ∀ l, cases (env.named n) labels nest span wanted l = cases env labels nest span wanted l
  | [] => rfl
  | .mk values isDefault body :: rest => by
    rw [cases, cases, stmtRows_named nest body, cases_named nest span wanted rest]

end

theorem rootLines_named (root : Stmt) :
    rootLines (env.named n) labels root = rootLines env labels root := by
  cases root with
  | block _ rows => exact stmtRows_named env labels n {} rows
  | _ => exact stmt_named env labels n {} .plain _

theorem bodyLines_named (next : LoopIndex) (root : Stmt) :
    bodyLines (env.named n) labels next root = bodyLines env labels next root := by
  rw [bodyLines, bodyLines, rootLines_named]

theorem funcLines_named (next : LoopIndex) (b : Body) :
    funcLines (env.named n) next b = funcLines env next b := by
  have hbody (labels : LabelTable) (member : Bytes) (locals : Option (List (Bytes × TypeId))) :
      bodyLines { env.named n with member := member, locals := locals } labels next b.root
        = bodyLines { env with member := member, locals := locals } labels next b.root :=
    bodyLines_named { env with member := member, locals := locals } labels n next b.root
  simp only [funcLines, hbody]
  rfl

theorem funcsLines_named : ∀ (next : LoopIndex) (bodies : List Body),
    funcsLines (env.named n) next bodies = funcsLines env next bodies
  | _, [] => rfl
  | next, b :: rest => by
    simp only [funcsLines, funcLines_named, funcsLines_named _ rest]

theorem entryLines_named (next : LoopIndex) (hasCtors : Bool) (entry : Body) (root : Stmt) :
    entryLines (env.named n) next hasCtors entry root
      = entryLines env next hasCtors entry root := by
  have hbody (labels : LabelTable) (member : Bytes) :
      bodyLines { env.named n with member := member } labels next root
        = bodyLines { env with member := member } labels next root :=
    bodyLines_named { env with member := member } labels n next root
  simp only [entryLines, hbody]

theorem findSkipped_named (p : Program) (entry : Option FuncId) :
    ∀ bodies, findSkipped (p.named n) entry bodies = findSkipped p entry bodies
  | [] => rfl
  | b :: rest => by
    rw [findSkipped, findSkipped, findSkipped_named p entry rest]
    rfl

end Emit

/-- What a text starts with: the name in a remark that ends with the line. -/
def Program.header (n : Bytes) : Bytes := (";; " : Bytes) ++ n ++ [10]

namespace ModuleOutput

/-- The module with a name at the start of its text. -/
def titled (n : Bytes) (out : ModuleOutput) : ModuleOutput :=
  { out with text := Program.header n ++ out.text }

/-- The module without the name at the start of its text. -/
def untitled (n : Bytes) (out : ModuleOutput) : ModuleOutput :=
  { out with text := out.text.drop (Program.header n).length }

end ModuleOutput

namespace Work

variable {α β : Type} (f : α → β)

theorem run_map (act : Work α) (j : Journal) :
    (f <$> act).run j = ((act.run j).1.map f, (act.run j).2) := by
  rw [map_eq_pure_bind, run_bind_eq]
  rcases act.run j with ⟨_ | _, j'⟩ <;> rfl

theorem map_within (scope : Scope) (name : Bytes) (act : Work α) :
    f <$> within scope name act = within scope name (f <$> act) := by
  funext j
  refine (run_map f (within scope name act) j).trans ?_
  show _ = (((f <$> act).run (.enter scope name :: j)).1,
    JournalEntry.leave [] [] :: ((f <$> act).run (.enter scope name :: j)).2)
  rw [run_map]
  rfl

end Work

open ModuleOutput

theorem Emit.renderAll_titled (n : Bytes) (lines : List Line) :
    Line.renderAll 0 (.comment n :: lines) = Program.header n ++ Line.renderAll 0 lines := rfl

/-- The name stands in the first line of the text, and nowhere else in the module. -/
theorem Emit.emitPass_named (p : Program) (x : Expanded) (a : Arena) (n : Bytes) :
    emitPass (p.named n) x a = titled n <$> untitled p.name <$> emitPass p x a := by
  have htext (lines : List Line) : Line.renderAll 0 (.comment n :: lines) = Program.header n
      ++ (Line.renderAll 0 (.comment p.name :: lines)).drop (Program.header p.name).length := by
    rw [renderAll_titled, renderAll_titled, List.drop_left]
  have hskipped : findSkipped (p.named n) (p.entryPoint?.map (·.id)) p.bodies
      = findSkipped p (p.entryPoint?.map (·.id)) p.bodies := findSkipped_named n p _ _
  have hbodies : (p.named n).bodies = p.bodies := rfl
  have hentry : (p.named n).entryPoint? = p.entryPoint? := rfl
  have hname : (p.named n).name = n := rfl
  unfold emitPass
  simp only [Work.map_within, map_bind, hbodies, hentry, hname, hskipped]
  refine congrArg _ (bind_congr fun skipped => ?_)
  generalize p.entryPoint? = entry
  let env : Env := { program := p, arena := a, skipped := skipped, entry := entry.map (·.id) }
  refine (congrArg (· >>= _) (funcsLines_named env n _ _)).trans (bind_congr fun written => ?_)
  cases entry with
  | none =>
    simp only [map_bind, map_pure, titled, untitled, List.cons_append, htext]
    rfl
  | some b =>
    simp only [map_bind, map_pure, titled, untitled, List.cons_append, htext]
    exact (congrArg (· >>= _) (entryLines_named env n _ _ _ _)).trans (bind_congr fun _ => rfl)

namespace Program

theorem writing_named (p : Program) (n : Bytes) :
    (p.named n).writing = titled n <$> untitled p.name <$> p.writing := by
  simp only [writing, map_bind, ← Emit.emitPass_named]
  rfl

/-- Under any name a program comes to the same, but for the name in its text, and adds the same to
the journal, but for the name that its work begins with. -/
theorem run_emit_named (p : Program) : ∃ (r : Except Failure ModuleOutput) (new : Journal),
    ∀ n j, (p.named n).emit.run j
      = (r.map (titled n), .leave [] [] :: (new ++ .enter .program n :: j)) := by
  obtain ⟨r, new, hr⟩ := (reports_writing p).runs
  refine ⟨r.map (untitled p.name), new, fun n j => ?_⟩
  have hrun : (p.named n).writing.run (.enter .program n :: j)
      = ((r.map (untitled p.name)).map (titled n), new ++ .enter .program n :: j) := by
    rw [writing_named, Work.run_map, Work.run_map, hr]
  show (((p.named n).writing.run (.enter .program n :: j)).1,
    JournalEntry.leave [] [] :: ((p.named n).writing.run (.enter .program n :: j)).2) = _
  rw [hrun]

/-! ## Reading behind a name -/

/-- The lines of a name behind the first one. -/
def spill (n : Bytes) : Bytes := ((n ++ [10]).dropWhile (· != 10)).tail

theorem exists_first (n : Bytes) : ∃ first, 10 ∉ first ∧ n ++ [10] = first ++ 10 :: spill n := by
  obtain ⟨first, rest, hn, hfirst⟩ := List.eq_append_cons_of_mem (List.mem_append_right n
    (List.mem_singleton_self (10 : UInt8)))
  refine ⟨first, hfirst, ?_⟩
  have hdrop : (n ++ [10]).dropWhile (· != 10) = 10 :: rest := by
    have hne (b : UInt8) (hb : b ∈ first) : (b != 10) = true :=
      bne_iff_ne.mpr (ne_of_mem_of_not_mem hb hfirst)
    rw [hn, List.dropWhile_append_of_pos hne]
    rfl
  rw [spill, hdrop, hn, List.tail_cons]

theorem spill_cases (n : Bytes) : spill n = [] ∨ ∃ t, spill n = t ++ [10] := by
  obtain ⟨first, -, hn⟩ := exists_first n
  rcases List.eq_nil_or_concat (spill n) with h | ⟨t, b, h⟩
  · exact .inl h
  · rw [List.concat_eq_append] at h
    refine .inr ⟨t, ?_⟩
    rw [h, ← List.cons_append, ← List.append_assoc] at hn
    rw [h, (List.append_inj' hn rfl).2]

/-- The first line of a name is passed over. -/
theorem reading_titled (n : Bytes) (out : ModuleOutput) :
    Script.reading (out.titled n).text = Script.reading (spill n ++ out.text) := by
  obtain ⟨first, hfirst, hn⟩ := exists_first n
  obtain ⟨ns, hns, hthrough⟩ := Script.readsThrough_comment 0 1 hfirst
  obtain rfl : ns = [] := by
    cases ns with
    | nil => rfl
    | cons f rest => cases hns
  have htext : (out.titled n).text = Line.indent 0 ++ (";; " : Bytes) ++ first ++ [10]
      ++ (spill n ++ out.text) := by
    show (";; " : Bytes) ++ n ++ [10] ++ out.text = _
    rw [List.append_assoc (";; " : Bytes), hn]
    simp [Line.indent]
  have hread : Script.read (out.titled n).text = Script.resume ([], [])
      (Token.scanFrom .between (1 + 1) (spill n ++ out.text)) := by
    rw [htext]
    exact hthrough ([], []) _
  rw [Script.reading, hread, Script.forms_resume_scanFrom, Script.reading_eq]
  rfl

/-- The other lines of a name that are read by themselves stand in front of the module. If they are
not, and the module is, nothing is read. -/
theorem reading_spill (n : Bytes) (out : ModuleOutput) :
    (∀ before, Script.reading (spill n) = some before →
      Script.reading (out.titled n).text = (Script.reading out.text).map (before ++ ·))
    ∧ (Script.reading (spill n) = none → Script.reading out.text ≠ none →
      Script.reading (out.titled n).text = none) := by
  rw [reading_titled]
  rcases spill_cases n with h | ⟨t, h⟩
  · rw [h]
    refine ⟨fun before hbefore => ?_, fun hnone => nomatch hnone⟩
    obtain rfl : [] = before := Option.some.inj hbefore
    exact Option.map_id'.symm
  · rw [h, List.append_assoc]
    exact Script.reading_behind t out.text

/-- What is written behind the name is read by itself, if the program names only instructions that
expressions may have. -/
theorem reading_untitled {p : Program} (hops : p.NamesOps) {out : ModuleOutput}
    (h : Work.Comes p.emit (out.titled p.name)) : Script.reading out.text ≠ none := by
  obtain ⟨e, funcs, directives, rfl, hwrites⟩ := writes_of_emit h
  obtain ⟨ls, htext, hreadable, -⟩ := hwrites.exists_text hops
  have hrest : out.text = Line.renderAll 0 ls :=
    List.append_cancel_left (htext.trans (List.append_cons _ _ _))
  obtain ⟨ns, hread, -⟩ := Script.read_renderAll 0 ls hreadable
  rw [hrest, Script.reading, hread]
  exact Option.some_ne_none _

/-- Programs that differ in nothing but the name fail with the same or come to the same module, but
for the name at the start of the text, which leaves what is reported as it is. What the lines of a
name behind its first one are read as stands in front of what the module is read as. So if the
module is read by itself, as it is if the program names only instructions that expressions may have,
then two names leave texts that are read as the same forms just if their lines behind the first one
are read as the same forms. -/
theorem name_in_text (p : Program) : ∃ (r : Except Failure ModuleOutput) (new : Journal),
    (∀ n j, ({ p with name := n } : Program).emit.run j
      = (r.map (titled n), .leave [] [] :: (new ++ .enter .program n :: j)))
    ∧ ∀ out, r = .ok out → (p.NamesOps → Script.reading out.text ≠ none)
      ∧ (∀ n before, Script.reading (spill n) = some before →
        Script.reading (out.titled n).text = (Script.reading out.text).map (before ++ ·))
      ∧ (Script.reading out.text ≠ none → ∀ m n,
        (Script.reading (out.titled m).text = Script.reading (out.titled n).text
          ↔ Script.reading (spill m) = Script.reading (spill n))) := by
  obtain ⟨r, new, hrun⟩ := run_emit_named p
  refine ⟨r, new, hrun, fun out hr => ⟨fun hops => ?_, fun n => (reading_spill n out).1,
    fun hread m n => ?_⟩⟩
  · rw [hr] at hrun
    exact reading_untitled hops ⟨[], _, hrun p.name []⟩
  · obtain ⟨fs, hfs⟩ := Option.ne_none_iff_exists'.mp hread
    have htitled (n : Bytes) : Script.reading (out.titled n).text
        = (Script.reading (spill n)).map (· ++ fs) := by
      cases hspill : Script.reading (spill n) with
      | none => exact (reading_spill n out).2 hspill hread
      | some before => rw [(reading_spill n out).1 before hspill, hfs]; rfl
    rw [htitled, htitled]
    exact (Option.map_injective fun _ _ => List.append_cancel_right).eq_iff

/-- The program `int Get() { return 7; } void Main() { Get(); }`. -/
def callingProgram : Program where
  decls := some [{
    name := "T"
    funcs := some [
      { name := "Get", declaringType := "T", flags := 3, result := TypeTable.int32
        body := .ret { id := 1 }
          (.literal { type := TypeTable.int32 } { kind := .int, int := 7 }) },
      { name := "Main", declaringType := "T", flags := 5, result := TypeTable.void
        body := .expr { id := 2 }
          (.call { type := TypeTable.int32 } ⟨"T", "Get"⟩ none true .missing none) }] }]

/-- A name that goes on with a remark: the forms are those of any name of one line. -/
theorem name_in_text_remark : ∃ out : ModuleOutput,
    ((({ callingProgram with name := "p" } : Program).emit.run []).1 = .ok (out.titled "p")
      ∧ (({ callingProgram with name := "q\n;; r" } : Program).emit.run []).1
        = .ok (out.titled "q\n;; r"))
    ∧ Script.reading (out.titled "p").text ≠ none
    ∧ Script.reading (out.titled "p").text = Script.reading (out.titled "q\n;; r").text := by
  obtain ⟨r, new, hrun, hread⟩ := name_in_text callingProgram
  have hok : (callingProgram.emit.run []).1.toOption.isSome := by decide +kernel
  have hfront : callingProgram.IsFrontEnd := by decide +kernel
  cases r with
  | error f =>
    rw [show callingProgram.emit.run [] = _ from hrun [] []] at hok
    cases hok
  | ok out =>
    obtain ⟨hsome, hbefore, hsame⟩ := hread out rfl
    have hout : Script.reading out.text ≠ none := hsome hfront.namesOps
    have hspill : Script.reading (spill "p") = some [] := rfl
    have hp := hbefore "p" [] hspill
    refine ⟨out, ⟨congrArg Prod.fst (hrun "p" []), congrArg Prod.fst (hrun "q\n;; r" [])⟩, ?_, ?_⟩
    · rw [hp, Ne, Option.map_eq_none_iff]
      exact hout
    · exact (hsame hout "p" "q\n;; r").mpr rfl

/-- A name that goes on with a form: there is one form more in front of the module. -/
theorem name_read_as_form :
    ((({ name := "p" } : Program).emit.result?.bind fun out => Script.reading out.text).map
      List.length = some 1)
    ∧ (({ name := "p\n(module)" } : Program).emit.result?.bind fun out =>
      Script.reading out.text).map List.length = some 2 := by
  decide +kernel

end Program

end WastForge
