import WastForge.Proofs.Emit.Emits
import WastForge.Proofs.Emit.Lookup
import WastForge.Proofs.Support.Failure

/-!
# Code asks for slots that are there

The memory of a program is laid out by a visitor of its bodies, and its code is written by another
one. Whatever code asks for was met before: no string is missing, and no static field that has a
declaration and a size.
-/

namespace WastForge

namespace Emit

open Work

variable {exprs : List Expr}

/-- Writing a module starts with the functions that are left out; what follows asks a memory that
has what the bodies mention. -/
theorem reports_after_findSkipped {p : Program} {x : Expanded} {a : Arena}
    (h : ∀ b ∈ x.bodies, b.root.Each (Told p a exprs)) :
    ∃ next : List FuncId → Work ModuleOutput,
      emitPass p x a
          = within .pass "emit" (findSkipped p (p.entryPoint?.map (·.id)) p.bodies >>= next)
        ∧ ∀ skipped, Reports (Justified p exprs) .missingSlot (next skipped) := by
  refine ⟨_, rfl, fun skipped => ?_⟩
  let env : Env := { program := p, arena := a, skipped := skipped
                     entry := p.entryPoint?.map (·.id) }
  have hwritten : ∀ keep : Body → Bool, ∀ b ∈ x.bodies.filter keep, b.root.Each (Told p a exprs) :=
    fun keep b hb => h b (List.mem_of_mem_filter hb)
  refine reports_bind (@honest_funcsLines env exprs _ _ (hwritten _)) fun written => ?_
  obtain ⟨_, next⟩ := written
  have hentry : ∀ b : Body,
      Stmt.Each (Told p a exprs) (((x.body? b.id).map (·.root)).getD .missing) := by
    intro b
    cases hbody : x.body? b.id with
    | none => exact Stmt.each_missing
    | some b' => exact h b' (List.mem_of_find?_eq_some hbody)
  simp only
  split
  · exact reports_bind (reports_pure _) fun _ => reports_pure _
  · rename_i b _
    refine reports_bind (@honest_entryLines env exprs next _ b _ (hentry b)) fun _ => ?_
    exact reports_pure _

theorem reports_emitPass {p : Program} {x : Expanded} {a : Arena}
    (h : ∀ b ∈ x.bodies, b.root.Each (Told p a exprs)) :
    Reports (Justified p exprs) .missingSlot (emitPass p x a) := by
  obtain ⟨next, heq, hnext⟩ := reports_after_findSkipped h
  rw [heq]
  exact reports_within (reports_bind (honest_findSkipped p _ p.bodies) hnext)

end Emit

namespace Arena

open Work Emit

variable {p : Program} {exprs : List Expr}

/-- Placing that comes to the same whatever the journal holds, only adds warnings that are
justified, and only fails with errors, but not for want of a slot. -/
structure Quiet (p : Program) (exprs : List Expr) {α : Type} (act : PlaceM α) : Prop where
  runs : ∀ a, ∃ r new, ∀ j, (act.run.run a).run j = (r, new ++ j)
  warns : ∀ a j, ∃ new, ((act.run.run a).run j).2 = new ++ j
    ∧ ∀ d, .warning d ∈ new → Justified p exprs d ∧ d.severity = .warning
  fails : ∀ a j f, ((act.run.run a).run j).1.1 = .error f → f.IsError .missingSlot

theorem quiet_pure : Quiet p exprs (pure ()) :=
  ⟨fun _ => ⟨_, [], fun _ => rfl⟩, fun _ _ => ⟨[], rfl, fun _ h => nomatch h⟩,
    fun _ _ _ h => nomatch h⟩

theorem Quiet.seq {act next : PlaceM Unit} (hact : Quiet p exprs act)
    (hnext : Quiet p exprs next) : Quiet p exprs (act >>= fun _ => next) := by
  constructor
  · intro a
    obtain ⟨⟨r, b⟩, new, hr⟩ := hact.runs a
    cases r with
    | error e =>
      refine ⟨(.error e, b), new, fun j => ?_⟩
      rw [ExceptT.run_bind, StateT.run_bind, StateT.run_bind, hr]
      rfl
    | ok _ =>
      obtain ⟨r', more, hr'⟩ := hnext.runs b
      refine ⟨r', more ++ new, fun j => ?_⟩
      rw [ExceptT.run_bind, StateT.run_bind, StateT.run_bind, hr, List.append_assoc]
      exact hr' (new ++ j)
  · intro a j
    obtain ⟨new, hnew, hW⟩ := hact.warns a j
    rw [ExceptT.run_bind, StateT.run_bind, StateT.run_bind]
    rcases hrun : (act.run.run a).run j with ⟨⟨e | _, b⟩, j₁⟩
    · rw [hrun] at hnew
      exact ⟨new, hnew, hW⟩
    · rw [hrun] at hnew
      obtain ⟨more, hmore, hmoreW⟩ := hnext.warns b j₁
      refine ⟨more ++ new, ?_, fun d hd => ?_⟩
      · rw [List.append_assoc, ← hnew]
        exact hmore
      · exact (List.mem_append.mp hd).elim (hmoreW d) (hW d)
  · intro a j f
    have hfails := hact.fails a j
    rw [ExceptT.run_bind, StateT.run_bind, StateT.run_bind]
    rcases hrun : (act.run.run a).run j with ⟨⟨e | _, b⟩, j₁⟩
    · intro hf
      obtain rfl : e = f := Except.error.inj hf
      exact hfails e (by rw [hrun])
    · exact hnext.fails b j₁ f

theorem quiet_forM {α : Type} {f : α → PlaceM Unit} (hf : ∀ x, Quiet p exprs (f x)) (l : List α) :
    Quiet p exprs (l.forM f) := by
  induction l with
  | nil => exact quiet_pure
  | cons x l ih => exact (hf x).seq ih

theorem isError_failureAt (member : Bytes) (span : Span) (err : LayoutError) :
    (failureAt member span err).IsError .missingSlot := by
  have hcode : err.code ≠ .missingSlot := by cases err <;> exact of_decide_eq_true rfl
  cases err with
  | crash _ => exact .of_crash (by decide) _
  | _ => exact (Failure.IsError.of_code hcode _ _).inMember member

theorem run_get_bind {α : Type} {f : Arena → PlaceM α} {a : Arena} {j : Journal} :
    ((getThe Arena >>= f).run.run a).run j = ((f a).run.run a).run j := rfl

theorem quiet_place (member : Bytes) (e : Expr) : Quiet p exprs (place p member e) := by
  have hrun : ∀ a, (∃ b w, (∀ j, ((place p member e).run.run a).run j = ((.ok (), b), w ++ j))
        ∧ ∀ d, .warning d ∈ w → d.code = .fieldType ∧ d.severity = .warning)
      ∨ ∃ b f, (∀ j, ((place p member e).run.run a).run j = ((.error f, b), j))
        ∧ f.IsError .missingSlot := by
    intro a
    unfold place
    rcases hmention : (placeMention p member e).run a with ⟨err | _ | d, b⟩
    · refine .inr ⟨b, failureAt member e.span err, fun j => ?_, isError_failureAt member e.span err⟩
      rw [run_get_bind, hmention]
      rfl
    · refine .inl ⟨b, [], fun j => ?_, fun _ hd => nomatch hd⟩
      rw [run_get_bind, hmention]
      rfl
    · refine .inl ⟨b, [.warning d], fun j => ?_, fun d' hd' => ?_⟩
      · rw [run_get_bind, hmention]
        rfl
      · cases List.mem_singleton.mp hd'
        exact warning_placeMention hmention
  constructor
  · intro a
    rcases hrun a with ⟨b, w, heq, -⟩ | ⟨b, f, heq, -⟩
    · exact ⟨_, w, heq⟩
    · exact ⟨_, [], heq⟩
  · intro a j
    rcases hrun a with ⟨b, w, heq, hcode⟩ | ⟨b, f, heq, _⟩
    · refine ⟨w, by rw [heq], fun d hd => ⟨fun hbad => ?_, (hcode d hd).2⟩⟩
      rw [(hcode d hd).1] at hbad
      cases hbad
    · exact ⟨[], by rw [heq]; rfl, fun _ hd => nomatch hd⟩
  · intro a j f hf
    rcases hrun a with ⟨b, w, heq, _⟩ | ⟨b, f', heq, hcode⟩
    · rw [heq] at hf
      cases hf
    · rw [heq] at hf
      obtain rfl := Except.error.inj hf
      exact hcode

theorem quiet_placeAll (bodies : List Body) : Quiet p exprs (placeAll p bodies) := by
  refine quiet_forM (fun b => ?_) bodies
  exact quiet_forM (quiet_place b.func.qualifiedName) (mentions b)

theorem reports_ofProgram (heapSize : UInt32) (bodies : List Body) :
    Reports (Justified p exprs) .missingSlot (ofProgram p heapSize bodies) := by
  have hquiet : Quiet p exprs (placeAll p bodies) := quiet_placeAll bodies
  constructor
  · obtain ⟨⟨r, a⟩, new, hr⟩ := hquiet.runs { types := p.types, heapSize := heapSize }
    refine ⟨r.map fun _ => a, .leave [] [("fields", Bytes.ofNat a.fields.length),
      ("strings", Bytes.ofNat a.strings.length)] :: new ++ [.enter .pass "layout"], fun j => ?_⟩
    have hplaced : ((placeAll p bodies).run { types := p.types, heapSize := heapSize }).run
        (.enter .pass "layout" :: j) = ((r, a), new ++ .enter .pass "layout" :: j) := hr _
    show ofProgram p heapSize bodies j = _
    rw [ofProgram, hplaced, List.append_assoc]
    rfl
  · intro j
    obtain ⟨new, hnew, hW⟩ := hquiet.warns { types := p.types, heapSize := heapSize }
      (.enter .pass "layout" :: j)
    obtain ⟨counts, hlast⟩ : ∃ counts, ((ofProgram p heapSize bodies).run j).2
        = .leave [] counts :: (((placeAll p bodies).run.run
          { types := p.types, heapSize := heapSize }).run (.enter .pass "layout" :: j)).2 :=
      ⟨_, rfl⟩
    refine ⟨.leave [] counts :: new ++ [.enter .pass "layout"], ?_, fun d hd => ?_⟩
    · rw [hlast, hnew, List.append_assoc]
      rfl
    · simp only [List.cons_append, List.mem_cons, reduceCtorEq, List.mem_append, List.not_mem_nil,
        or_false, false_or] at hd
      exact hW d hd
  · intro j f hf
    rcases hrun : ((placeAll p bodies).run.run { types := p.types, heapSize := heapSize }).run
      (.enter .pass "layout" :: j) with ⟨⟨r, a⟩, j₁⟩
    have hr : r.map (fun _ => a) = .error f :=
      (congrArg (fun x => x.1.1.map fun _ => x.1.2) hrun).symm.trans hf
    cases r with
    | ok _ => cases hr
    | error f' =>
      obtain rfl := Except.error.inj hr
      exact hquiet.fails _ _ f' (by rw [hrun])

end Arena

open Work Emit

theorem reports_expandPass {p : Program} {exprs : List Expr} :
    Reports (Justified p exprs) .missingSlot (Support.expandPass p) := by
  refine reports_within (reports_bind (reports_result fun f => Support.isError_expand) fun _ => ?_)
  exact reports_bind (reports_point _ _ _) fun _ => reports_pure _

/-- The expressions of all bodies of a program with its support calls expanded. -/
def Program.mentions (p : Program) : List Expr :=
  (Support.expand p).toOption.elim [] fun x => x.bodies.flatMap Arena.mentions

/-- Every expression of a body is met when its memory is laid out. -/
theorem told_of_serves {p : Program} {a : Arena} {exprs : List Expr} {b : Body}
    (h : ∀ e ∈ Arena.mentions b, e ∈ exprs ∧ a.Serves p e) : b.root.Each (Told p a exprs) := by
  rintro x hx e rfl
  exact h e (List.mem_filterMap.mpr ⟨.expr e, hx, rfl⟩)

theorem mention_serves {p : Program} {x : Expanded} {a : Arena} (hx : Support.expand p = .ok x)
    (ha : Work.Comes (Arena.ofProgram p (x.heapSize p.entryPoint?) x.bodies) a) :
    ∀ b ∈ x.bodies, ∀ e ∈ Arena.mentions b, e ∈ p.mentions ∧ a.Serves p e := by
  intro b hb e he
  refine ⟨?_, (Arena.comes_ofProgram ha).2 b hb e he⟩
  rw [Program.mentions, hx]
  exact List.mem_flatMap.mpr ⟨b, hb, he⟩

/-- What writing a program does between its beginning and its end. -/
def Program.writing (p : Program) : Work ModuleOutput := do
  let x ← Support.expandPass p
  let a ← Arena.ofProgram p (x.heapSize p.entryPoint?) x.bodies
  emitPass p x a

theorem reports_writing (p : Program) :
    Reports (Justified p p.mentions) .missingSlot p.writing := by
  refine reports_bind_of_comes reports_expandPass fun x hx => ?_
  refine reports_bind_of_comes (Arena.reports_ofProgram _ _) fun a ha => ?_
  refine reports_emitPass fun b hb => told_of_serves fun e he => ?_
  obtain ⟨y, hy, hpoint⟩ := comes_bind (comes_within hx)
  obtain ⟨_, _, hpure⟩ := comes_bind hpoint
  obtain rfl := comes_pure hpure
  exact mention_serves (comes_result hy) ha b hb e he

/-- Writing a program only adds warnings to the journal, and only fails with errors. -/
theorem reports_emit (p : Program) : Reports (Justified p p.mentions) .missingSlot p.emit :=
  reports_within (reports_writing p)

/-- Whatever code asks for was laid out: writing a program never fails because a string has no
entry; it warns that a static field has no slot only where an expression reads or writes a field
whose first declaration, of the first type of its name, has no size or does not exist; and in the
memory that it is written against, all strings of the bodies have their slots, and so have all
static fields with such a declaration and a size. As long as names are told apart, these are all
the fields that the program declares with a size. -/
theorem slots_suffice (p : Program) (j : Journal) :
    (∀ f, (p.emit.run j).1 = .error f → f.code ≠ .missingSlot)
      ∧ (∃ new, (p.emit.run j).2 = new ++ j
        ∧ ∀ d, .warning d ∈ new → Justified p p.mentions d)
      ∧ (∀ x a, Support.expand p = .ok x →
        Work.Comes (Arena.ofProgram p (x.heapSize p.entryPoint?) x.bodies) a →
        ∀ e ∈ p.mentions, a.Serves p e)
      ∧ ∀ target, (p.FindsField target → p.HasField target)
        ∧ (p.NamesApart → p.HasField target → p.FindsField target) := by
  obtain ⟨new, hnew, hwarns⟩ := (reports_emit p).warns j
  refine ⟨fun f hf => ((reports_emit p).fails j f hf).code,
    ⟨new, hnew, fun d hd => (hwarns d hd).1⟩, fun x a hx ha e he => ?_,
    fun target => ⟨fun h => h.has, fun hp h => h.finds hp⟩⟩
  rw [Program.mentions, hx] at he
  obtain ⟨b, hb, he⟩ := List.mem_flatMap.mp he
  exact (mention_serves hx ha b hb e he).2

/-- A program with two types of one name, of which the second one declares a field that a function
of the first one reads. -/
def secondTypeProgram : Program :=
  { name := "p"
    decls := some [
      { name := "T"
        funcs := some [{
          name := "F", declaringType := "T", flags := 3, result := TypeTable.int32
          body := .block { id := 1 } (some [.ret { id := 2 }
            (.field { type := TypeTable.int32 } ⟨"T", "level"⟩ true .missing)]) }] },
      { name := "T", fields := some [some { name := "level", type := TypeTable.int32 }] }] }

/-- The field of a second type is declared and has a size, and code finds no slot for it. -/
theorem second_type_hides_field :
    secondTypeProgram.HasField ⟨"T", "level"⟩
      ∧ ∃ d ∈ (secondTypeProgram.emit.run []).2.warnings, d.code = .untranslatable
        ∧ d.message = noSlot ⟨"T", "level"⟩ := by
  refine ⟨⟨{ name := "level", type := TypeTable.int32 }, ⟨_, List.mem_cons_of_mem _
    List.mem_cons_self, rfl, List.mem_cons_self, rfl⟩, 4, ?_⟩, by decide +kernel⟩
  exact .scalar (d := { kind := .int, width := 32 }) (by decide) (by decide)

end WastForge
