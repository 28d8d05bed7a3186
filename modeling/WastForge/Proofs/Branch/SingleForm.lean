import WastForge.Proofs.Branch.Program
import WastForge.Proofs.Text.Reading

/-!
# Single forms

An operand is told from the next one by its place alone, so what is written for an expression has to
be nothing or exactly one form, and the arm of a condition exactly one. This is the case wherever
the arm stands, whatever its statement is made of: text grows by one line after the other, and the
text of a piece of code is the same wherever it is written, up to the depth of its lines.
-/

namespace WastForge

/-! ## Writing line by line -/

/-- Text that is written, and how deep its next line stands. -/
structure Writer where
  text : Bytes := []
  depth : Nat := 0
  deriving Repr, DecidableEq

namespace Writer

/-- A line at the depth. There is no line without anything on it. -/
def line (w : Writer) (s : Bytes) : Writer :=
  if s.isEmpty then w else { w with text := w.text ++ (Line.indent w.depth ++ s ++ [10]) }

/-- The line that opens a group. -/
def opening (w : Writer) (head : Bytes) : Writer :=
  { w.line head with depth := w.depth + 1 }

/-- The line that closes a group. -/
def closing (w : Writer) : Writer := { w with depth := w.depth - 1 }.line [41]

mutual

/-- Write a line, or a group of them. -/
def write (w : Writer) : Line → Writer
  | .blank => { w with text := w.text ++ [10] }
  | .comment text => w.line ((";; " : Bytes) ++ text)
  | .form f => w.line f.render
  | .group head body => (writeAll (w.opening (40 :: Line.renderHead head)) body).closing

/-- Write one line after the other. -/
def writeAll (w : Writer) : List Line → Writer
  | [] => w
  | l :: rest => writeAll (w.write l) rest

end

theorem line_of_ne_nil (w : Writer) {s : Bytes} (h : s ≠ []) :
    w.line s = ⟨w.text ++ (Line.indent w.depth ++ s ++ [10]), w.depth⟩ := by
  rw [line, if_neg]
  rwa [List.isEmpty_iff]

/-- A form that can be read back is not nothing. -/
theorem render_ne_nil {f : Form} (h : f.isReadable) : f.render ≠ [] := by
  cases f with
  | atom w =>
    rintro rfl
    cases h
  | text t => exact List.cons_ne_nil _ _
  | list items => exact List.cons_ne_nil _ _

mutual

/-- A line is written behind the text at the depth of the writer. -/
theorem write_eq (w : Writer) :
    ∀ l : Line, l.isReadable → w.write l = ⟨w.text ++ l.render w.depth, w.depth⟩
  | .blank, _ => rfl
  | .comment text, _ => by
    have hne : (";; " : Bytes) ++ text ≠ [] :=
      List.append_ne_nil_of_left_ne_nil (by decide) text
    rw [write, line_of_ne_nil w hne, Line.render, ← List.append_assoc _ _ text]
  | .form f, h => by
    rw [write, line_of_ne_nil w (render_ne_nil h), Line.render]
  | .group head body, h => by
    simp only [Line.isReadable, Bool.and_eq_true] at h
    rw [write, opening, line_of_ne_nil w (List.cons_ne_nil _ _), writeAll_eq _ body h.2, closing,
      line_of_ne_nil _ (List.cons_ne_nil _ _), Line.render]
    simp

theorem writeAll_eq (w : Writer) :
    ∀ ls : List Line, Line.areReadable ls →
      w.writeAll ls = ⟨w.text ++ Line.renderAll w.depth ls, w.depth⟩
  | [], _ => by simp [writeAll, Line.renderAll]
  | l :: rest, h => by
    simp only [Line.areReadable, Bool.and_eq_true] at h
    rw [writeAll, write_eq w l h.1, writeAll_eq _ rest h.2, Line.renderAll, List.append_assoc]

end

end Writer

/-- What the lines add to a text is read as exactly this form, and behind it the depth is what it
was before. -/
def Line.WritesOne (lines : List Line) (f : Form) : Prop :=
  ∀ w : Writer, ∃ s, w.writeAll lines = ⟨w.text ++ s, w.depth⟩
    ∧ ∃ n, Script.read s = .ok [n] ∧ n.form = f

theorem Line.writesOne_of_readable {lines : List Line} {f : Form} (h : Line.areReadable lines)
    (hf : Line.formsAll lines = [f]) : Line.WritesOne lines f := by
  intro w
  obtain ⟨ns, hread, hforms⟩ := Script.read_renderAll w.depth lines h
  rw [hf, SourceForm.forms_eq_map, List.map_eq_singleton_iff] at hforms
  obtain ⟨n, rfl, hn⟩ := hforms
  exact ⟨_, w.writeAll_eq lines h, n, hread, hn⟩

/-! ## Nothing or one form -/

open Emit Control

theorem Line.readable_group {head : List (Option Form)} {body : List Line}
    (hhead : ∀ f, some f ∈ head → f.isReadable) (hbody : Line.areReadable body) :
    Line.areReadable [.group head body] := by
  have hall : (head.filterMap id).all Form.isReadable :=
    List.all_eq_true.mpr (Form.forall_filterMap_id hhead)
  rw [Line.areReadable, Line.isReadable, hall, hbody]
  rfl

theorem Line.readable_form {f : Form} (h : f.isReadable) : Line.areReadable [.form f] := by
  rw [Line.areReadable, Line.isReadable, h]
  rfl

theorem Line.readable_append {lines more : List Line} (h : Line.areReadable lines)
    (h' : Line.areReadable more) : Line.areReadable (lines ++ more) := by
  rw [Line.areReadable_append, h, h']
  rfl

theorem Form.readable_words {l : List Bytes} (h : ∀ w ∈ l, Token.isWord w) :
    (Form.words l).isReadable := by
  refine (Form.areReadable_iff _).mpr fun f hf => ?_
  obtain ⟨w, hw, rfl⟩ := List.mem_map.mp hf
  exact h w hw

namespace Emit

/-- Lines in a place of the shape can be read back, and are one form where one is wanted. -/
structure Shape.Fits (shape : Shape) (lines : List Line) : Prop where
  readable : Line.areReadable lines
  single : shape = .arm → ∃ f, Line.formsAll lines = [f]

section

variable {shape : Shape} {lines : List Line}

/-- One form does in all places. -/
theorem Shape.Fits.one {f : Form} (h : Line.areReadable lines) (hf : Line.formsAll lines = [f]) :
    shape.Fits lines :=
  ⟨h, fun _ => ⟨f, hf⟩⟩

theorem Shape.Fits.form {f : Form} (h : f.isReadable) : shape.Fits [.form f] :=
  .one (Line.readable_form h) rfl

theorem Shape.Fits.group {head : List (Option Form)} {body : List Line}
    (hhead : ∀ f, some f ∈ head → f.isReadable) (hbody : Line.areReadable body) :
    shape.Fits [.group head body] :=
  .one (Line.readable_group hhead hbody) rfl

theorem Shape.Fits.block (h : Line.areReadable lines) : shape.Fits (Shape.block lines) := by
  refine .group (fun f hf => ?_) h
  obtain rfl := Option.some.inj (List.mem_singleton.mp hf)
  decide

theorem Shape.Fits.nothing : shape.Fits shape.nothing := by
  cases shape with
  | arm => exact .form (by decide)
  | plain | body => exact ⟨rfl, fun h => by cases h⟩

theorem Shape.Fits.several (h : Line.areReadable lines) : shape.Fits (shape.several lines) := by
  cases shape with
  | arm => exact .block h
  | plain | body => exact ⟨h, fun harm => by cases harm⟩

theorem Shape.Fits.ofBlock {isEmpty : Bool} (h : Line.areReadable lines) :
    shape.Fits (shape.ofBlock isEmpty lines) := by
  cases shape with
  | arm => exact .block h
  | body => exact ⟨h, fun harm => by cases harm⟩
  | plain =>
    cases isEmpty with
    | true => exact ⟨rfl, fun harm => by cases harm⟩
    | false => exact .block h

end

section

variable {shape : Shape} {lines body : List Line}

theorem readable_labelled {word l : Bytes} (hword : Token.isWord word) (hl : Token.isWord l)
    (hbody : Line.areReadable body) : Line.areReadable [.group (labelled word l) body] := by
  refine Line.readable_group (fun f hf => ?_) hbody
  simp only [labelled, List.mem_cons, Option.some.injEq, List.not_mem_nil, or_false] at hf
  rcases hf with rfl | rfl
  · exact hword
  · exact hl

theorem readable_round {i : LoopIndex} (hbody : Line.areReadable body) :
    Line.areReadable [.group (labelled "block" (Name.continue_ i)) body] :=
  readable_labelled (by decide) (LabelKind.continue_ i).isWord_text hbody

theorem Shape.Fits.labelled {word : Bytes} {k : LabelKind} (hword : Token.isWord word)
    (hbody : Line.areReadable body) : shape.Fits [.group (labelled word k.text) body] :=
  .one (readable_labelled hword k.isWord_text hbody) rfl

theorem readable_br {k : LabelKind} : (Form.words ["br", k.text]).isReadable := by
  refine Form.readable_words ?_
  simp only [List.forall_mem_cons]
  exact ⟨by decide, k.isWord_text, List.forall_mem_nil _⟩

theorem readable_gotoForm (place : LabelPlace) : (gotoForm place).isReadable := by
  have hlines : Written [Name.dispatch place.group] [.form (gotoForm place)] _ :=
    .goto List.mem_cons_self
  exact (Line.areReadable_iff _).mp hlines.readable _ List.mem_cons_self

theorem readable_section (place : LabelPlace) (hbody : Line.areReadable body) :
    Line.areReadable [section_ place body] := by
  have hblock : Shape.plain.Fits _ := Shape.Fits.block hbody
  refine Line.readable_group (fun f hf => ?_) hblock.readable
  simp only [List.mem_cons, Option.some.injEq, List.not_mem_nil, or_false] at hf
  rcases hf with rfl | rfl
  · decide
  · exact (plain_testPosition place.group place.index).readable

theorem readable_groupLines {g : Nat} (hbody : Line.areReadable body) :
    Line.areReadable (groupLines g body) := by
  have hleave : Line.areReadable [.form (.words ["br", Name.labelGroup g])] :=
    Line.readable_form (readable_br (k := .group g))
  have hset : Line.areReadable [.form (.list [.atom "set_local", .atom (Name.currentLabel g),
      .words ["i32.const", "0"]])] := Line.readable_form (plain_setPosition g 0).readable
  refine Line.readable_append hset ?_
  exact readable_labelled (by decide) (LabelKind.group g).isWord_text
    (readable_labelled (by decide) (LabelKind.dispatch g).isWord_text
      (Line.readable_append hbody hleave))

theorem readable_fallThrough {values : List Bytes} (h : ∀ v ∈ values, Token.isWord v) :
    Line.areReadable (values.map fun v => .form (.words ["case", v])) := by
  have harms : WrittenArms [] _ _ := WrittenArms.fallThroughs h
  exact harms.readable

theorem readable_caseLines {isDefault : Bool} {values : List Bytes}
    (hvalues : ∀ v ∈ values, Token.isWord v) (hsome : isDefault = false → values ≠ [])
    (hbody : Line.areReadable body) : Line.areReadable (caseLines isDefault values body) := by
  unfold caseLines
  cases isDefault with
  | true =>
    refine Line.readable_append (readable_fallThrough hvalues) ?_
    refine Line.readable_group (fun f hf => ?_) hbody
    obtain rfl := Option.some.inj (List.mem_singleton.mp hf)
    decide
  | false =>
    obtain ⟨front, v, rfl⟩ := (List.eq_nil_or_concat values).resolve_left (hsome rfl)
    rw [List.concat_eq_append, List.forall_mem_append, List.forall_mem_singleton] at hvalues
    simp only [List.concat_eq_append, List.dropLast_concat, List.getLast?_append,
      List.getLast?_singleton]
    exact Line.readable_append (readable_fallThrough hvalues.1)
      (readable_labelled (by decide) hvalues.2 hbody)

variable {env : Env}

theorem readable_guard {cond : Expr} {i : LoopIndex} (hcond : Expr.Each (Node.Names IsOp) cond)
    (h : Work.Comes (guard env cond i) lines) : Line.areReadable lines := by
  unfold guard at h
  cases hmissing : cond.isMissing with
  | true =>
    rw [hmissing, if_pos rfl] at h
    obtain rfl := Work.comes_pure h
    rfl
  | false =>
    rw [hmissing, if_neg Bool.false_ne_true] at h
    obtain ⟨c, hc, h⟩ := Work.comes_bind h
    obtain rfl := Work.comes_pure h
    have hexit : Written [Name.loop i] _ _ :=
      .exit (plain_of_comes hcond hc).2 List.mem_cons_self (LabelKind.loop i).isWord_text
    exact hexit.readable

/-- A goto and a break or continue are one form. -/
theorem Shape.Fits.goto {labels : LabelTable} {nest : Nest} {span : Span} {label : Bytes}
    (h : Work.Comes (gotoLine labels nest span label) lines) : shape.Fits lines := by
  unfold gotoLine at h
  split at h
  · exact absurd h Work.not_comes_problem
  · split at h
    · obtain rfl := Work.comes_pure h
      exact .form (readable_gotoForm _)
    · exact absurd h Work.not_comes_problem

theorem Shape.Fits.branch {nest : Nest} {span : Span} {isContinue : Bool} {target : LoopIndex}
    (h : Work.Comes (branchLine nest span isContinue target) lines) : shape.Fits lines := by
  unfold branchLine at h
  simp only at h
  split at h
  · rename_i l hl
    obtain rfl := Work.comes_pure h
    obtain ⟨k, rfl⟩ : ∃ k : LabelKind, l = k.text := by
      cases isContinue with
      | true =>
        obtain ⟨s, -, rfl⟩ := Option.map_eq_some_iff.mp hl
        exact ⟨.continue_ s.index, rfl⟩
      | false =>
        obtain ⟨s, -, rfl⟩ := Option.map_eq_some_iff.mp hl
        cases s.isSwitch with
        | true => exact ⟨.switch s.index, rfl⟩
        | false => exact ⟨.loop s.index, rfl⟩
    exact .form readable_br
  · exact absurd h Work.not_comes_problem

end

variable {env : Env} {labels : LabelTable}

mutual

/-- What is written for a statement of a function fits its place: the induction is on the
statement, and only a block with one statement hands its place on. -/
theorem fits_stmt (htop : env.isTopLevel = false) (nest : Nest) (shape : Shape) :
    ∀ (s : Stmt) {n n' : LoopNumbers} {lines : List Line}, Stmt.Each (Node.Names IsOp) s →
      Emits (stmt env labels nest shape s) n lines n' → shape.Fits lines
  | .missing, n, n', lines, _, he => by
    obtain ⟨rfl, rfl⟩ := emits_pure he
    exact .nothing
  | .block m rows, n, n', lines, hs, he =>
    fits_blockRows htop nest shape rows (Stmt.each_block.mp hs).2 he
  | .expr m e, n, n', lines, hs, he => by
    obtain ⟨-, x, hx, rfl⟩ := emits_expr he
    cases x with
    | none => exact .nothing
    | some f => exact .form ((plain_of_comes (Stmt.each_expr.mp hs).2 hx).2 f rfl).readable
  | .ite m cond yes no, n, n', lines, hs, he => by
    obtain ⟨_, hcond, hyes, hno⟩ := Stmt.each_ite.mp hs
    obtain ⟨x, ys, n₁, zs, hx, hys, hzs, rfl⟩ := emits_ite he
    have hfirst := fits_stmt htop nest .arm yes hyes hys
    have hsecond : Line.areReadable zs := by
      rcases hzs with ⟨-, rfl, -⟩ | ⟨-, hzs⟩
      · rfl
      · exact (fits_stmt htop nest .arm no hno hzs).readable
    refine .group (fun f hf => ?_) (Line.readable_append hfirst.readable hsecond)
    simp only [List.mem_cons, Option.some.injEq, List.not_mem_nil, or_false] at hf
    rcases hf with rfl | hf
    · decide
    · exact ((plain_of_comes hcond hx).2 f hf.symm).readable
  | .forLoop m own init cond post body, n, n', lines, hs, he => by
    obtain ⟨_, hinit, hcond, hbody, hpost⟩ := Stmt.each_forLoop.mp hs
    obtain ⟨init', n₁, i, n₂, test, body', post', hinit', -, htest, hbody', hpost', rfl⟩ :=
      emits_forLoop he
    have hafter : Written [] post' [] := written_effects (Expr.eachRow_iff.mp hpost) hpost'
    have hround := readable_round (fits_stmt htop _ .body body hbody hbody').readable (i := i)
    have hloop := Line.readable_append (Line.readable_append (readable_guard hcond htest) hround)
      hafter.readable
    exact .several (Line.readable_append (readable_stmtRows htop nest init hinit hinit')
      (readable_labelled (by decide) (LabelKind.loop i).isWord_text hloop))
  | .whileLoop m testLast own cond body, n, n', lines, hs, he => by
    obtain ⟨_, hcond, hbody⟩ := Stmt.each_whileLoop.mp hs
    obtain ⟨i, n₁, test, body', -, htest, hbody', rfl⟩ := emits_whileLoop he
    have hround := readable_round (fits_stmt htop _ .body body hbody hbody').readable (i := i)
    have htest := readable_guard hcond htest
    cases testLast with
    | true => exact .labelled (k := .loop i) (by decide) (Line.readable_append hround htest)
    | false => exact .labelled (k := .loop i) (by decide) (Line.readable_append htest hround)
  | .labelGroup m rows, n, n', lines, hs, he => by
    obtain ⟨g, -, ⟨-, -, rfl⟩ | ⟨-, -, sections, hsections, rfl⟩⟩ := emits_labelGroup he
    · exact .several rfl
    · exact .several (readable_groupLines
        (readable_sectionRows htop _ _ rows (Stmt.each_labelGroup.mp hs).2 hsections))
  | .goto m label, n, n', lines, _, he => .goto (emits_work he).1
  | .branch m isContinue target, n, n', lines, _, he => .branch (emits_work he).1
  | .ret m value, n, n', lines, hs, he => by
    obtain ⟨-, ⟨-, rfl⟩ | ⟨-, x, hx, rfl⟩⟩ := emits_ret he
    · rw [htop, if_neg Bool.false_ne_true]
      exact .form (by decide)
    · have hvalue := (plain_of_comes (Stmt.each_ret.mp hs).2 hx).2
      exact .form ((FormClass.plain env).app_one ⟨by decide, by decide⟩ hvalue).readable
  | .switch m own key cases, n, n', lines, hs, he => by
    obtain ⟨_, hkey, hcases⟩ := Stmt.each_switch.mp hs
    obtain ⟨x, kw, i, n₁, named, n₂, default, hx, -, -, hnamed, hdefault, rfl⟩ := emits_switch he
    have harms := Line.readable_append
      (readable_caseRows htop _ m.span false cases hcases hnamed)
      (readable_caseRows htop _ m.span true cases hcases hdefault)
    refine .labelled (k := .switch i) (by decide) (Line.readable_group (fun f hf => ?_) harms)
    simp only [List.mem_cons, Option.some.injEq, List.not_mem_nil, or_false] at hf
    rcases hf with rfl | hf
    · cases kw <;> decide
    · exact ((plain_of_comes hkey hx).2 f hf.symm).readable
  | .varDecl m vars, n, n', lines, hs, he => by
    obtain ⟨-, inits, hinits, rfl⟩ := emits_varDecl he
    have hwritten : Written [] inits [] := written_varInits (Stmt.each_varDecl.mp hs).2 hinits
    exact .several hwritten.readable
  | .bare m kind, n, n', lines, _, he => by
    obtain ⟨-, rfl⟩ := emits_bare he
    exact .form (Form.readable_words (List.forall_mem_singleton.mpr
      (isOp_untranslatable kind).1))

theorem fits_blockRows (htop : env.isTopLevel = false) (nest : Nest) (shape : Shape) :
    ∀ (rows : Option (List Stmt)) {n n' : LoopNumbers} {lines : List Line},
      Stmt.EachRow (Node.Names IsOp) rows →
      Emits (blockRows env labels nest shape rows) n lines n' → shape.Fits lines
  | none, n, n', lines, _, he => by
    obtain ⟨rfl, rfl⟩ := emits_pure he
    exact .ofBlock rfl
  | some l, n, n', lines, hs, he => fits_blockItems htop nest shape l hs he

theorem fits_blockItems (htop : env.isTopLevel = false) (nest : Nest) (shape : Shape) :
    ∀ (l : List Stmt) {n n' : LoopNumbers} {lines : List Line},
      Stmt.EachOf (Node.Names IsOp) l → Emits (blockItems env labels nest shape l) n lines n' →
      shape.Fits lines
  | [], n, n', lines, _, he => by
    obtain ⟨rfl, rfl⟩ := emits_pure he
    exact .ofBlock rfl
  | s :: rest, n, n', lines, hs, he => by
    obtain ⟨hfirst, hrest⟩ := Stmt.eachOf_cons.mp hs
    rcases emits_blockItems he with ⟨-, he⟩ | ⟨-, first, n₁, more, hfirst', hmore, rfl⟩
    · exact fits_stmt htop nest shape s hfirst he
    · exact .ofBlock (Line.readable_append
        (fits_stmt htop nest .plain s hfirst hfirst').readable
        (readable_stmts htop nest rest hrest hmore))

theorem readable_stmtRows (htop : env.isTopLevel = false) (nest : Nest) :
    ∀ (rows : Option (List Stmt)) {n n' : LoopNumbers} {lines : List Line},
      Stmt.EachRow (Node.Names IsOp) rows → Emits (stmtRows env labels nest rows) n lines n' →
      Line.areReadable lines
  | none, n, n', lines, _, he => by
    obtain ⟨rfl, rfl⟩ := emits_pure he
    rfl
  | some l, n, n', lines, hs, he => readable_stmts htop nest l hs he

theorem readable_stmts (htop : env.isTopLevel = false) (nest : Nest) :
    ∀ (l : List Stmt) {n n' : LoopNumbers} {lines : List Line},
      Stmt.EachOf (Node.Names IsOp) l → Emits (stmts env labels nest l) n lines n' →
      Line.areReadable lines
  | [], n, n', lines, _, he => by
    obtain ⟨rfl, rfl⟩ := emits_pure he
    rfl
  | s :: rest, n, n', lines, hs, he => by
    obtain ⟨hfirst, hrest⟩ := Stmt.eachOf_cons.mp hs
    obtain ⟨first, n₁, more, hfirst', hmore, rfl⟩ := emits_stmts he
    exact Line.readable_append (fits_stmt htop nest .plain s hfirst hfirst').readable
      (readable_stmts htop nest rest hrest hmore)

theorem readable_sectionRows (htop : env.isTopLevel = false) (nest : Nest) (g : Nat) :
    ∀ (rows : Option (List Label)) {n n' : LoopNumbers} {lines : List Line},
      Label.EachRow (Node.Names IsOp) rows → Emits (sectionRows env labels nest g rows) n lines n' →
      Line.areReadable lines
  | none, n, n', lines, _, he => by
    obtain ⟨rfl, rfl⟩ := emits_pure he
    rfl
  | some l, n, n', lines, hs, he => readable_sections htop nest g 0 l hs he

theorem readable_sections (htop : env.isTopLevel = false) (nest : Nest) (g index : Nat) :
    ∀ (l : List Label) {n n' : LoopNumbers} {lines : List Line},
      Label.EachOf (Node.Names IsOp) l → Emits (sections env labels nest g index l) n lines n' →
      Line.areReadable lines
  | [], n, n', lines, _, he => by
    obtain ⟨rfl, rfl⟩ := emits_pure he
    rfl
  | .mk name body :: rest, n, n', lines, hs, he => by
    obtain ⟨hbody, hrest⟩ := Stmt.eachLabel_cons.mp hs
    obtain ⟨first, n₁, more, hfirst, hmore, rfl⟩ := emits_sections he
    have hnext : ∀ last : Bool, Line.areReadable
        (if last then [] else [.form (gotoForm ⟨g, index + 1⟩)]) := by
      intro last
      cases last with
      | true => rfl
      | false => exact Line.readable_form (readable_gotoForm _)
    have hhead := readable_section ⟨g, index⟩
      (Line.readable_append (readable_stmtRows htop nest body hbody hfirst)
        (hnext (rest.isEmpty || Stmt.rowsTerminal body)))
    exact Line.readable_append hhead (readable_sections htop nest g (index + 1) rest hrest hmore)

theorem readable_caseRows (htop : env.isTopLevel = false) (nest : Nest) (span : Span)
    (wanted : Bool) :
    ∀ (rows : Option (List Case)) {n n' : LoopNumbers} {lines : List Line},
      Case.EachRow (Node.Names IsOp) rows →
      Emits (caseRows env labels nest span wanted rows) n lines n' → Line.areReadable lines
  | none, n, n', lines, _, he => by
    obtain ⟨rfl, rfl⟩ := emits_pure he
    rfl
  | some l, n, n', lines, hs, he => readable_cases htop nest span wanted l hs he

theorem readable_cases (htop : env.isTopLevel = false) (nest : Nest) (span : Span)
    (wanted : Bool) :
    ∀ (l : List Case) {n n' : LoopNumbers} {lines : List Line},
      Case.EachOf (Node.Names IsOp) l → Emits (cases env labels nest span wanted l) n lines n' →
      Line.areReadable lines
  | [], n, n', lines, _, he => by
    obtain ⟨rfl, rfl⟩ := emits_pure he
    rfl
  | .mk values isDefault body :: rest, n, n', lines, hs, he => by
    obtain ⟨_, hbody, hrest⟩ := Stmt.eachCase_cons.mp hs
    rcases emits_cases he with ⟨-, he⟩ | ⟨-, hvalues, texts, first, n₁, more, htexts, hfirst, hmore,
      rfl⟩
    · exact readable_cases htop nest span wanted rest hrest he
    · obtain ⟨hwords, hsome⟩ := isWord_caseValues htexts
      exact Line.readable_append
        (readable_caseLines hwords (fun hdefault => hsome (hvalues hdefault))
          (readable_stmtRows htop nest body hbody hfirst))
        (readable_cases htop nest span wanted rest hrest hmore)

end

/-- An arm of a function is one form, wherever it stands. -/
theorem writesOne_arm (htop : env.isTopLevel = false) {nest : Nest} {s : Stmt}
    {n n' : LoopNumbers} {lines : List Line} (hs : Stmt.Each (Node.Names IsOp) s)
    (he : Emits (stmt env labels nest .arm s) n lines n') :
    ∃ f, Line.formsAll lines = [f] ∧ Line.WritesOne lines f := by
  have hfits := fits_stmt htop nest .arm s hs he
  obtain ⟨f, hf⟩ := hfits.single rfl
  exact ⟨f, hf, Line.writesOne_of_readable hfits.readable hf⟩

end Emit

/-- Expanding support calls leaves bodies that name only instructions. -/
theorem Program.IsFrontEnd.names_expanded {p : Program} {x : Expanded} {b : Body}
    (hfront : p.IsFrontEnd) (hx : Support.expand p = .ok x) (hb : b ∈ x.bodies) :
    Body.NamesOps b := by
  obtain ⟨b', hb', hbecomes⟩ :=
    exists_of_forall₂ (Support.forall₂_of_expand (Q := IsOp) (by decide) hx) hb
  exact hbecomes.root.names (hfront.namesOps b' hb')

/-- In the bodies of a program, after support calls are expanded, the code of an expression is
nothing or is read as exactly one form, and what is written for an arm of a function is read as
exactly one form. So a condition with code is read as the condition and its arms in their places. -/
theorem renderings_are_single {p : Program} {x : Expanded} {b : Body} (hfront : p.IsFrontEnd)
    (hx : Support.expand p = .ok x) (hb : b ∈ x.bodies) (env : Env) :
    (∀ (want : Bool) (e : Expr) (r : Option Form), Expr.Each (· ∈ Node.all b.root) e →
      Work.Comes (expr env want e) r →
        ∀ f, r = some f → ∃ n, Script.read f.render = .ok [n] ∧ n.form = f)
    ∧ (env.isTopLevel = false →
      (∀ (labels : LabelTable) (nest : Nest) (s : Stmt) (n n' : LoopNumbers) (lines : List Line),
        Stmt.Each (· ∈ Node.all b.root) s → Emits (stmt env labels nest .arm s) n lines n' →
          ∃ f, Line.WritesOne lines f)
      ∧ ∀ (labels : LabelTable) (nest : Nest) (shape : Shape) (m : Mark) (cond : Expr)
        (yes no : Stmt) (n n' : LoopNumbers) (lines : List Line) (c : Form),
        Stmt.Each (· ∈ Node.all b.root) (.ite m cond yes no) →
        Work.Comes (expr env true cond) (some c) →
        Emits (stmt env labels nest shape (.ite m cond yes no)) n lines n' →
          ∃ ys n₁ y, Emits (stmt env labels nest .arm yes) n ys n₁ ∧ Line.WritesOne ys y
            ∧ if no.isMissing then Line.WritesOne lines (.list [.atom "if", c, y])
              else ∃ zs z, Emits (stmt env labels nest .arm no) n₁ zs n' ∧ Line.WritesOne zs z
                ∧ Line.WritesOne lines (.list [.atom "if", c, y, z])) := by
  have hnames := hfront.names_expanded hx hb
  have hexpr {e : Expr} (he : Expr.Each (· ∈ Node.all b.root) e) :
      Expr.Each (Node.Names IsOp) e := fun y hy => hnames y (he y hy)
  have hstmt {s : Stmt} (hs : Stmt.Each (· ∈ Node.all b.root) s) :
      Stmt.Each (Node.Names IsOp) s := fun y hy => hnames y (hs y hy)
  refine ⟨fun want e r he hr f hf => ?_, fun htop =>
    ⟨fun labels nest s n n' lines hs hemits => ?_,
      fun labels nest shape m cond yes no n n' lines c hs hcond hemits => ?_⟩⟩
  · exact Script.read_render f ((plain_of_comes (hexpr he) hr).2 f hf).readable
  · obtain ⟨f, -, hf⟩ := writesOne_arm htop (hstmt hs) hemits
    exact ⟨f, hf⟩
  · obtain ⟨_, hecond, hyes, hno⟩ := Stmt.each_ite.mp (hstmt hs)
    have hreadable := (fits_stmt htop nest shape _ (hstmt hs) hemits).readable
    obtain ⟨x', ys, n₁, zs, hx', hys, hzs, rfl⟩ := emits_ite hemits
    -- the condition is written a second time, to the same form
    obtain rfl : x' = some c := by
      have hsame := (plain_of_comes hecond hx').1.symm.trans (plain_of_comes hecond hcond).1
      exact Option.some.inj hsame
    obtain ⟨y, hy, hyone⟩ := writesOne_arm htop hyes hys
    refine ⟨ys, n₁, y, hys, hyone, ?_⟩
    rcases hzs with ⟨hmissing, rfl, -⟩ | ⟨hpresent, hzs⟩
    · rw [if_pos hmissing]
      refine Line.writesOne_of_readable hreadable ?_
      simp [Line.formsAll, Line.forms, hy]
    · obtain ⟨z, hz, hzone⟩ := writesOne_arm htop hno hzs
      rw [hpresent, if_neg Bool.false_ne_true]
      refine ⟨zs, z, hzs, hzone, Line.writesOne_of_readable hreadable ?_⟩
      simp [Line.formsAll, Line.forms, Line.formsAll_append, hy, hz]

/-- A condition with a block around a block for its first arm, and an empty block for the other. -/
def armsIf : Stmt :=
  .ite { id := 2 } (jumpOp .lt TypeTable.bool 8)
    (.block { id := 3 } (some [.block { id := 4 } (some [
      .expr { id := 5 } (jumpOp .addAssign TypeTable.int32 1)])]))
    (.block { id := 6 } (some []))

/-- A program with one function, which does just that. -/
def armsProgram : Program :=
  { name := "arms"
    decls := some [{ name := "T", funcs := some [
      { name := "F", declaringType := "T", flags := 1, result := TypeTable.void
        locals := some [{ name := "i", type := TypeTable.int32 }]
        body := .block { id := 1 } (some [armsIf]) }] }] }

/-- The empty block takes the place of the other arm. -/
theorem renderings_are_single_arms :
    ∃ x b lines, Support.expand armsProgram = .ok x ∧ b ∈ x.bodies
      ∧ Stmt.Each (· ∈ Node.all b.root) armsIf
      ∧ Emits (stmt jumpEnv {} {} .plain armsIf) {} lines {}
      ∧ ∃ c y z, Line.WritesOne lines (.list [.atom "if", c, y, z]) := by
  have hexpand : Support.expand armsProgram = .ok ⟨_, _, _⟩ := rfl
  have hemits : Emits (stmt jumpEnv {} {} .plain armsIf) {} _ {} := ⟨[], [], rfl⟩
  have hcond : Work.Comes (expr jumpEnv true (jumpOp .lt TypeTable.bool 8)) (some _) :=
    ⟨[], [], rfl⟩
  have heach : Stmt.Each (· ∈ Node.all (.block { id := 1 } (some [armsIf]))) armsIf := by
    intro x hx
    exact List.mem_cons_of_mem _ (List.mem_append_left _ hx)
  obtain ⟨_, _, y, _, _, _, z, _, _, hone⟩ :=
    ((renderings_are_single (by decide +kernel) hexpand List.mem_cons_self jumpEnv).2 rfl).2
      {} {} .plain _ _ _ _ {} {} _ _ heach hcond hemits
  exact ⟨_, _, _, hexpand, List.mem_cons_self, heach, hemits, _, y, z, hone⟩

end WastForge
