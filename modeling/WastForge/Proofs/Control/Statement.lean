import WastForge.Proofs.Control.Parts

/-!
# The code of statements

The code that is written for a statement does what the statement means, in every nest and in every
place.
-/

namespace WastForge.Control

open Eval Emit

theorem indexOf_eq {c : Setting} {m : Mark} {own i : LoopIndex} {n n' : LoopNumbers}
    (h : Emits (Emit.indexOf m own) n i n') (hn : n'.Extends c.numbers) : c.indexOf m own = i := by
  obtain ⟨_, hvalid, hchosen⟩ := emits_indexOf h
  unfold Setting.indexOf
  cases hown : own.isValid with
  | true => exact (hvalid hown).symm
  | false =>
    rw [if_neg Bool.false_ne_true, hn _ _ (hchosen hown)]
    rfl

theorem ofName_switch {tt : TypeTable} {t : TypeId} {kw : Keyword}
    (h : (tt.valueKeyword? t).filter (!·.isFloat) = some kw) :
    Opcode.ofName (kw.text ++ ".switch") = .switch kw ∧ tt.valueKeyword? t = some kw := by
  obtain ⟨hkw, hfloat⟩ := Option.filter_eq_some_iff.mp h
  refine ⟨?_, hkw⟩
  cases kw with
  | void =>
    unfold TypeTable.valueKeyword? at hkw
    split at hkw
    · cases hkw
    · rename_i hvoid
      exact absurd hkw hvoid
  | i32 => decide
  | i64 => decide
  | f32 => cases hfloat
  | f64 => cases hfloat

variable {c : Setting} {labels : LabelTable}

theorem groupCode_behaveLabels {nest : Nest} {g : Nat} {l : List Label} {fs : List Form}
    {bodies : List (List Form)} (hnumbers : labels.Numbers g l) (hlength : l.length ≤ 2 ^ 32)
    (hcode : SectionsCode c labels (nest.withinGroup g) g 0 l fs bodies) :
    GroupCode labels nest c.world c.frame g (behaveLabels c l) bodies := by
  refine ⟨?_, ?_, hnumbers.lt, ?_, ?_, hcode.realizes⟩
  · rw [length_behaveLabels, hcode.length]
  · rw [length_behaveLabels]
    exact hlength
  · intro name k
    rw [map_fst_behaveLabels]
    exact hnumbers.place name k
  · exact fun body hbody => not_label_of_lists (hcode.lists body hbody)

/-- The lines of a label group are two forms. -/
theorem forms_group {nest : Nest} {g : Nat} {l : List Label} {lines : List Line}
    {bodies : List (List Form)}
    (hcode : SectionsCode c labels nest g 0 l (Line.formsAll lines) bodies) :
    Line.formsAll (groupLines g lines) = [enterForm g, groupForm g bodies] := by
  simp only [groupLines, Line.formsAll, Line.forms, Line.formsAll_append, hcode.forms, labelled]
  rfl

theorem behaveLabels_ne_nil {l : List Label} (hne : l ≠ []) : behaveLabels c l ≠ [] := by
  intro hnil
  have hlength := length_behaveLabels c l
  rw [hnil] at hlength
  exact hne (List.eq_nil_of_length_eq_zero hlength.symm)

/-- The code of a label group around its sections. -/
theorem renders_group {nest : Nest} {shape : Shape} {g : Nat} {l : List Label} {lines : List Line}
    {bodies : List (List Form)} (hne : l ≠ []) (hnumbers : labels.Numbers g l)
    (hlength : l.length ≤ 2 ^ 32)
    (hcode : SectionsCode c labels (nest.withinGroup g) g 0 l (Line.formsAll lines) bodies) :
    Renders c labels nest shape (Line.formsAll (shape.several (groupLines g lines)))
      (.group (behaveLabels c l)) true := by
  have hgroup := groupCode_behaveLabels hnumbers hlength hcode
  refine renders_several ?_ ?_ ?_
  · rw [forms_group hcode]
    exact hgroup.realizes_group (behaveLabels_ne_nil hne)
  · rw [forms_group hcode]
    intro f hf
    rcases List.mem_cons.mp hf with rfl | hf
    · rfl
    · rw [List.mem_singleton.mp hf]
      rfl
  · rw [forms_group hcode]
    simp

/-- The test of a loop, its body and what comes behind the body, as lines. -/
theorem forms_loop (i : LoopIndex) (before body after : List Line) :
    Line.formsAll [.group (labelled "loop" (Name.loop i))
        (before ++ [.group (labelled "block" (Name.continue_ i)) body] ++ after)]
      = [.list (.atom "loop" :: .atom (Name.loop i) :: (Line.formsAll before
        ++ (.list (.atom "block" :: .atom (Name.continue_ i) :: Line.formsAll body)
          :: Line.formsAll after)))] := by
  simp [Line.formsAll, Line.forms, Line.formsAll_append, labelled]

/-- The loop of a `for` statement, behind what comes before its first round. -/
theorem realizes_forLoop {nest : Nest} {i : LoopIndex} {cond : Expr} {post : Option (List Expr)}
    {body : Stmt} {test body' post' : List Line} {has : Bool}
    (hcond : cond.Each (NodeFits c.env labels)) (hpost : Expr.EachRow (NodeFits c.env labels) post)
    (htest : Work.Comes (Emit.guard c.env cond i) test)
    (hbody : Renders c labels (nest.within false i) .body (Line.formsAll body') (behave c body) has)
    (hpost' : Work.Comes (Emit.effects c.env (Rows.items post)) post') (v : Value) :
    Realizes labels c.frame (targets nest)
      (SeqEnds c.world c.frame (Line.formsAll [.group (labelled "loop" (Name.loop i))
        (test ++ [.group (labelled "block" (Name.continue_ i)) body'] ++ post')]) v)
      (Behaviour.loop i (c.test cond) (behave c body) (c.effects (Rows.items post)) v) := by
  have hguard : ∀ v, Realizes labels c.frame (roundTargets nest i)
      (SeqEnds c.world c.frame (Line.formsAll test) v) (c.test cond v) :=
    fun v => realizes_guard hcond htest v
  rw [forms_loop]
  exact realizes_loop hguard hbody.void
    (fun v => realizes_effects (Expr.eachRow_items hpost) hpost' v) v

mutual

/-- The code of a statement does what the statement means. -/
theorem renders_stmt (h : Hosts labels) (nest : Nest) (shape : Shape) :
    ∀ (s : Stmt) {n n' : LoopNumbers} {lines : List Line},
      Emits (stmt c.env labels nest shape s) n lines n' → n'.Extends c.numbers →
      s.Each (NodeFits c.env labels) →
      Renders c labels nest shape (Line.formsAll lines) (behave c s) (hasCode c.env s)
  | .missing, n, n', lines, he, _, _ => by
    obtain ⟨rfl, rfl⟩ := emits_pure he
    exact renders_nothing
  | .block m rows, n, n', lines, he, hn, hfit =>
    renders_blockRows h nest shape rows he hn (Stmt.each_block.mp hfit).2
  | .expr m e, n, n', lines, he, _, hfit => by
    obtain ⟨-, x, hx, rfl⟩ := emits_expr he
    have hrender : Renders c labels nest shape _ _ _ := renders_expr (Stmt.each_expr.mp hfit).2 hx
    cases x <;> exact hrender
  | .ite m cond yes no, n, n', lines, he, hn, hfit => by
    obtain ⟨-, hfitCond, hfitYes, hfitNo⟩ := Stmt.each_ite.mp hfit
    obtain ⟨x, ys, n₁, zs, hx, hyes, hzs, rfl⟩ := emits_ite he
    have hno : n₁.Extends n' ∧ ArmCode c labels nest no (Line.formsAll zs) := by
      unfold ArmCode
      rcases hzs with ⟨hmissing, rfl, rfl⟩ | ⟨hmissing, hzs⟩
      · rw [hmissing]
        exact ⟨.refl _, rfl⟩
      · rw [hmissing]
        have hno := renders_stmt h nest .arm no hzs hn hfitNo
        obtain ⟨z, hz⟩ := hno.single rfl
        have hreal := hno.void
        rw [hz] at hreal
        exact ⟨grows_stmt _ _ _ _ _ _ _ _ hzs, z, hz, hreal⟩
    exact renders_ite hfitCond hx
      (renders_stmt h nest .arm yes hyes (hno.1.trans hn) hfitYes) hno.2
  | .forLoop m own init cond post body, n, n', lines, he, hn, hfit => by
    obtain ⟨-, hfitInit, hfitCond, hfitBody, hfitPost⟩ := Stmt.each_forLoop.mp hfit
    obtain ⟨init', n₁, index, n₂, test, body', post', hinit, hindex, htest, hbody, hpost, rfl⟩ :=
      emits_forLoop he
    have hn₂ := (grows_stmt _ _ _ _ _ _ _ _ hbody).trans hn
    have hn₁ := (grows_indexOf _ _ _ _ _ hindex).trans hn₂
    have hinit := renders_stmtRows h nest init hinit hn₁ hfitInit
    have hloop := realizes_forLoop hfitCond hfitPost htest
      (renders_stmt h _ .body body hbody hn hfitBody) hpost
    have hforms := forms_loop index test body' post'
    unfold behave
    rw [indexOf_eq hindex hn₂]
    refine renders_several ?_ ?_ ?_
    · intro v
      rw [Line.formsAll_append]
      exact realizes_append (hinit.realizes v (.inl rfl)) hloop
    · rw [Line.formsAll_append, hforms]
      intro f hf
      rcases List.mem_append.mp hf with hf | hf
      · exact hinit.lists f hf
      · rw [List.mem_singleton.mp hf]
        rfl
    · rw [Line.formsAll_append, hforms]
      simp [hasCode]
  | .whileLoop m testLast own cond body, n, n', lines, he, hn, hfit => by
    obtain ⟨-, hfitCond, hfitBody⟩ := Stmt.each_whileLoop.mp hfit
    obtain ⟨index, n₁, test, body', hindex, htest, hbody, rfl⟩ := emits_whileLoop he
    have hn₁ := (grows_stmt _ _ _ _ _ _ _ _ hbody).trans hn
    have hskip : ∀ v, Realizes labels c.frame (roundTargets nest index)
        (SeqEnds c.world c.frame (Line.formsAll []) v) (Behaviour.skip v) :=
      fun v => realizes_skip v
    have htest : ∀ v, Realizes labels c.frame (roundTargets nest index)
        (SeqEnds c.world c.frame (Line.formsAll test) v) (c.test cond v) :=
      fun v => realizes_guard hfitCond htest v
    have hbody := (renders_stmt h _ .body body hbody hn hfitBody).void
    unfold behave
    rw [indexOf_eq hindex hn₁]
    cases testLast with
    | true =>
      have hforms := forms_loop index [] body' test
      rw [List.nil_append] at hforms
      rw [if_pos rfl, hforms]
      exact renders_one rfl (realizes_loop hskip hbody htest)
    | false =>
      have hforms := forms_loop index test body' []
      rw [List.append_nil] at hforms
      rw [if_neg Bool.false_ne_true, hforms]
      exact renders_one rfl (realizes_loop htest hbody hskip)
  | .labelGroup m rows, n, n', lines, he, hn, hfit => by
    obtain ⟨hnode, hfitRows⟩ := Stmt.each_labelGroup.mp hfit
    obtain ⟨g, -, ⟨hnil, rfl, rfl⟩ | ⟨hne, hchecked, sections, hsections, rfl⟩⟩ :=
      emits_labelGroup he
    · unfold behave hasCode
      rw [hnil]
      exact renders_several (fun v => realizes_skip v) (fun _ hf => by cases hf)
        (by simp [Line.formsAll])
    · obtain ⟨hnumbers, hlength⟩ := hnode hne g hchecked
      obtain ⟨bodies, hcode⟩ :=
        renders_sectionRows h (nest.withinGroup g) g rows hsections hn hfitRows
          List.mem_cons_self hnumbers
      have hrender : Renders c labels nest shape _ _ _ := renders_group hne hnumbers hlength hcode
      unfold behave hasCode
      cases rows with
      | none => exact absurd rfl hne
      | some l =>
        rw [List.isEmpty_eq_false_iff.mpr hne]
        exact hrender
  | .goto m label, n, n', lines, he, _, _ => renders_goto h (emits_work he).1
  | .branch m isContinue target, n, n', lines, he, _, _ => renders_branch (emits_work he).1
  | .ret m value, n, n', lines, he, _, hfit => by
    obtain ⟨hvalued, hfitValue⟩ := Stmt.each_ret.mp hfit
    obtain ⟨-, ⟨hmissing, rfl⟩ | ⟨-, x, hx, rfl⟩⟩ := emits_ret he
    · have htop : c.env.isTopLevel = false := by
        refine Bool.eq_false_iff.mpr fun htop => ?_
        cases hmissing.symm.trans (hvalued htop)
      have hnone : Work.Comes (expr c.env true value) none := by
        cases value <;> first | exact ⟨[], [], rfl⟩ | cases hmissing
      rw [htop, if_neg Bool.false_ne_true]
      exact renders_one rfl fun v => realizes_return hfitValue hnone v
    · exact renders_one rfl fun v => realizes_return hfitValue hx v
  | .switch m own key cases, n, n', lines, he, hn, hfit => by
    obtain ⟨-, hfitKey, hfitCases⟩ := Stmt.each_switch.mp hfit
    obtain ⟨x, kw, index, n₁, named, n₂, default, hx, hkw, hindex, hnamed, hdefault, rfl⟩ :=
      emits_switch he
    have hn₂ := (grows_caseRows _ _ _ _ _ _ _ _ _ hdefault).trans hn
    have hn₁ := (grows_caseRows _ _ _ _ _ _ _ _ _ hnamed).trans hn₂
    obtain ⟨arms₁, hcode₁⟩ := renders_caseRows h _ m.span false cases hnamed hn₂ hfitCases
    obtain ⟨arms₂, hcode₂⟩ := renders_caseRows h _ m.span true cases hdefault hn hfitCases
    have hcode := hcode₁.append hcode₂
    obtain ⟨hhead, hkw⟩ := ofName_switch hkw
    have hforms : Line.formsAll [.group (labelled "block" (Name.switch index))
          [.group [some (.atom (kw.text ++ ".switch")), x] (named ++ default)]]
        = [.list [.atom "block", .atom (Name.switch index),
          .list (.atom (kw.text ++ ".switch")
            :: (x.toList ++ (arms₁ ++ arms₂).map Arm.form))]] := by
      simp only [Line.formsAll, Line.forms, Line.formsAll_append, labelled, hcode.forms]
      cases x <;> rfl
    rw [hforms]
    refine renders_one rfl fun v => ?_
    unfold behave
    rw [hkw, indexOf_eq hindex hn₁, (comes_expr hfitKey hx).1]
    cases x with
    | some f =>
      exact realizes_switch hhead (realizes_value hfitKey hx .void) hcode.realizes hcode.bodies v
    | none => exact realizes_switch_codeless hhead hcode.realizes hcode.bodies v
  | .varDecl m vars, n, n', lines, he, _, hfit => by
    obtain ⟨hnames, hinit⟩ := Stmt.each_varDecl.mp hfit
    obtain ⟨-, inits, hinits, rfl⟩ := emits_varDecl he
    exact renders_varDecl (fun v hv => ⟨hnames v hv, hinit v hv⟩) hinits
  | .bare m kind, n, n', lines, he, _, _ => by
    obtain ⟨-, rfl⟩ := emits_bare he
    exact renders_bare kind

theorem renders_blockRows (h : Hosts labels) (nest : Nest) (shape : Shape) :
    ∀ (rows : Option (List Stmt)) {n n' : LoopNumbers} {lines : List Line},
      Emits (blockRows c.env labels nest shape rows) n lines n' → n'.Extends c.numbers →
      Stmt.EachRow (NodeFits c.env labels) rows →
      Renders c labels nest shape (Line.formsAll lines) (behaveBlock c rows)
        (blockHasCode c.env rows)
  | none, n, n', lines, he, _, _ => by
    obtain ⟨rfl, rfl⟩ := emits_pure he
    exact renders_empty
  | some l, n, n', lines, he, hn, hfit => renders_blockItems h nest shape l he hn hfit

theorem renders_blockItems (h : Hosts labels) (nest : Nest) (shape : Shape) :
    ∀ (l : List Stmt) {n n' : LoopNumbers} {lines : List Line},
      Emits (blockItems c.env labels nest shape l) n lines n' → n'.Extends c.numbers →
      Stmt.EachOf (NodeFits c.env labels) l →
      Renders c labels nest shape (Line.formsAll lines) (behaveItems c l) (itemsHaveCode c.env l)
  | [], n, n', lines, he, _, _ => by
    obtain ⟨rfl, rfl⟩ := emits_pure he
    exact renders_empty
  | s :: rest, n, n', lines, he, hn, hfit => by
    obtain ⟨hfitFirst, hfitRest⟩ := Stmt.eachOf_cons.mp hfit
    unfold behaveItems itemsHaveCode
    rcases emits_blockItems he with ⟨hcollapse, he⟩ |
      ⟨hcollapse, first, n₁, more, hfirst, hmore, rfl⟩
    · rw [hcollapse]
      exact renders_stmt h nest shape s he hn hfitFirst
    · rw [hcollapse]
      have hn₁ := (grows_stmts _ _ _ _ _ _ _ hmore).trans hn
      have hall := renders_append (renders_stmt h nest .plain s hfirst hn₁ hfitFirst)
        (renders_stmts h nest rest hmore hn hfitRest)
      exact renders_ofBlock hall.void hall.lists

theorem renders_stmtRows (h : Hosts labels) (nest : Nest) :
    ∀ (rows : Option (List Stmt)) {n n' : LoopNumbers} {lines : List Line},
      Emits (stmtRows c.env labels nest rows) n lines n' → n'.Extends c.numbers →
      Stmt.EachRow (NodeFits c.env labels) rows →
      Renders c labels nest .plain (Line.formsAll lines) (behaveRows c rows) (anyCode c.env rows)
  | none, n, n', lines, he, _, _ => by
    obtain ⟨rfl, rfl⟩ := emits_pure he
    exact @renders_nothing c labels nest .plain
  | some l, n, n', lines, he, hn, hfit => renders_stmts h nest l he hn hfit

theorem renders_stmts (h : Hosts labels) (nest : Nest) :
    ∀ (l : List Stmt) {n n' : LoopNumbers} {lines : List Line},
      Emits (stmts c.env labels nest l) n lines n' → n'.Extends c.numbers →
      Stmt.EachOf (NodeFits c.env labels) l →
      Renders c labels nest .plain (Line.formsAll lines) (behaveAll c l) (l.any (hasCode c.env))
  | [], n, n', lines, he, _, _ => by
    obtain ⟨rfl, rfl⟩ := emits_pure he
    exact @renders_nothing c labels nest .plain
  | s :: rest, n, n', lines, he, hn, hfit => by
    obtain ⟨hfitFirst, hfitRest⟩ := Stmt.eachOf_cons.mp hfit
    obtain ⟨first, n₁, more, hfirst, hmore, rfl⟩ := emits_stmts he
    have hn₁ := (grows_stmts _ _ _ _ _ _ _ hmore).trans hn
    exact renders_append
      (renders_stmt h nest .plain s hfirst hn₁ hfitFirst)
      (renders_stmts h nest rest hmore hn hfitRest)

theorem renders_sectionRows (h : Hosts labels) (nest : Nest) (g : Nat) :
    ∀ (rows : Option (List Label)) {n n' : LoopNumbers} {lines : List Line},
      Emits (sectionRows c.env labels nest g rows) n lines n' → n'.Extends c.numbers →
      Label.EachRow (NodeFits c.env labels) rows → g ∈ nest.groups →
      labels.Numbers g (Rows.items rows) →
      ∃ bodies, SectionsCode c labels nest g 0 (Rows.items rows) (Line.formsAll lines) bodies
  | none, n, n', lines, he, _, _, _, _ => by
    obtain ⟨rfl, rfl⟩ := emits_pure he
    exact ⟨[], sectionsCode_nil g 0⟩
  | some l, n, n', lines, he, hn, hfit, hg, hnumbers => by
    refine renders_sections h nest g 0 l he hn hfit hg fun k x hx => ?_
    rw [Nat.zero_add]
    exact (hnumbers.place x.name k).mpr (congrArg (Option.map Label.name) hx)

theorem renders_sections (h : Hosts labels) (nest : Nest) (g j : Nat) :
    ∀ (l : List Label) {n n' : LoopNumbers} {lines : List Line},
      Emits (sections c.env labels nest g j l) n lines n' → n'.Extends c.numbers →
      Label.EachOf (NodeFits c.env labels) l → g ∈ nest.groups →
      (∀ k x, l[k]? = some x → labels.place? x.name = some ⟨g, j + k⟩) →
      ∃ bodies, SectionsCode c labels nest g j l (Line.formsAll lines) bodies
  | [], n, n', lines, he, _, _, _, _ => by
    obtain ⟨rfl, rfl⟩ := emits_pure he
    exact ⟨[], sectionsCode_nil g j⟩
  | .mk name body :: rest, n, n', lines, he, hn, hfit, hg, hplaces => by
    obtain ⟨hfitBody, hfitRest⟩ := Stmt.eachLabel_cons.mp hfit
    obtain ⟨first, n₁, more, hfirst, hmore, rfl⟩ := emits_sections he
    have hn₁ := (grows_sections _ _ _ _ _ _ _ _ _ hmore).trans hn
    have hbody := renders_stmtRows h nest body hfirst hn₁ hfitBody
    obtain ⟨bodies, hrest⟩ := renders_sections h nest g (j + 1) rest hmore hn
      hfitRest hg (fun k x hx => by
        rw [Nat.add_right_comm, Nat.add_assoc]
        exact hplaces (k + 1) x hx)
    refine ⟨_, sectionsCode_cons h hg hbody (fun x hx => ?_) hrest⟩
    rw [List.head?_eq_getElem?] at hx
    exact hplaces 1 x hx

theorem renders_caseRows (h : Hosts labels) (nest : Nest) (span : Span) (wanted : Bool) :
    ∀ (rows : Option (List Case)) {n n' : LoopNumbers} {lines : List Line},
      Emits (caseRows c.env labels nest span wanted rows) n lines n' → n'.Extends c.numbers →
      Case.EachRow (NodeFits c.env labels) rows →
      ∃ arms, ArmsCode c labels nest (behaveCaseRows c wanted rows) (Line.formsAll lines) arms
  | none, n, n', lines, he, _, _ => by
    obtain ⟨rfl, rfl⟩ := emits_pure he
    exact ⟨[], armsCode_nil⟩
  | some l, n, n', lines, he, hn, hfit => renders_cases h nest span wanted l he hn hfit

theorem renders_cases (h : Hosts labels) (nest : Nest) (span : Span) (wanted : Bool) :
    ∀ (l : List Case) {n n' : LoopNumbers} {lines : List Line},
      Emits (cases c.env labels nest span wanted l) n lines n' → n'.Extends c.numbers →
      Case.EachOf (NodeFits c.env labels) l →
      ∃ arms, ArmsCode c labels nest (behaveCases c wanted l) (Line.formsAll lines) arms
  | [], n, n', lines, he, _, _ => by
    obtain ⟨rfl, rfl⟩ := emits_pure he
    exact ⟨[], armsCode_nil⟩
  | .mk values isDefault body :: rest, n, n', lines, he, hn, hfit => by
    obtain ⟨-, hfitBody, hfitRest⟩ := Stmt.eachCase_cons.mp hfit
    unfold behaveCases
    rcases emits_cases he with ⟨hwanted, he⟩ | ⟨hwanted, -, texts, first, n₁, more, htexts, hfirst,
      hmore, rfl⟩
    · rw [hwanted]
      exact renders_cases h nest span wanted rest he hn hfitRest
    · have hn₁ := (grows_cases _ _ _ _ _ _ _ _ _ hmore).trans hn
      have hbody := renders_stmtRows h nest body hfirst hn₁ hfitBody
      obtain ⟨arms, hrest⟩ := renders_cases h nest span wanted rest hmore hn hfitRest
      rw [hwanted, ← comes_caseValues htexts, Line.formsAll_append]
      exact ⟨_, (armsCode_case isDefault texts hbody).append hrest⟩

end

end WastForge.Control
