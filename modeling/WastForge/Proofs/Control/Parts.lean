import WastForge.Proofs.Control.Render

/-!
# Sections of label groups and arms of switches

A section goes to the next one unless it ends in a jump, which never falls off its end. An arm of a
switch has an empty arm for each of its values but the last.
-/

namespace WastForge.Control

open Eval Emit

theorem ofName_untranslatable (kind : UInt8) :
    Opcode.ofName ("untranslatable." ++ Stmt.kindName kind) = .untranslatable := by
  have hnames : ∀ name ∈ (["Block", "ExprStmt", "If", "ForLoop", "WhileLoop", "DoLoop",
      "LabelGroup", "Goto", "Break", "Continue", "Return", "Switch", "VariableDeclaration",
      "Unknown"] : List Bytes), Opcode.ofName ("untranslatable." ++ name) = .untranslatable := by
    decide
  refine hnames _ ?_
  unfold Stmt.kindName
  split <;> decide

/-- Of a sequence whose last part never falls off its end. -/
theorem not_done_seq {a b : Behaviour} (hb : ∀ v m u m', ¬b v m (.done u) m') (v : Value)
    (m : Machine) (u : Value) (m' : Machine) : ¬(a.seq b) v m (.done u) m' := by
  rintro (⟨w, m₁, _, h⟩ | ⟨_, h⟩)
  · exact hb w m₁ u m' h
  · cases h

/-- Of a sequence whose first part never falls off its end. -/
theorem not_done_seq_left {a b : Behaviour} (ha : ∀ v m u m', ¬a v m (.done u) m') (v : Value)
    (m : Machine) (u : Value) (m' : Machine) : ¬(a.seq b) v m (.done u) m' := by
  rintro (⟨w, m₁, h, _⟩ | ⟨_, h⟩)
  · exact ha v m w m₁ h
  · cases h

mutual

/-- A statement that ends in a jump never falls off its end. -/
theorem not_done_of_isTerminal (c : Setting) : ∀ s : Stmt, s.isTerminal = true →
    ∀ v m u m', ¬behave c s v m (.done u) m'
  | .bare _ kind, _, v, m, u, m', h => by
    obtain ⟨o, hends, ho⟩ := h
    obtain ⟨_, rfl, _⟩ :=
      (formEnds_untranslatable (ofName_untranslatable kind)).mp (seqEnds_single.mp hends)
    cases ho
  | .goto _ _, _, _, _, _, _, h => by cases h.1
  | .branch _ isContinue _, _, _, _, _, _, h => by
    cases isContinue <;> cases h.1
  | .ret _ value, _, v, m, u, m', h => by
    simp only [behave, Setting.return_] at h
    cases hcode : codeOf c.env true value with
    | none =>
      rw [hcode] at h
      cases h.1
    | some f =>
      rw [hcode] at h
      rcases h with ⟨_, _, h⟩ | ⟨_, h⟩
      · cases h
      · cases h
  | .block _ rows, hterminal, v, m, u, m', h => not_done_of_block c rows hterminal v m u m' h
  | .missing, h, _, _, _, _, _ | .expr .., h, _, _, _, _, _ | .ite .., h, _, _, _, _, _
  | .forLoop .., h, _, _, _, _, _ | .whileLoop .., h, _, _, _, _, _
  | .labelGroup .., h, _, _, _, _, _ | .switch .., h, _, _, _, _, _
  | .varDecl .., h, _, _, _, _, _ => by cases h

theorem not_done_of_block (c : Setting) : ∀ rows, Stmt.rowsTerminal rows = true →
    ∀ v m u m', ¬behaveBlock c rows v m (.done u) m'
  | none, h, _, _, _, _, _ => by cases h
  | some l, hterminal, v, m, u, m', h => not_done_of_items c l hterminal v m u m' h

theorem not_done_of_items (c : Setting) : ∀ l, Stmt.lastTerminal l = true →
    ∀ v m u m', ¬behaveItems c l v m (.done u) m'
  | [], h, _, _, _, _, _ => by cases h
  | s :: rest, hterminal, v, m, u, m', h => by
    unfold behaveItems at h
    cases rest with
    | nil =>
      have hs := not_done_of_isTerminal c s hterminal
      split at h
      · exact hs v m u m' h
      · exact not_done_seq_left hs .void m u m' h
    | cons s' rest => exact not_done_seq (not_done_of_all c (s' :: rest) hterminal) .void m u m' h

theorem not_done_of_all (c : Setting) : ∀ l, Stmt.lastTerminal l = true →
    ∀ v m u m', ¬behaveAll c l v m (.done u) m'
  | [], h, _, _, _, _, _ => by cases h
  | s :: rest, hterminal, v, m, u, m', h => by
    unfold behaveAll at h
    cases rest with
    | nil => exact not_done_seq_left (not_done_of_isTerminal c s hterminal) v m u m' h
    | cons s' rest => exact not_done_seq (not_done_of_all c (s' :: rest) hterminal) v m u m' h

end

theorem not_done_of_rows (c : Setting) (rows : Rows Stmt) (h : Stmt.rowsTerminal rows = true) :
    ∀ v m u m', ¬behaveRows c rows v m (.done u) m' := by
  cases rows with
  | none => cases h
  | some l => exact not_done_of_all c l h

variable {c : Setting} {labels : LabelTable} {nest : Nest} {lines : List Line}

theorem map_fst_behaveLabels (c : Setting) (l : List Label) (i : Nat) :
    ((behaveLabels c l)[i]?).map Prod.fst = (l[i]?).map Label.name := by
  induction l generalizing i with
  | nil => rfl
  | cons x rest ih =>
    obtain ⟨name, body⟩ := x
    cases i with
    | zero => rfl
    | succ i => exact ih i

theorem length_behaveLabels (c : Setting) (l : List Label) :
    (behaveLabels c l).length = l.length := by
  induction l with
  | nil => rfl
  | cons x rest ih =>
    obtain ⟨name, body⟩ := x
    simp only [behaveLabels, List.length_cons, ih]

/-- What a section adds to its statements. -/
def nextLines (g j : Nat) (rest : List Label) (body : Rows Stmt) : List Line :=
  if rest.isEmpty || Stmt.rowsTerminal body then [] else [.form (gotoForm ⟨g, j + 1⟩)]

/-- A section goes on with the next one at its end. -/
theorem realizes_section (h : Hosts labels) {g j : Nat} {body : Rows Stmt} {rest : List Label}
    {has : Bool} (hg : g ∈ nest.groups)
    (hbody : Renders c labels nest .plain (Line.formsAll lines) (behaveRows c body) has)
    (hnext : ∀ l, rest.head? = some l → labels.place? l.name = some ⟨g, j + 1⟩) :
    (∀ f ∈ Line.formsAll (lines ++ nextLines g j rest body), f.word = [])
      ∧ Realizes labels c.frame (targets nest)
        (SeqEnds c.world c.frame (Line.formsAll (lines ++ nextLines g j rest body)) .void)
        (Behaviour.onward (rest.head?.map Label.name) (behaveRows c body) .void) := by
  unfold nextLines
  cases rest with
  | nil =>
    rw [List.isEmpty_nil, Bool.true_or, if_pos rfl, List.append_nil]
    exact ⟨hbody.lists, hbody.void⟩
  | cons l rest =>
    rw [List.isEmpty_cons, Bool.false_or]
    cases hterminal : Stmt.rowsTerminal body with
    | true =>
      rw [if_pos rfl, List.append_nil]
      refine ⟨hbody.lists, hbody.void.congr (fun _ => Iff.rfl) ?_⟩
      intro m e m'
      constructor
      · rintro (⟨u, m₁, hdone, _⟩ | ⟨ha, _⟩)
        · exact absurd hdone (not_done_of_rows c body hterminal _ _ _ _)
        · exact ha
      · intro ha
        refine .inr ⟨ha, ?_⟩
        cases e with
        | done u => exact absurd ha (not_done_of_rows c body hterminal _ _ _ _)
        | _ => rfl
    | false =>
      have hplace := hnext l rfl
      obtain ⟨hgroup, hindex⟩ := h.places _ _ hplace
      rw [if_neg Bool.false_ne_true, Line.formsAll_append]
      refine ⟨fun f hf => ?_, realizes_append hbody.void ?_⟩
      · rcases List.mem_append.mp hf with hf | hf
        · exact hbody.lists f hf
        · rw [List.mem_singleton.mp hf]
          rfl
      · exact realizes_goto hplace hindex hgroup hg

/-- The code of the sections of labels from a position on. -/
structure SectionsCode (c : Setting) (labels : LabelTable) (nest : Nest) (g j : Nat)
    (l : List Label) (fs : List Form) (bodies : List (List Form)) : Prop where
  forms : fs = sectionForms g j bodies
  length : bodies.length = l.length
  lists : ∀ body ∈ bodies, ∀ f ∈ body, f.word = []
  realizes : ∀ i name a body, (behaveLabels c l)[i]? = some (name, a) → bodies[i]? = some body →
    Realizes labels c.frame (targets nest) (SeqEnds c.world c.frame body .void)
      (Behaviour.onward (((behaveLabels c l)[i + 1]?).map Prod.fst) a .void)

theorem sectionsCode_nil (g j : Nat) : SectionsCode c labels nest g j [] [] [] :=
  ⟨rfl, rfl, fun _ h => by (cases h), fun _ _ _ _ h => by cases h⟩

theorem sectionsCode_cons (h : Hosts labels) {g j : Nat} {name : Bytes} {body : Rows Stmt}
    {rest : List Label} {has : Bool} {fs : List Form} {bodies : List (List Form)}
    (hg : g ∈ nest.groups)
    (hbody : Renders c labels nest .plain (Line.formsAll lines) (behaveRows c body) has)
    (hnext : ∀ l, rest.head? = some l → labels.place? l.name = some ⟨g, j + 1⟩)
    (hrest : SectionsCode c labels nest g (j + 1) rest fs bodies) :
    SectionsCode c labels nest g j (.mk name body :: rest)
      ((section_ ⟨g, j⟩ (lines ++ nextLines g j rest body)).forms ++ fs)
      (Line.formsAll (lines ++ nextLines g j rest body) :: bodies) := by
  obtain ⟨hlists, hreal⟩ := realizes_section h hg hbody hnext
  refine ⟨?_, ?_, ?_, ?_⟩
  · rw [hrest.forms]
    rfl
  · rw [List.length_cons, List.length_cons, hrest.length]
  · intro b hb
    rcases List.mem_cons.mp hb with rfl | hb
    · exact hlists
    · exact hrest.lists b hb
  · intro i nm a b hi hb
    cases i with
    | zero =>
      obtain ⟨rfl, rfl⟩ : name = nm ∧ behaveRows c body = a := by
        simpa [behaveLabels] using hi
      obtain rfl : Line.formsAll (lines ++ nextLines g j rest body) = b := by
        simpa using hb
      have hfst : ((behaveLabels c (.mk name body :: rest))[0 + 1]?).map Prod.fst
          = rest.head?.map Label.name := by
        rw [map_fst_behaveLabels, List.head?_eq_getElem?]
        rfl
      rw [hfst]
      exact hreal
    | succ i => exact hrest.realizes i nm a b hi hb

/-- The numbers among values that have to be literals. -/
theorem comes_caseValues {l : List Expr} {texts : List Bytes}
    (h : Work.Comes (caseValues l) texts) : texts = caseTexts l := by
  induction l generalizing texts with
  | nil => exact Work.comes_pure h
  | cons e rest ih =>
    unfold caseValues at h
    unfold caseTexts
    cases hconst : e.intConstant? with
    | none =>
      rw [hconst] at h
      obtain ⟨_, -, h⟩ := Work.comes_bind h
      exact absurd h Work.not_comes_problem
    | some k =>
      rw [hconst] at h
      obtain ⟨more, hmore, hpure⟩ := Work.comes_bind h
      rw [Work.comes_pure hpure, ih hmore, List.filterMap_cons, hconst]
      rfl

/-- The body of an arm, if it has any form. -/
def bodyOf (fs : List Form) : Option (List Form) := if fs.isEmpty then none else some fs

theorem forms_caseLines (isDefault : Bool) (values : List Bytes) (body : List Line) :
    Line.formsAll (caseLines isDefault values body)
      = (armsOf isDefault values (bodyOf (Line.formsAll body))).map Arm.form := by
  have hempty : ∀ vs : List Bytes, Line.formsAll (vs.map fun v => .form (.words ["case", v]))
      = (vs.map fun v => (⟨some v, none⟩ : Arm (List Form))).map Arm.form := by
    intro vs
    induction vs with
    | nil => rfl
    | cons v rest ih => simp only [List.map_cons, Line.formsAll, ih]; rfl
  have hbody : (bodyOf (Line.formsAll body)).getD [] = Line.formsAll body := by
    unfold bodyOf
    cases Line.formsAll body <;> rfl
  unfold caseLines armsOf
  simp only
  split
  · rw [Line.formsAll_append, hempty, List.map_append]
    simp [Line.formsAll, Line.forms, Arm.form, hbody]
  · rw [Line.formsAll_append, hempty, List.map_append]
    simp [Line.formsAll, Line.forms, labelled, Arm.form, hbody]

theorem armsRealize_armsOf {goals : Targets} {world : MachineEnv} {frame : Frame} (isDefault : Bool)
    (values : List Bytes) {x : Option (List Form)} {y : Option Behaviour}
    (h : BodyRealizes labels goals world frame x y) :
    ArmsRealize labels goals world frame (armsOf isDefault values x)
      (armsOf isDefault values y) := by
  have hempty : ∀ vs : List Bytes, ArmsRealize labels goals world frame
      (vs.map fun v => ⟨some v, none⟩) (vs.map fun v => ⟨some v, none⟩) := by
    intro vs
    induction vs with
    | nil => exact .nil
    | cons v rest ih => exact .cons ⟨rfl, trivial⟩ ih
  unfold armsOf
  simp only
  split
  · exact (hempty _).append (.cons ⟨rfl, h⟩ .nil)
  · exact (hempty _).append (.cons ⟨rfl, h⟩ .nil)

theorem body_ne_nil_of_mem_armsOf {isDefault : Bool} {values : List Bytes} {fs : List Form}
    {a : Arm (List Form)} (h : a ∈ armsOf isDefault values (bodyOf fs)) : a.body ≠ some [] := by
  have hbody : bodyOf fs ≠ some [] := by
    unfold bodyOf
    cases fs with
    | nil => exact fun h => by cases h
    | cons f rest => exact fun h => by cases h
  unfold armsOf at h
  simp only at h
  have hcases : a.body = none ∨ a.body = bodyOf fs := by
    split at h
    · rcases List.mem_append.mp h with h | h
      · obtain ⟨v, _, rfl⟩ := List.mem_map.mp h
        exact .inl rfl
      · rw [List.mem_singleton.mp h]
        exact .inr rfl
    · rcases List.mem_append.mp h with h | h
      · obtain ⟨v, _, rfl⟩ := List.mem_map.mp h
        exact .inl rfl
      · rw [List.mem_singleton.mp h]
        exact .inr rfl
  rcases hcases with hnone | hsome
  · rw [hnone]
    exact fun h => by cases h
  · rwa [hsome]

/-- The code of the arms of a switch. -/
structure ArmsCode (c : Setting) (labels : LabelTable) (nest : Nest) (refs : List (Arm Behaviour))
    (fs : List Form) (arms : List (Arm (List Form))) : Prop where
  forms : fs = arms.map Arm.form
  realizes : ArmsRealize labels (targets nest) c.world c.frame arms refs
  bodies : ∀ a ∈ arms, a.body ≠ some []

theorem armsCode_nil : ArmsCode c labels nest [] [] [] :=
  ⟨rfl, .nil, fun _ h => by cases h⟩

theorem ArmsCode.append {refs refs' : List (Arm Behaviour)} {fs fs' : List Form}
    {arms arms' : List (Arm (List Form))} (h : ArmsCode c labels nest refs fs arms)
    (h' : ArmsCode c labels nest refs' fs' arms') :
    ArmsCode c labels nest (refs ++ refs') (fs ++ fs') (arms ++ arms') := by
  refine ⟨?_, h.realizes.append h'.realizes, fun a ha => ?_⟩
  · rw [h.forms, h'.forms, List.map_append]
  · rcases List.mem_append.mp ha with ha | ha
    · exact h.bodies a ha
    · exact h'.bodies a ha

/-- An arm around its body. -/
theorem armsCode_case (isDefault : Bool) (values : List Bytes) {body : Rows Stmt}
    (hbody : Renders c labels nest .plain (Line.formsAll lines) (behaveRows c body)
      (anyCode c.env body)) :
    ArmsCode c labels nest
      (armsOf isDefault values (if anyCode c.env body then some (behaveRows c body) else none))
      (Line.formsAll (caseLines isDefault values lines))
      (armsOf isDefault values (bodyOf (Line.formsAll lines))) := by
  refine ⟨forms_caseLines _ _ _, armsRealize_armsOf _ _ ?_, fun a ha =>
    body_ne_nil_of_mem_armsOf ha⟩
  have hcode := hbody.code rfl
  unfold bodyOf
  cases hany : anyCode c.env body with
  | false =>
    rw [hcode.mpr hany]
    trivial
  | true =>
    have hne : Line.formsAll lines ≠ [] := by
      intro hnil
      rw [hcode.mp hnil] at hany
      cases hany
    rw [if_neg (by simpa using hne), if_pos rfl]
    exact hbody.void

end WastForge.Control
