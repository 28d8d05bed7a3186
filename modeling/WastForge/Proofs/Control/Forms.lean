import Mathlib
import WastForge.Proofs.Control.Realize
import WastForge.Proofs.Emit.ExprCode

/-!
# Forms that do what is meant

How forms are put together to do what a composed behaviour says. The code of a switch selects the
arm that is meant, since the arms of both have the same values and do anything or nothing alike.
-/

namespace WastForge.Control

open Eval Emit

variable {labels : LabelTable} {goals goals' : Targets} {world : MachineEnv} {frame : Frame}
variable {fs gs : List Form} {a b : Behaviour} {v : Value}

/-- Code of expressions does not see the locals of label groups. -/
theorem realizes_code (c : Setting)
    (hfs : ∀ f ∈ fs, Form.IsLeaf (groupLocals labels) (· = []) f) (v : Value) :
    Realizes labels c.frame goals (SeqEnds c.world c.frame fs v) (c.code fs v) := by
  have hsafe : Form.SafeAll (groupLocals labels) (· = []) (SourceForm.forms (sourcesOf fs)) := by
    rw [forms_sourcesOf]
    exact Form.safeAll_iff.mpr fun f hf => (hfs f hf).safe
  have hagrees := agrees_seqFrom (f := c.frame) v rfl hsafe
  have hends : ∀ {n o n'}, SeqEnds c.world c.frame fs v n o n'
      ↔ Proc.Ends c.world (fun e k => seqFrom (run e k) c.frame v (sourcesOf fs)) n o n' :=
    seqEnds_forms _ (forms_sourcesOf fs)
  have htells : ∀ o n', (∀ l, o = .error (.branch l) → l = []) →
      Tells labels goals (Ending.ofOutcome o) o n' := by
    intro o n' hl
    cases o with
    | ok u => rfl
    | error s => exact ⟨rfl, fun l hs => hl l (congrArg Except.error hs)⟩
  constructor
  · intro n m o n' ht hn
    obtain ⟨m', hm', hvisible, hhas₁, hhas₂, hl⟩ :=
      (hends.mp hn).transfer hagrees ht.visible ht.has₁ ht.has₂ ht.plain₂
    refine ⟨_, m', ⟨o, hends.mpr hm', rfl⟩, ?_, htells o n' hl⟩
    exact ⟨hvisible, hhas₁, hhas₂, hn.plain.2, hm'.plain.2⟩
  · rintro n m _ m' ht ⟨o, hm, rfl⟩
    obtain ⟨n', hn', hvisible, hhas₂, hhas₁, hl⟩ :=
      (hends.mp hm).transfer hagrees ht.visible.symm ht.has₂ ht.has₁ ht.plain₁
    refine ⟨o, n', hends.mpr hn', ?_, htells o n' hl⟩
    exact ⟨hvisible.symm, hhas₁, hhas₂, hn'.plain.2, hm.plain.2⟩

theorem realizes_skip (v : Value) :
    Realizes labels frame goals (SeqEnds world frame [] v) (Behaviour.skip v) :=
  (Realizes.done v).congr (fun hn => seqEnds_nil.trans (and_iff_right hn)) Iff.rfl

/-- Forms one after the other. -/
theorem realizes_append (hfs : Realizes labels frame goals (SeqEnds world frame fs v) (a v))
    (hgs : ∀ u, Realizes labels frame goals (SeqEnds world frame gs u) (b u)) :
    Realizes labels frame goals (SeqEnds world frame (fs ++ gs) v) (a.seq b v) :=
  (hfs.bind hgs).congr (fun _ => seqEnds_append) Iff.rfl

/-- A block without a label. -/
theorem realizes_block (hfs : Realizes labels frame goals (SeqEnds world frame fs .void) (a .void))
    (hlabel : ∀ l rest, fs = .atom l :: rest → ¬Form.isLabel l) (v : Value) :
    Realizes labels frame goals (SeqEnds world frame [.list (.atom "block" :: fs)] v) (a.fresh v) :=
  hfs.congr (fun _ => seqEnds_single.trans (formEnds_block hlabel)) Iff.rfl

/-- A block with a label. -/
theorem realizes_labelled {k : LabelKind} {caught : Ending → Bool}
    (hfs : Realizes labels frame goals' (SeqEnds world frame fs .void) (a .void))
    (hcatch : Catches labels goals' goals k.text caught) (v : Value) :
    Realizes labels frame goals
      (SeqEnds world frame [.list (.atom "block" :: .atom k.text :: fs)] v)
      (a.fresh.catching caught v) :=
  (hfs.scope hcatch).congr
    (fun _ => seqEnds_single.trans (formEnds_block_label k.isLabel_text)) Iff.rfl

/-- A loop. -/
theorem realizes_rounds {k : LabelKind} {caught : Ending → Bool}
    (hfs : Realizes labels frame goals' (SeqEnds world frame fs .void) (a .void)) (hne : fs ≠ [])
    (hcatch : Catches labels goals' goals k.text caught) (v : Value) :
    Realizes labels frame goals (SeqEnds world frame [.list (.atom "loop" :: .atom k.text :: fs)] v)
      (Behaviour.Rounds caught a) :=
  (hfs.rounds hcatch).congr
    (fun _ => seqEnds_single.trans (formEnds_loop k.isLabel_text hne)) Iff.rfl

/-- A condition with two arms. -/
theorem realizes_choose {c x y : Form} {yes no : Behaviour}
    (hc : Realizes labels frame goals (SeqEnds world frame [c] .void) (a .void))
    (hx : Realizes labels frame goals (SeqEnds world frame [x] .void) (yes .void))
    (hy : Realizes labels frame goals (SeqEnds world frame [y] .void) (no .void)) (v : Value) :
    Realizes labels frame goals (SeqEnds world frame [.list [.atom "if", c, x, y]] v)
      (a.choose yes no v) := by
  have hnext : ∀ u : Value, Realizes labels frame goals
      (fun n o n' => if u.isTrue then SeqEnds world frame [x] .void n o n'
        else SeqEnds world frame [y] .void n o n')
      ((if u.isTrue then yes else no) .void) := by
    intro u
    cases u.isTrue with
    | true => exact hx
    | false => exact hy
  refine (hc.bind hnext).congr (fun _ => ?_) Iff.rfl
  simp only [seqEnds_single]
  exact formEnds_ite

/-- A condition with one arm. -/
theorem realizes_choose_one {c x : Form} {yes : Behaviour}
    (hc : Realizes labels frame goals (SeqEnds world frame [c] .void) (a .void))
    (hx : Realizes labels frame goals (SeqEnds world frame [x] .void) (yes .void)) (v : Value) :
    Realizes labels frame goals (SeqEnds world frame [.list [.atom "if", c, x]] v)
      (a.choose yes (.ends (.done .void)) v) := by
  have hnext : ∀ u : Value, Realizes labels frame goals
      (fun n o n' => if u.isTrue then SeqEnds world frame [x] .void n o n'
        else o = .ok .void ∧ n' = n)
      ((if u.isTrue then yes else .ends (.done .void)) .void) := by
    intro u
    cases u.isTrue with
    | true => exact hx
    | false => exact .done .void
  refine (hc.bind hnext).congr (fun _ => ?_) Iff.rfl
  simp only [seqEnds_single]
  exact formEnds_if

theorem realizes_nop (v : Value) :
    Realizes labels frame goals (SeqEnds world frame [Shape.nop] v)
      (Behaviour.ends (.done .void) v) :=
  (Realizes.done .void).congr
    (fun hn => seqEnds_single.trans (formEnds_nop.trans (and_iff_right hn))) Iff.rfl

theorem realizes_br {l : Bytes} {e : Ending}
    (he : ∀ n, Tells labels goals e (.error (.branch l)) n) (v : Value) :
    Realizes labels frame goals (SeqEnds world frame [.words ["br", l]] v) (Behaviour.ends e v) :=
  (Realizes.at_once fun n _ _ => he n).congr
    (fun hn => seqEnds_single.trans (formEnds_br.trans (and_iff_right hn))) Iff.rfl

/-- The label of a break is that of a loop or switch, with the index that it names. -/
theorem label_of_breakLabel {nest : Nest} {t : LoopIndex} {l : Bytes}
    (h : nest.breakLabel? t = some l) :
    ∃ i, (l = (LabelKind.loop i).text ∨ l = (LabelKind.switch i).text)
      ∧ (t.isValid = true → i = t) := by
  unfold Nest.breakLabel? at h
  obtain ⟨sc, hfind, rfl⟩ := Option.map_eq_some_iff.mp h
  have hsc := List.find?_some hfind
  refine ⟨sc.index, ?_, fun hvalid => ?_⟩
  · cases sc.isSwitch with
    | true => exact .inr rfl
    | false => exact .inl rfl
  · simpa [hvalid] using hsc

/-- The label of a continue is that of a loop, with the index that it names. -/
theorem label_of_continueLabel {nest : Nest} {t : LoopIndex} {l : Bytes}
    (h : nest.continueLabel? t = some l) :
    ∃ i, l = (LabelKind.continue_ i).text ∧ (t.isValid = true → i = t) := by
  unfold Nest.continueLabel? at h
  obtain ⟨sc, hfind, rfl⟩ := Option.map_eq_some_iff.mp h
  have hsc := List.find?_some hfind
  refine ⟨sc.index, rfl, fun hvalid => ?_⟩
  have hboth : sc.isSwitch = false ∧ sc.index = t := by
    simpa [hvalid] using hsc
  exact hboth.2

theorem breakLabel_within (nest : Nest) (isSwitch : Bool) (i t : LoopIndex) :
    (nest.within isSwitch i).breakLabel? t
      = if meant i t then some (if isSwitch then Name.switch i else Name.loop i)
        else nest.breakLabel? t := by
  have hfind : (nest.within isSwitch i).scopes.find? (fun s => !t.isValid || s.index = t)
      = if meant i t then some ⟨isSwitch, i⟩
        else nest.scopes.find? fun s => !t.isValid || s.index = t := by
    cases hmeant : meant i t with
    | true => exact List.find?_cons_of_pos hmeant
    | false => exact List.find?_cons_of_neg (Bool.eq_false_iff.mp hmeant)
  rw [Nest.breakLabel?, hfind]
  split <;> rfl

theorem continueLabel_within (nest : Nest) (isSwitch : Bool) (i t : LoopIndex) :
    (nest.within isSwitch i).continueLabel? t
      = if !isSwitch && meant i t then some (Name.continue_ i) else nest.continueLabel? t := by
  have hfind : (nest.within isSwitch i).scopes.find?
      (fun s => !s.isSwitch && (!t.isValid || s.index = t))
      = if !isSwitch && meant i t then some ⟨isSwitch, i⟩
        else nest.scopes.find? fun s => !s.isSwitch && (!t.isValid || s.index = t) := by
    cases hmeant : !isSwitch && meant i t with
    | true => exact List.find?_cons_of_pos hmeant
    | false => exact List.find?_cons_of_neg (Bool.eq_false_iff.mp hmeant)
  rw [Nest.continueLabel?, hfind]
  split <;> rfl

/-- What breaks and continues mean in a round of a loop: the end of its body is behind. -/
def roundTargets (nest : Nest) (i : LoopIndex) : Targets :=
  { targets (nest.within false i) with again := nest.continueLabel? }

theorem valid_of_not_meant {i t : LoopIndex} (h : meant i t = false) :
    t.isValid = true ∧ i ≠ t := by
  simpa [meant] using h

/-- A label takes what it is meant to take if it is not the label of anything else. -/
theorem catches_of {k : LabelKind} {caught : Ending → Bool} (hdone : ∀ v, caught (.done v) = false)
    (hstop : ∀ s, caught (.stop s) = false) (hgoto : ∀ name, caught (.goto name) = false)
    (hdispatch : ∀ g, k ≠ .dispatch g) (hgroups : goals'.groups = goals.groups)
    (hleave : ∀ t l, goals'.leave t = some l → (caught (.leave t) = true → l = k.text)
      ∧ (caught (.leave t) = false → l ≠ k.text ∧ goals.leave t = some l))
    (hagain : ∀ t l, goals'.again t = some l → (caught (.again t) = true → l = k.text)
      ∧ (caught (.again t) = false → l ≠ k.text ∧ goals.again t = some l)) :
    Catches labels goals' goals k.text caught := by
  have hbranch : ∀ {l l' : Bytes}, l ≠ l' →
      (.error (.branch l) : Except Stop Value) ≠ .error (.branch l') := by
    intro l l' hl h
    cases h
    exact hl rfl
  intro e o n htells
  cases e with
  | done v =>
    refine ⟨fun h => absurd h (by simp [hdone]), fun _ => ⟨?_, htells⟩⟩
    rw [show o = .ok v from htells]
    exact fun h => by cases h
  | stop s =>
    refine ⟨fun h => absurd h (by simp [hstop]), fun _ => ⟨?_, htells⟩⟩
    rw [htells.1]
    intro h
    exact k.text_ne_nil (htells.2 _ (Except.error.inj h))
  | goto name =>
    obtain ⟨p, hp, hmem, rfl, hlocal⟩ := htells
    refine ⟨fun h => absurd h (by simp [hgoto]), fun _ => ⟨hbranch ?_, p, hp, ?_, rfl, hlocal⟩⟩
    · exact fun h => hdispatch _ (LabelKind.text_injective (k := .dispatch p.group) h).symm
    · rwa [← hgroups]
  | leave t =>
    obtain ⟨l, hl, rfl⟩ := htells
    obtain ⟨hyes, hno⟩ := hleave t l hl
    refine ⟨fun h => by rw [hyes h], fun h => ?_⟩
    exact ⟨hbranch (hno h).1, l, (hno h).2, rfl⟩
  | again t =>
    obtain ⟨l, hl, rfl⟩ := htells
    obtain ⟨hyes, hno⟩ := hagain t l hl
    refine ⟨fun h => by rw [hyes h], fun h => ?_⟩
    exact ⟨hbranch (hno h).1, l, (hno h).2, rfl⟩

/-- The label behind the body of a loop takes its continues. -/
theorem catches_continue (nest : Nest) (i : LoopIndex) :
    Catches labels (targets (nest.within false i)) (roundTargets nest i)
      (LabelKind.continue_ i).text (Ending.continues i) := by
  refine catches_of (fun _ => rfl) (fun _ => rfl) (fun _ => rfl) (fun _ h => by cases h) rfl ?_ ?_
  · intro t l hl
    refine ⟨fun h => by (cases h), fun _ => ⟨fun h => ?_, hl⟩⟩
    obtain ⟨j, hj | hj, _⟩ := label_of_breakLabel hl
    · cases LabelKind.text_injective (hj.symm.trans h)
    · cases LabelKind.text_injective (hj.symm.trans h)
  · intro t l hl
    simp only [targets, continueLabel_within, Bool.not_false, Bool.true_and] at hl
    refine ⟨fun hmeant => ?_, fun hmeant => ?_⟩
    · rw [show meant i t = true from hmeant, if_pos rfl] at hl
      exact (Option.some.inj hl).symm
    · rw [show meant i t = false from hmeant, if_neg Bool.false_ne_true] at hl
      refine ⟨fun h => ?_, hl⟩
      obtain ⟨hvalid, hne⟩ := valid_of_not_meant hmeant
      obtain ⟨j, hj, hjt⟩ := label_of_continueLabel hl
      cases LabelKind.text_injective (hj.symm.trans h)
      exact hne (hjt hvalid)

/-- The label of a loop takes its breaks. -/
theorem catches_loop (nest : Nest) (i : LoopIndex) :
    Catches labels (roundTargets nest i) (targets nest) (LabelKind.loop i).text
      (Ending.breaks i) := by
  refine catches_of (fun _ => rfl) (fun _ => rfl) (fun _ => rfl) (fun _ h => by cases h) rfl ?_ ?_
  · intro t l hl
    simp only [roundTargets, targets, breakLabel_within] at hl
    refine ⟨fun hmeant => ?_, fun hmeant => ?_⟩
    · rw [show meant i t = true from hmeant, if_pos rfl] at hl
      exact (Option.some.inj hl).symm
    · rw [show meant i t = false from hmeant, if_neg Bool.false_ne_true] at hl
      refine ⟨fun h => ?_, hl⟩
      obtain ⟨hvalid, hne⟩ := valid_of_not_meant hmeant
      obtain ⟨j, hj | hj, hjt⟩ := label_of_breakLabel hl
      · cases LabelKind.text_injective (hj.symm.trans h)
        exact hne (hjt hvalid)
      · cases LabelKind.text_injective (hj.symm.trans h)
  · intro t l hl
    refine ⟨fun h => by (cases h), fun _ => ⟨fun h => ?_, hl⟩⟩
    obtain ⟨j, hj, _⟩ := label_of_continueLabel hl
    cases LabelKind.text_injective (hj.symm.trans h)

/-- The label of a switch takes its breaks. -/
theorem catches_switch (nest : Nest) (i : LoopIndex) :
    Catches labels (targets (nest.within true i)) (targets nest) (LabelKind.switch i).text
      (Ending.breaks i) := by
  refine catches_of (fun _ => rfl) (fun _ => rfl) (fun _ => rfl) (fun _ h => by cases h) rfl ?_ ?_
  · intro t l hl
    simp only [targets, breakLabel_within] at hl
    refine ⟨fun hmeant => ?_, fun hmeant => ?_⟩
    · rw [show meant i t = true from hmeant, if_pos rfl] at hl
      exact (Option.some.inj hl).symm
    · rw [show meant i t = false from hmeant, if_neg Bool.false_ne_true] at hl
      refine ⟨fun h => ?_, hl⟩
      obtain ⟨hvalid, hne⟩ := valid_of_not_meant hmeant
      obtain ⟨j, hj | hj, hjt⟩ := label_of_breakLabel hl
      · cases LabelKind.text_injective (hj.symm.trans h)
      · cases LabelKind.text_injective (hj.symm.trans h)
        exact hne (hjt hvalid)
  · intro t l hl
    simp only [targets, continueLabel_within, Bool.not_true, Bool.false_and] at hl
    refine ⟨fun h => by (cases h), fun _ => ⟨fun h => ?_, hl⟩⟩
    obtain ⟨j, hj, _⟩ := label_of_continueLabel hl
    cases LabelKind.text_injective (hj.symm.trans h)

/-! ## Switches -/

/-- What the code of an arm does is what is meant, or both do nothing. -/
def BodyRealizes (labels : LabelTable) (goals : Targets) (world : MachineEnv) (frame : Frame) :
    Option (List Form) → Option Behaviour → Prop
  | none, none => True
  | some fs, some a => Realizes labels frame goals (SeqEnds world frame fs .void) (a .void)
  | _, _ => False

/-- The code of an arm does what is meant for the same value. -/
structure ArmRealizes (labels : LabelTable) (goals : Targets) (world : MachineEnv) (frame : Frame)
    (x : Arm (List Form)) (y : Arm Behaviour) : Prop where
  value : x.value = y.value
  body : BodyRealizes labels goals world frame x.body y.body

/-- The code of arms does what is meant. -/
inductive ArmsRealize (labels : LabelTable) (goals : Targets) (world : MachineEnv) (frame : Frame) :
    List (Arm (List Form)) → List (Arm Behaviour) → Prop where
  | nil : ArmsRealize labels goals world frame [] []
  | cons {x : Arm (List Form)} {y : Arm Behaviour} {xs : List (Arm (List Form))}
    {ys : List (Arm Behaviour)} (hxy : ArmRealizes labels goals world frame x y)
    (hrest : ArmsRealize labels goals world frame xs ys) :
    ArmsRealize labels goals world frame (x :: xs) (y :: ys)

section Select

variable {xs : List (Arm (List Form))} {ys : List (Arm Behaviour)}

/-- Both find an arm for the key, or none, or a value that cannot be read. -/
theorem ArmsRealize.matching (h : ArmsRealize labels goals world frame xs ys) (kw : Keyword)
    (key : UInt64) :
    (∃ t, Arm.matching kw key xs = .error t ∧ Arm.matching kw key ys = .error t)
      ∨ (Arm.matching kw key xs = .ok none ∧ Arm.matching kw key ys = .ok none)
      ∨ ∃ xs' ys', Arm.matching kw key xs = .ok (some xs') ∧ Arm.matching kw key ys = .ok (some ys')
        ∧ ArmsRealize labels goals world frame xs' ys' := by
  induction h with
  | nil => exact .inr (.inl ⟨rfl, rfl⟩)
  | @cons x y xs ys hxy hrest ih =>
    unfold Arm.matching
    rw [hxy.value]
    cases hvalue : y.value with
    | none => exact ih
    | some w =>
      simp only
      cases Value.ofConstant kw w with
      | error t => exact .inl ⟨t, rfl, rfl⟩
      | ok v =>
        by_cases hkey : v.bits = key
        · simp only [bind, Except.bind, if_pos hkey]
          exact .inr (.inr ⟨_, _, rfl, rfl, .cons hxy hrest⟩)
        · simp only [bind, Except.bind, if_neg hkey]
          exact ih

theorem ArmsRealize.dropWhile (h : ArmsRealize labels goals world frame xs ys) :
    ArmsRealize labels goals world frame (xs.dropWhile (·.value.isSome))
      (ys.dropWhile (·.value.isSome)) := by
  induction h with
  | nil => exact .nil
  | @cons x y xs ys hxy hrest ih =>
    rw [List.dropWhile_cons, List.dropWhile_cons, hxy.value]
    split
    · exact ih
    · exact .cons hxy hrest

theorem ArmsRealize.findSome (h : ArmsRealize labels goals world frame xs ys) :
    BodyRealizes labels goals world frame (xs.findSome? (·.body)) (ys.findSome? (·.body)) := by
  induction h with
  | nil => trivial
  | @cons x y xs ys hxy hrest ih =>
    rw [List.findSome?_cons, List.findSome?_cons]
    have hbody := hxy.body
    cases hx : x.body with
    | none =>
      cases hy : y.body with
      | none => exact ih
      | some a =>
        rw [hx, hy] at hbody
        exact hbody.elim
    | some fs =>
      cases hy : y.body with
      | none =>
        rw [hx, hy] at hbody
        exact hbody.elim
      | some a =>
        rw [hx, hy] at hbody
        exact hbody

theorem ArmsRealize.append {xs' : List (Arm (List Form))} {ys' : List (Arm Behaviour)}
    (h : ArmsRealize labels goals world frame xs ys)
    (h' : ArmsRealize labels goals world frame xs' ys') :
    ArmsRealize labels goals world frame (xs ++ xs') (ys ++ ys') := by
  induction h with
  | nil => exact h'
  | cons hxy _ ih => exact .cons hxy ih

/-- Both select the same: what does nothing, what is meant, or a value that cannot be read. -/
theorem ArmsRealize.select (h : ArmsRealize labels goals world frame xs ys) (kw : Keyword)
    (key : UInt64) :
    (∃ t, Arm.select kw key xs = .error t ∧ Arm.select kw key ys = .error t)
      ∨ ∃ x y, Arm.select kw key xs = .ok x ∧ Arm.select kw key ys = .ok y
        ∧ BodyRealizes labels goals world frame x y := by
  unfold Arm.select
  rcases h.matching kw key with ⟨t, hxs, hys⟩ | ⟨hxs, hys⟩ | ⟨xs', ys', hxs, hys, hrest⟩
  · rw [hxs, hys]
    exact .inl ⟨t, rfl, rfl⟩
  · rw [hxs, hys]
    exact .inr ⟨_, _, rfl, rfl, h.dropWhile.findSome⟩
  · rw [hxs, hys]
    exact .inr ⟨_, _, rfl, rfl, hrest.findSome⟩

end Select

/-- Code whose value is not taken. -/
theorem Realizes.dropValue {code : Machine → Except Stop Value → Machine → Prop}
    {ref : Machine → Ending → Machine → Prop} (h : Realizes labels frame goals code ref) :
    Realizes labels frame goals (fun n o n' => ∃ o', code n o' n' ∧ o = o'.map fun _ => .void)
      (fun m e m' => ∃ e₀, ref m e₀ m' ∧ e = if e₀.isDone then .done .void else e₀) := by
  have htells : ∀ e o n, Tells labels goals e o n →
      Tells labels goals (if e.isDone then .done .void else e) (o.map fun _ => .void) n := by
    intro e o n ht
    cases o with
    | ok v =>
      obtain rfl := ht.eq_done
      rfl
    | error s =>
      rw [ht.not_done]
      exact ht
  constructor
  · rintro n m o n' ht ⟨o', hn, rfl⟩
    obtain ⟨e, m', hm, ht', h₀⟩ := h.sound ht hn
    exact ⟨_, m', ⟨e, hm, rfl⟩, ht', htells e o' n' h₀⟩
  · rintro n m e m' ht ⟨e₀, hm, rfl⟩
    obtain ⟨o', n', hn, ht', h₀⟩ := h.complete ht hm
    exact ⟨_, n', ⟨o', hn, rfl⟩, ht', htells e₀ o' n' h₀⟩

variable {arms : List (Arm (List Form))} {refs : List (Arm Behaviour)}

/-- What comes after the key of a switch. -/
theorem realizes_selected (h : ArmsRealize labels goals world frame arms refs) (kw : Keyword)
    (v : Value) :
    Realizes labels frame goals (SwitchEnds world frame kw arms v)
      (Behaviour.selected kw v refs .void) := by
  rcases h.select kw v.bits with ⟨t, hxs, hys⟩ | ⟨x, y, hxs, hys, hbody⟩
  · have hstop : Realizes labels frame goals
        (fun n o n' => o = .error (.trap t.plain) ∧ n' = n)
        (fun m e m' => e = .stop (.trap t.plain) ∧ m' = m) :=
      Realizes.at_once fun _ _ _ => ⟨rfl, fun l hl => by cases hl⟩
    refine hstop.congr (fun _ => ?_) ?_
    · simp only [SwitchEnds, hxs]
    · intro m e m'
      simp only [Behaviour.selected, hys]
  · cases x with
    | none =>
      cases y with
      | none =>
        refine (Realizes.done .void).congr (fun _ => ?_) ?_
        · simp only [SwitchEnds, hxs]
        · intro m e m'
          simp only [Behaviour.selected, hys]
      | some a => exact hbody.elim
    | some fs =>
      cases y with
      | none => exact hbody.elim
      | some a =>
        refine (Realizes.dropValue hbody).congr (fun _ => ?_) ?_
        · simp only [SwitchEnds, hxs]
        · intro m e m'
          simp only [Behaviour.selected, hys]
          exact Iff.rfl

/-- A switch does what is meant. -/
theorem realizes_switch {nest : Nest} {i : LoopIndex} {head : Bytes} {kw : Keyword} {key : Form}
    {a : Behaviour} (hhead : Opcode.ofName head = .switch kw)
    (hkey : Realizes labels frame (targets (nest.within true i)) (SeqEnds world frame [key] .void)
      (a .void))
    (harms : ArmsRealize labels (targets (nest.within true i)) world frame arms refs)
    (hne : ∀ x ∈ arms, x.body ≠ some []) (v : Value) :
    Realizes labels frame (targets nest)
      (SeqEnds world frame [.list [.atom "block", .atom (Name.switch i),
        .list (.atom head :: key :: arms.map Arm.form)]] v)
      (Behaviour.switch i kw a refs v) := by
  have hbody : Realizes labels frame _
      (SeqEnds world frame [.list (.atom head :: key :: arms.map Arm.form)] .void) _ :=
    (hkey.bind fun u => realizes_selected harms kw u).congr
      (fun _ => by
        simp only [seqEnds_single]
        exact formEnds_switch hhead hne) Iff.rfl
  exact realizes_labelled (k := .switch i)
    (a := fun _ m e m' => (∃ v m₁, a .void m (.done v) m₁
      ∧ Behaviour.selected kw v refs .void m₁ e m') ∨ a .void m e m' ∧ e.isDone = false)
    hbody (catches_switch nest i) v

/-- A switch without a key traps, since its first arm stands in place of the key. -/
theorem realizes_switch_codeless {nest : Nest} {i : LoopIndex} {head : Bytes} {kw : Keyword}
    (hhead : Opcode.ofName head = .switch kw)
    (harms : ArmsRealize labels (targets (nest.within true i)) world frame arms refs)
    (hne : ∀ x ∈ arms, x.body ≠ some []) (v : Value) :
    Realizes labels frame (targets nest)
      (SeqEnds world frame [.list [.atom "block", .atom (Name.switch i),
        .list (.atom head :: arms.map Arm.form)]] v)
      (Behaviour.ends (.stop (Setting.badSwitch refs)) v) := by
  have hcase : Opcode.ofName "case" = .unknown := by decide
  have hdefault : Opcode.ofName "default" = .unknown := by decide
  have hends : ∀ {n o n'}, n.plain = n →
      (SeqEnds world frame [.list (.atom head :: arms.map Arm.form)] .void n o n'
        ↔ o = .error (Setting.badSwitch refs) ∧ n' = n) := by
    intro n o n' hn
    rw [seqEnds_single]
    cases harms with
    | nil => exact (formEnds_switch_nil hhead).trans (and_iff_right hn)
    | @cons x y xs ys hxy _ =>
      have hkey : ∀ {o n'}, FormEnds world frame x.form n o n'
          ↔ o = .error (Setting.badSwitch (y :: ys)) ∧ n' = n := by
        intro o n'
        unfold Arm.form
        rw [hxy.value]
        simp only [Setting.badSwitch]
        cases y.value with
        | some w => exact (formEnds_unknown hcase).trans (and_iff_right hn)
        | none => exact (formEnds_unknown hdefault).trans (and_iff_right hn)
      rw [List.map_cons, formEnds_switch hhead fun x hx => hne x (List.mem_cons_of_mem _ hx)]
      simp only [hkey]
      constructor
      · rintro (⟨_, _, ⟨h, _⟩, _⟩ | ⟨s, rfl, h, rfl⟩)
        · cases h
        · exact ⟨h, rfl⟩
      · rintro ⟨rfl, rfl⟩
        exact .inr ⟨_, rfl, rfl, rfl⟩
  have hbad : ∀ l, Setting.badSwitch refs ≠ .branch l := by
    intro l h
    cases refs <;> cases h
  have hbody : Realizes labels frame (targets (nest.within true i))
      (SeqEnds world frame [.list (.atom head :: arms.map Arm.form)] .void)
      (Behaviour.ends (.stop (Setting.badSwitch refs)) .void) :=
    (Realizes.at_once (e := .stop _) (o := .error _)
      fun _ _ _ => ⟨rfl, fun l h => absurd h (hbad l)⟩).congr hends Iff.rfl
  refine (realizes_labelled hbody (catches_switch nest i) v).congr (fun _ => Iff.rfl) ?_
  intro m e m'
  constructor
  · rintro ⟨rfl, rfl⟩
    exact ⟨_, ⟨rfl, rfl⟩, rfl⟩
  · rintro ⟨_, ⟨rfl, rfl⟩, rfl⟩
    exact ⟨rfl, rfl⟩

end WastForge.Control
