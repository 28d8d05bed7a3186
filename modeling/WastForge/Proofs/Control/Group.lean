import WastForge.Proofs.Control.Forms

/-!
# Label groups

The code of a label group is a loop in which a local says which section comes next. A goto sets the
local and chooses again.
-/

namespace WastForge

namespace Control

open Eval Emit

variable {labels : LabelTable} {goals : Targets} {world : MachineEnv} {frame : Frame}
variable {n m n' : Machine} {o : Except Stop Value} {v : Value} {fs : List Form}

/-- The local of a label group is not seen. -/
theorem Twin.set {g : Nat} (h : Twin labels frame n m) (hg : g < labels.groups) (v : Value) :
    Twin labels frame (n.set (Name.currentLabel g) v) m := by
  refine ⟨?_, ?_, h.has₂, ?_, h.plain₂⟩
  · rw [← h.visible]
    simp only [Machine.visible, Machine.set, Locals.filter_set_of_mem (mem_groupLocals hg)]
  · exact h.has₁.imp_right fun hhas name hname => isSome_lookup_set (hhas name hname)
  · show n.plain.set _ _ = _
    rw [h.plain₁]

/-- The position of a label as the machine has it. -/
def position (k : Nat) : Value := .i32 (UInt32.ofNat k)

theorem ofConstant_position {k : Nat} (hk : k < 2 ^ 32) :
    Value.ofConstant .i32 (Bytes.ofNat k) = .ok (position k) := by
  have hread : Radix.int64? (Bytes.ofNat k) = some (k : Int) :=
    Radix.int64?_ofInt (n := k) (by omega) (by omega)
  unfold Value.ofConstant
  simp only [hread]
  rw [if_pos (by simp only [Bool.and_eq_true, decide_eq_true_eq]; omega)]
  have hmod : (k : Int) % 2 ^ 32 = k := Int.emod_eq_of_lt (by omega) (by omega)
  rw [UInt32.ofInt, hmod]
  rfl

theorem formEnds_position {k : Nat} (hk : k < 2 ^ 32) (hn : n.plain = n) :
    FormEnds world frame (.words ["i32.const", Bytes.ofNat k]) n o n'
      ↔ o = .ok (position k) ∧ n' = n :=
  formEnds_of_answers hn fun _ => answers_const (by decide) (ofConstant_position hk)

/-- Setting the local of a label group. -/
theorem formEnds_setPosition {g k : Nat} (hk : k < 2 ^ 32) (hg : g < labels.groups)
    (hn : n.plain = n) (hhas : frame.func = none ∨ n.Has (groupLocals labels)) :
    FormEnds world frame (.list [.atom "set_local", .atom (Name.currentLabel g),
        .words ["i32.const", Bytes.ofNat k]]) n o n'
      ↔ o = .ok (position k) ∧ n' = n.set (Name.currentLabel g) (position k) := by
  rw [formEnds_setLocal (hhas.imp_right fun hhas => hhas _ (mem_groupLocals hg))]
  simp only [formEnds_position hk hn]
  constructor
  · rintro (⟨v, m₁, ⟨hv, rfl⟩, rfl, rfl⟩ | ⟨s, rfl, hs, _⟩)
    · cases hv
      exact ⟨rfl, rfl⟩
    · cases hs
  · rintro ⟨rfl, rfl⟩
    exact .inl ⟨_, n, ⟨rfl, rfl⟩, rfl, rfl⟩

/-- Going to a label: its position is left in the local of the group. -/
theorem formEnds_goto {p : LabelPlace} (hp : p.index < 2 ^ 32) (hg : p.group < labels.groups)
    (hn : n.plain = n) (hhas : frame.func = none ∨ n.Has (groupLocals labels)) :
    FormEnds world frame (gotoForm p) n o n'
      ↔ o = .error (.branch (Name.dispatch p.group))
        ∧ n' = n.set (Name.currentLabel p.group) (position p.index) := by
  have hset : (n.set (Name.currentLabel p.group) (position p.index)).plain
      = n.set (Name.currentLabel p.group) (position p.index) := by
    show n.plain.set _ _ = _
    rw [hn]
  unfold gotoForm
  rw [formEnds_block (fun l rest h => by cases h), seqEnds_cons]
  simp only [formEnds_setPosition hp hg hn hhas, seqEnds_single]
  constructor
  · rintro (⟨u, n₁, ⟨_, rfl⟩, hbr⟩ | ⟨s, _, hs, _⟩)
    · exact (formEnds_br.mp hbr).2
    · cases hs
  · rintro ⟨rfl, rfl⟩
    exact .inl ⟨_, _, ⟨rfl, rfl⟩, formEnds_br.mpr ⟨hset, rfl, rfl⟩⟩

/-- A goto does what is meant. -/
theorem realizes_goto {name : Bytes} {p : LabelPlace} (hplace : labels.place? name = some p)
    (hp : p.index < 2 ^ 32) (hg : p.group < labels.groups) (hmem : p.group ∈ goals.groups)
    (v : Value) :
    Realizes labels frame goals (SeqEnds world frame [gotoForm p] v)
      (Behaviour.ends (.goto name) v) := by
  have htells : ∀ n : Machine, Tells labels goals (.goto name)
      (.error (.branch (Name.dispatch p.group)))
      (n.set (Name.currentLabel p.group) (position p.index)) :=
    fun n => ⟨p, hplace, hmem, rfl, Locals.lookup_set_self _ _ _⟩
  constructor
  · intro n m o n' ht hn
    obtain ⟨rfl, rfl⟩ := (formEnds_goto hp hg ht.plain₁ ht.has₁).mp (seqEnds_single.mp hn)
    exact ⟨_, m, ⟨rfl, rfl⟩, ht.set hg _, htells n⟩
  · rintro n m e m' ht ⟨rfl, rfl⟩
    exact ⟨_, _, seqEnds_single.mpr ((formEnds_goto hp hg ht.plain₁ ht.has₁).mpr ⟨rfl, rfl⟩),
      ht.set hg _, htells n⟩

/-- The section of a label as a form. -/
def sectionForm (p : LabelPlace) (fs : List Form) : Form :=
  .list [.atom "if",
    .list [.atom "i32.eq", .words ["get_local", Name.currentLabel p.group],
      .words ["i32.const", Bytes.ofNat p.index]],
    .list (.atom "block" :: fs)]

/-- Sections from a position on. -/
def sectionForms (g : Nat) : Nat → List (List Form) → List Form
  | _, [] => []
  | j, fs :: rest => sectionForm ⟨g, j⟩ fs :: sectionForms g (j + 1) rest

theorem isTrue_equal {i j : Nat} (hi : i < 2 ^ 32) (hj : j < 2 ^ 32) :
    (Value.ofBool ((position i).word == (position j).word)).isTrue = decide (i = j) := by
  have hword : ∀ k : Nat, (position k).word = UInt32.ofNat k := by
    intro k
    simp [position, Value.i32, Value.word]
  have hequal : (UInt32.ofNat i == UInt32.ofNat j) = decide (i = j) := by
    rw [Bool.eq_iff_iff, beq_iff_eq, decide_eq_true_eq]
    constructor
    · intro h
      have htoNat := congrArg UInt32.toNat h
      rwa [UInt32.toNat_ofNat', UInt32.toNat_ofNat', Nat.mod_eq_of_lt hi, Nat.mod_eq_of_lt hj]
        at htoNat
    · rintro rfl
      rfl
  rw [hword, hword, hequal]
  cases decide (i = j) <;> rfl

/-- A section runs if its label is the current one. -/
theorem formEnds_section {g i j : Nat} (hi : i < 2 ^ 32) (hj : j < 2 ^ 32) (hn : n.plain = n)
    (hlocal : n.locals.lookup (Name.currentLabel g) = some (position i))
    (hfs : ∀ l rest, fs = .atom l :: rest → ¬Form.isLabel l) :
    FormEnds world frame (sectionForm ⟨g, j⟩ fs) n o n'
      ↔ if i = j then SeqEnds world frame fs .void n o n' else o = .ok .void ∧ n' = n := by
  have htest : ∀ {o n'}, FormEnds world frame (.list [.atom "i32.eq",
      .words ["get_local", Name.currentLabel g], .words ["i32.const", Bytes.ofNat j]]) n o n'
      ↔ o = .ok (.ofBool ((position i).word == (position j).word)) ∧ n' = n := by
    intro o n'
    have hhead : Opcode.ofName "i32.eq" = .operation .i32 "eq" := by decide
    refine formEnds_of_answers hn fun budget => ?_
    exact answers_binary (fun v w => .ok (.ofBool (v.word == w.word))) hhead
      (answers_getLocal hlocal rfl)
      (fun _ _ => answers_const (by decide) (ofConstant_position hj))
      (fun v w _ _ => rfl)
  unfold sectionForm
  rw [formEnds_if]
  simp only [htest]
  constructor
  · rintro (⟨u, n₁, ⟨hu, rfl⟩, hrest⟩ | ⟨s, _, hs, _⟩)
    · cases hu
      rw [isTrue_equal hi hj] at hrest
      by_cases hij : i = j
      · rw [if_pos hij]
        simpa [hij, formEnds_block hfs] using hrest
      · rw [if_neg hij]
        simpa [hij] using hrest
    · cases hs
  · intro h
    refine .inl ⟨_, n, ⟨rfl, rfl⟩, ?_⟩
    rw [isTrue_equal hi hj]
    by_cases hij : i = j
    · rw [if_pos hij] at h
      simpa [hij, formEnds_block hfs] using h
    · rw [if_neg hij] at h
      simpa [hij] using h

theorem seqEnds_sections {g i : Nat} (hn : n.plain = n)
    (hlocal : n.locals.lookup (Name.currentLabel g) = some (position i)) {tail : List Form} :
    ∀ {bodies : List (List Form)} {j : Nat} {v : Value}, j ≤ i → j + bodies.length ≤ 2 ^ 32 →
      (∀ fs ∈ bodies, ∀ l rest, fs = Form.atom l :: rest → ¬Form.isLabel l) →
      bodies[i - j]? = some fs →
      (SeqEnds world frame (sectionForms g j bodies ++ tail) v n o n' ↔
        (∃ u n₁, SeqEnds world frame fs .void n (.ok u) n₁
          ∧ SeqEnds world frame
            (sectionForms g (i + 1) (bodies.drop (i - j + 1)) ++ tail) u n₁ o n')
          ∨ ∃ s, o = .error s ∧ SeqEnds world frame fs .void n (.error s) n')
  | [], j, v, hj, hlen, hlabel, hfs => by simp at hfs
  | body :: rest, j, v, hj, hlen, hlabel, hfs => by
    simp only [List.length_cons] at hlen
    have hi : i < 2 ^ 32 := by
      have hlt := (List.getElem?_eq_some_iff.mp hfs).1
      simp only [List.length_cons] at hlt
      omega
    have hbody := hlabel body List.mem_cons_self
    rw [sectionForms, List.cons_append, seqEnds_cons]
    simp only [formEnds_section hi (show j < 2 ^ 32 by omega) hn hlocal hbody]
    by_cases hij : i = j
    · subst hij
      obtain rfl : body = fs := by simpa using hfs
      simp
    · have hrest : rest[i - (j + 1)]? = some fs := by
        rwa [show i - j = i - (j + 1) + 1 by omega, List.getElem?_cons_succ] at hfs
      have ih := fun v => @seqEnds_sections g i hn hlocal tail rest (j + 1) v
        (by omega) (by omega) (fun fs hmem => hlabel fs (List.mem_cons_of_mem _ hmem)) hrest
      rw [show i - j + 1 = i - (j + 1) + 1 + 1 by omega, List.drop_succ_cons]
      simp only [if_neg hij]
      constructor
      · rintro (⟨u, n₁, ⟨_, rfl⟩, h⟩ | ⟨s, _, hs, _⟩)
        · exact (ih u).mp h
        · cases hs
      · intro h
        exact .inl ⟨.void, n, ⟨rfl, rfl⟩, (ih .void).mpr h⟩

/-- What a section does that goes to the next one at its end. -/
def Behaviour.onward (next : Option Bytes) (a : Behaviour) : Behaviour :=
  match next with
  | none => a
  | some l => a.seq (.ends (.goto l))

theorem onward_of_not_done {next : Option Bytes} {a : Behaviour} {m' : Machine} {e : Ending}
    (ha : a .void m e m') (hdone : e.isDone = false) : Behaviour.onward next a .void m e m' := by
  cases next with
  | none => exact ha
  | some l => exact .inr ⟨ha, hdone⟩

/-- The code of the sections of a label group. -/
structure GroupCode (labels : LabelTable) (nest : Nest) (world : MachineEnv) (frame : Frame)
    (g : Nat) (sections : List (Bytes × Behaviour)) (bodies : List (List Form)) : Prop where
  length : bodies.length = sections.length
  bound : sections.length ≤ 2 ^ 32
  group : g < labels.groups
  place : ∀ name k, labels.place? name = some ⟨g, k⟩ ↔ (sections[k]?).map Prod.fst = some name
  unlabelled : ∀ fs ∈ bodies, ∀ l rest, fs = Form.atom l :: rest → ¬Form.isLabel l
  realizes : ∀ i l a fs, sections[i]? = some (l, a) → bodies[i]? = some fs →
    Realizes labels frame (targets (nest.withinGroup g)) (SeqEnds world frame fs .void)
      (Behaviour.onward ((sections[i + 1]?).map Prod.fst) a .void)

/-- A branch out of a section is a goto of the group, or means the same outside of it. -/
theorem tells_withinGroup {nest : Nest} {g : Nat} {e : Ending} {s : Stop}
    (h : Tells labels (targets (nest.withinGroup g)) e (.error s) n) :
    (s = .branch (Name.dispatch g) → ∃ name k, e = .goto name
        ∧ labels.place? name = some ⟨g, k⟩
        ∧ n.locals.lookup (Name.currentLabel g) = some (position k))
      ∧ (s ≠ .branch (Name.dispatch g) → s ≠ .branch (Name.labelGroup g)
        ∧ Tells labels (targets nest) e (.error s) n) := by
  -- a branch to the label of something else
  have hother : ∀ {k : LabelKind} {l : Bytes}, l = k.text → k ≠ .dispatch g → k ≠ .group g →
      Stop.branch l ≠ .branch (Name.dispatch g) ∧ Stop.branch l ≠ .branch (Name.labelGroup g) := by
    rintro k l rfl hd hg
    refine ⟨fun h => hd ?_, fun h => hg ?_⟩
    · have htext : k.text = (LabelKind.dispatch g).text := Stop.branch.inj h
      exact LabelKind.text_injective htext
    · have htext : k.text = (LabelKind.group g).text := Stop.branch.inj h
      exact LabelKind.text_injective htext
  cases e with
  | done v => cases h
  | stop t =>
    obtain ⟨hs, hl⟩ := h
    cases hs
    refine ⟨fun hd => ?_, fun _ => ⟨fun hg => ?_, rfl, hl⟩⟩
    · exact absurd (hl _ hd) (LabelKind.dispatch g).text_ne_nil
    · exact absurd (hl _ hg) (LabelKind.group g).text_ne_nil
  | leave t =>
    obtain ⟨l, hl, hs⟩ := h
    cases hs
    obtain ⟨i, hlabel, _⟩ := label_of_breakLabel hl
    have hne : Stop.branch l ≠ .branch (Name.dispatch g)
        ∧ Stop.branch l ≠ .branch (Name.labelGroup g) := by
      rcases hlabel with hlabel | hlabel
      · exact hother hlabel (fun h => by cases h) (fun h => by cases h)
      · exact hother hlabel (fun h => by cases h) (fun h => by cases h)
    exact ⟨fun hd => absurd hd hne.1, fun _ => ⟨hne.2, l, hl, rfl⟩⟩
  | again t =>
    obtain ⟨l, hl, hs⟩ := h
    cases hs
    obtain ⟨i, hlabel, _⟩ := label_of_continueLabel hl
    have hne := hother hlabel (fun h => by cases h) (fun h => by cases h)
    exact ⟨fun hd => absurd hd hne.1, fun _ => ⟨hne.2, l, hl, rfl⟩⟩
  | goto name =>
    obtain ⟨p, hp, hmem, hs, hlocal⟩ := h
    cases hs
    refine ⟨fun hd => ?_, fun hd => ⟨fun hg => ?_, p, hp, ?_, rfl, hlocal⟩⟩
    · obtain ⟨pg, k⟩ := p
      have htext : (LabelKind.dispatch pg).text = (LabelKind.dispatch g).text :=
        Stop.branch.inj hd
      have hkind := LabelKind.text_injective htext
      cases hkind
      exact ⟨name, k, rfl, hp, hlocal⟩
    · exact absurd (Stop.branch.inj hg).symm (LabelKind.group_ne_dispatch g p.group)
    · rcases List.mem_cons.mp hmem with heq | hmem
      · exact absurd (by rw [heq]) hd
      · exact hmem

/-- The body of the loop of a label group. -/
def roundForms (g : Nat) (bodies : List (List Form)) : List Form :=
  [.list (.atom "block" :: .atom (Name.dispatch g)
    :: (sectionForms g 0 bodies ++ [.words ["br", Name.labelGroup g]]))]

/-- The form in front of a label group: the first label is the current one. -/
def enterForm (g : Nat) : Form :=
  .list [.atom "set_local", .atom (Name.currentLabel g), .words ["i32.const", "0"]]

/-- The loop of a label group. -/
def groupForm (g : Nat) (bodies : List (List Form)) : Form :=
  .list (.atom "loop" :: .atom (Name.labelGroup g) :: roundForms g bodies)

/-- The first label of a group is made the current one. -/
theorem formEnds_enter {g : Nat} (hg : g < labels.groups) (hn : n.plain = n)
    (hhas : frame.func = none ∨ n.Has (groupLocals labels)) :
    FormEnds world frame (enterForm g) n o n'
      ↔ o = .ok (position 0) ∧ n' = n.set (Name.currentLabel g) (position 0) :=
  formEnds_setPosition (k := 0) (Nat.two_pow_pos 32) hg hn hhas

/-- The loop of a label group runs its rounds. -/
theorem formEnds_group {g : Nat} {bodies : List (List Form)} :
    FormEnds world frame (groupForm g bodies) n o n'
      ↔ LoopEnds world frame (Name.labelGroup g) (roundForms g bodies) n o n' :=
  formEnds_loop (LabelKind.group g).isLabel_text (List.cons_ne_nil _ _)

theorem taken_eq_error {l : Bytes} {s : Stop} (h : taken (some l) o = .error s) :
    o = .error s ∧ s ≠ .branch l := by
  cases o with
  | ok v => cases h
  | error t =>
    simp only [taken] at h
    by_cases hgoes : goesTo (some l) t = true
    · rw [if_pos hgoes] at h
      cases h
    · rw [if_neg hgoes] at h
      cases h
      exact ⟨rfl, fun hs => hgoes (goesTo_some.mpr hs)⟩

namespace GroupCode

variable {nest : Nest} {g : Nat} {sections : List (Bytes × Behaviour)}
variable {bodies : List (List Form)} (h : GroupCode labels nest world frame g sections bodies)

include h

/-- A round goes through the section of the current label. Only the last section falls off its end,
and then the group is left. -/
theorem seqEnds_round {i : Nat} {l : Bytes} {a : Behaviour} {v : Value} (ht : Twin labels frame n m)
    (hi : sections[i]? = some (l, a))
    (hlocal : n.locals.lookup (Name.currentLabel g) = some (position i))
    (hfs : bodies[i]? = some fs) :
    SeqEnds world frame (roundForms g bodies) v n o n' ↔
      (∃ u, SeqEnds world frame fs .void n (.ok u) n' ∧ o = .error (.branch (Name.labelGroup g)))
        ∨ ∃ s, o = taken (some (Name.dispatch g)) (.error s)
          ∧ SeqEnds world frame fs .void n (.error s) n' := by
  have hends := fun o n' => @seqEnds_sections world frame n n' o fs g i ht.plain₁ hlocal
    [.words ["br", Name.labelGroup g]] bodies 0 .void (Nat.zero_le i)
    (by rw [h.length, Nat.zero_add]; exact h.bound) h.unlabelled hfs
  -- a section that falls off its end is the last one
  have hlast : ∀ {u n₁}, SeqEnds world frame fs .void n (.ok u) n₁ →
      bodies.drop (i + 1) = [] := by
    intro u n₁ hok
    obtain ⟨e, m₁, hm, _, htells⟩ := (h.realizes i l a fs hi hfs).sound ht hok
    obtain rfl := htells.eq_done
    rw [List.drop_eq_nil_iff, h.length]
    cases hnext : sections[i + 1]? with
    | none => exact List.getElem?_eq_none_iff.mp hnext
    | some p =>
      rw [hnext] at hm
      rcases hm with ⟨_, _, _, hgoto, _⟩ | ⟨_, hdone⟩
      · cases hgoto
      · cases hdone
  have hbr : ∀ {u n₁ o n'}, SeqEnds world frame fs .void n (.ok u) n₁ →
      (SeqEnds world frame (sectionForms g (i + 1) (bodies.drop (i - 0 + 1))
          ++ [.words ["br", Name.labelGroup g]]) u n₁ o n'
        ↔ o = .error (.branch (Name.labelGroup g)) ∧ n' = n₁) := by
    intro u n₁ o n' hok
    rw [Nat.sub_zero, hlast hok, sectionForms, List.nil_append, seqEnds_single]
    exact formEnds_br.trans (and_iff_right hok.plain.2)
  have hne : taken (some (Name.dispatch g)) (.error (.branch (Name.labelGroup g)))
      = .error (.branch (Name.labelGroup g)) := by
    refine Realizes.taken_of_ne fun heq => LabelKind.group_ne_dispatch g g ?_
    exact Stop.branch.inj (Except.error.inj heq)
  have hlabel : Form.isLabel (Name.dispatch g) := (LabelKind.dispatch g).isLabel_text
  unfold roundForms
  rw [seqEnds_single, formEnds_block_label hlabel]
  simp only [hends]
  constructor
  · rintro ⟨o₀, ⟨u, n₁, hok, hrest⟩ | ⟨s, rfl, herror⟩, rfl⟩
    · obtain ⟨rfl, rfl⟩ := (hbr hok).mp hrest
      exact .inl ⟨u, hok, hne⟩
    · exact .inr ⟨s, rfl, herror⟩
  · rintro (⟨u, hok, rfl⟩ | ⟨s, rfl, herror⟩)
    · exact ⟨_, .inl ⟨u, n', hok, (hbr hok).mpr ⟨rfl, rfl⟩⟩, hne.symm⟩
    · exact ⟨_, .inr ⟨s, rfl, herror⟩, rfl⟩

theorem exists_section {i : Nat} (hi : i < sections.length) :
    ∃ l a fs, sections[i]? = some (l, a) ∧ bodies[i]? = some fs :=
  ⟨_, _, _, List.getElem?_eq_getElem hi, List.getElem?_eq_getElem (by rw [h.length]; exact hi)⟩

theorem place_eq {name : Bytes} {k : Nat} {b : Behaviour}
    (hk : sections[k]? = some (name, b)) : labels.place? name = some ⟨g, k⟩ := by
  rw [h.place, hk]
  rfl

/-- A section that goes to a label of its group. -/
theorem sections_of_goto {i k : Nat} {l name : Bytes} {a : Behaviour} {m₁ m₂ : Machine}
    {e : Ending} (hi : sections[i]? = some (l, a))
    (ha : Behaviour.onward ((sections[i + 1]?).map Prod.fst) a .void m (.goto name) m₁)
    (hplace : labels.place? name = some ⟨g, k⟩)
    (hrest : Behaviour.Sections sections k m₁ e m₂) : Behaviour.Sections sections i m e m₂ := by
  obtain ⟨⟨name', b⟩, hk, hname⟩ := Option.map_eq_some_iff.mp ((h.place name k).mp hplace)
  obtain rfl : name' = name := hname
  cases hnext : sections[i + 1]? with
  | none =>
    rw [hnext] at ha
    exact .goto hi ha hk hrest
  | some p =>
    rw [hnext] at ha
    rcases ha with ⟨u, m', hdone, hgoto, rfl⟩ | ⟨hgoto, _⟩
    · obtain rfl : name' = p.1 := Ending.goto.inj hgoto
      have hsame := (h.place_eq hnext).symm.trans hplace
      obtain rfl : i + 1 = k := (LabelPlace.mk.inj (Option.some.inj hsame)).2
      exact .next hi hdone (List.getElem?_eq_some_iff.mp hnext).1 hrest
    · exact .goto hi hgoto hk hrest

/-- A section that ends in another way than by a goto of its group. -/
theorem sections_of_leave {i : Nat} {l : Bytes} {a : Behaviour} {m' : Machine} {e : Ending}
    (hi : sections[i]? = some (l, a))
    (ha : Behaviour.onward ((sections[i + 1]?).map Prod.fst) a .void m e m')
    (hdone : e.isDone = false)
    (hgoto : ∀ name k, e = .goto name → labels.place? name ≠ some ⟨g, k⟩) :
    Behaviour.Sections sections i m e m' := by
  have hown : ∀ p ∈ sections, e ≠ .goto p.1 := by
    rintro ⟨name, b⟩ hp rfl
    obtain ⟨k, hk⟩ := List.mem_iff_getElem?.mp hp
    exact hgoto name k rfl (h.place_eq hk)
  cases hnext : sections[i + 1]? with
  | none =>
    rw [hnext] at ha
    exact .leave hi ha hdone hown
  | some p =>
    rw [hnext] at ha
    rcases ha with ⟨_, _, _, rfl, _⟩ | ⟨ha, _⟩
    · exact absurd rfl (hown p (List.mem_of_getElem? hnext))
    · exact .leave hi ha hdone hown

/-- The loop of a label group goes from section to section as is meant. -/
theorem sound {i : Nat} (ht : Twin labels frame n m) (hi : i < sections.length)
    (hlocal : n.locals.lookup (Name.currentLabel g) = some (position i))
    (hends : LoopEnds world frame (Name.labelGroup g) (roundForms g bodies) n o n') :
    ∃ e m', Behaviour.Sections sections i m e m' ∧ Twin labels frame n' m'
      ∧ Tells labels (targets nest) e o n' := by
  induction hends generalizing m i with
  | leave hround =>
    obtain ⟨l, a, fs, hsec, hfs⟩ := h.exists_section hi
    have hreal := h.realizes i l a fs hsec hfs
    rcases (h.seqEnds_round ht hsec hlocal hfs).mp hround with ⟨u, hok, _⟩ | ⟨s, hs, herror⟩
    · obtain ⟨e, m', hm, ht', htells⟩ := hreal.sound ht hok
      obtain rfl := htells.eq_done
      cases hnext : sections[i + 1]? with
      | none =>
        rw [hnext] at hm
        have hlen := List.getElem?_eq_none_iff.mp hnext
        exact ⟨_, m', .finish hsec hm (by omega), ht', rfl⟩
      | some p =>
        rw [hnext] at hm
        rcases hm with ⟨_, _, _, hgoto, _⟩ | ⟨_, hdone⟩
        · cases hgoto
        · cases hdone
    · obtain ⟨hs, hne⟩ := taken_eq_error hs.symm
      cases hs
      obtain ⟨e, m', _, _, htells⟩ := hreal.sound ht herror
      exact absurd rfl ((tells_withinGroup htells).2 hne).1
  | stop hround hs =>
    obtain ⟨l, a, fs, hsec, hfs⟩ := h.exists_section hi
    rcases (h.seqEnds_round ht hsec hlocal hfs).mp hround with ⟨u, _, heq⟩ | ⟨s, heq, herror⟩
    · exact absurd (Except.error.inj heq) hs
    · obtain ⟨heq, hne⟩ := taken_eq_error heq.symm
      cases heq
      obtain ⟨e, m', hm, ht', htells⟩ := (h.realizes i l a fs hsec hfs).sound ht herror
      obtain ⟨_, houter⟩ := (tells_withinGroup htells).2 hne
      refine ⟨e, m', h.sections_of_leave hsec hm htells.not_done ?_, ht', houter⟩
      rintro name k rfl hplace
      obtain ⟨p, hp, _, hbranch, _⟩ := htells
      obtain rfl : p = ⟨g, k⟩ := Option.some.inj (hp.symm.trans hplace)
      exact hne (Except.error.inj hbranch)
  | again hround _ ih =>
    obtain ⟨l, a, fs, hsec, hfs⟩ := h.exists_section hi
    rcases (h.seqEnds_round ht hsec hlocal hfs).mp hround with ⟨u, _, heq⟩ | ⟨s, heq, herror⟩
    · cases heq
    · obtain ⟨e₁, m₁, hm, ht₁, htells⟩ := (h.realizes i l a fs hsec hfs).sound ht herror
      have hs : s = .branch (Name.dispatch g) := by
        refine Decidable.byContradiction fun hne => ?_
        rw [Realizes.taken_of_ne fun heq => hne (Except.error.inj heq)] at heq
        cases heq
      obtain ⟨name, k, rfl, hplace, hlocal₁⟩ := (tells_withinGroup htells).1 hs
      have hk : k < sections.length := by
        obtain ⟨p, hp, _⟩ := Option.map_eq_some_iff.mp ((h.place name k).mp hplace)
        exact (List.getElem?_eq_some_iff.mp hp).1
      obtain ⟨e, m', hrest, rest⟩ := ih ht₁ hk hlocal₁
      exact ⟨e, m', h.sections_of_goto hsec hm hplace hrest, rest⟩

/-- The loop of a label group goes on as long as is meant. -/
theorem complete {i : Nat} {m' : Machine} {e : Ending} (ht : Twin labels frame n m)
    (hlocal : n.locals.lookup (Name.currentLabel g) = some (position i))
    (hsections : Behaviour.Sections sections i m e m') :
    ∃ o n', LoopEnds world frame (Name.labelGroup g) (roundForms g bodies) n o n'
      ∧ Twin labels frame n' m' ∧ Tells labels (targets nest) e o n' := by
  have hbodies : ∀ {i : Nat} {p}, sections[i]? = some p → ∃ fs, bodies[i]? = some fs := by
    intro i p hi
    obtain ⟨_, _, fs, _, hfs⟩ := h.exists_section (List.getElem?_eq_some_iff.mp hi).1
    exact ⟨fs, hfs⟩
  -- the round of a section that goes to a label of the group
  have hjump : ∀ {i k : Nat} {l name : Bytes} {a b : Behaviour} {n m m₁ : Machine},
      Twin labels frame n m → n.locals.lookup (Name.currentLabel g) = some (position i) →
      sections[i]? = some (l, a) → sections[k]? = some (name, b) →
      Behaviour.onward ((sections[i + 1]?).map Prod.fst) a .void m (.goto name) m₁ →
      ∃ n₁, SeqEnds world frame (roundForms g bodies) .void n (.ok .void) n₁
        ∧ Twin labels frame n₁ m₁
        ∧ n₁.locals.lookup (Name.currentLabel g) = some (position k) := by
    intro i k l name a b n m m₁ ht hlocal hi hk ha
    obtain ⟨fs, hfs⟩ := hbodies hi
    obtain ⟨o₁, n₁, hn₁, ht₁, p, hp, _, rfl, hp'⟩ := (h.realizes i l a fs hi hfs).complete ht ha
    obtain rfl : p = ⟨g, k⟩ := Option.some.inj (hp.symm.trans (h.place_eq hk))
    refine ⟨n₁, (h.seqEnds_round ht hi hlocal hfs).mpr (.inr ⟨_, ?_, hn₁⟩), ht₁, hp'⟩
    exact (Realizes.taken_branch _).symm
  induction hsections generalizing n with
  | goto hi ha hk _ ih =>
    obtain ⟨n₁, hround, ht₁, hlocal₁⟩ := hjump ht hlocal hi hk (onward_of_not_done ha rfl)
    obtain ⟨o, n', hrest, rest⟩ := ih ht₁ hlocal₁
    exact ⟨o, n', .again hround hrest, rest⟩
  | next hi ha hlt _ ih =>
    have hnext := List.getElem?_eq_getElem hlt
    obtain ⟨n₁, hround, ht₁, hlocal₁⟩ := hjump ht hlocal hi hnext (by
      rw [hnext]
      exact .inl ⟨_, _, ha, rfl, rfl⟩)
    obtain ⟨o, n', hrest, rest⟩ := ih ht₁ hlocal₁
    exact ⟨o, n', .again hround hrest, rest⟩
  | @finish i l a m m' v hi ha hlast =>
    obtain ⟨fs, hfs⟩ := hbodies hi
    have hnext : sections[i + 1]? = none := List.getElem?_eq_none_iff.mpr (by omega)
    have hreal := h.realizes i l a fs hi hfs
    rw [hnext] at hreal
    obtain ⟨o₁, n₁, hn₁, ht₁, htells⟩ := hreal.complete ht ha
    obtain rfl : o₁ = .ok v := htells
    refine ⟨_, n₁, .leave ?_, ht₁, rfl⟩
    exact (h.seqEnds_round ht hi hlocal hfs).mpr (.inl ⟨v, hn₁, rfl⟩)
  | @leave i l a m m' e hi ha hdone hgoto =>
    obtain ⟨fs, hfs⟩ := hbodies hi
    obtain ⟨o₁, n₁, hn₁, ht₁, htells⟩ :=
      (h.realizes i l a fs hi hfs).complete ht (onward_of_not_done ha hdone)
    obtain ⟨s, rfl⟩ := htells.error hdone
    have hne : s ≠ .branch (Name.dispatch g) := by
      intro hs
      obtain ⟨name, k, rfl, hplace, _⟩ := (tells_withinGroup htells).1 hs
      obtain ⟨p, hp, rfl⟩ := Option.map_eq_some_iff.mp ((h.place name k).mp hplace)
      exact hgoto p (List.mem_of_getElem? hp) rfl
    obtain ⟨hgroup, houter⟩ := (tells_withinGroup htells).2 hne
    refine ⟨_, n₁, .stop ?_ hgroup, ht₁, houter⟩
    refine (h.seqEnds_round ht hi hlocal hfs).mpr (.inr ⟨s, ?_, hn₁⟩)
    exact (Realizes.taken_of_ne fun heq => hne (Except.error.inj heq)).symm

/-- The code of a label group does what is meant: it starts with the first section. -/
theorem realizes_group (hne : sections ≠ []) (v : Value) :
    Realizes labels frame (targets nest)
      (SeqEnds world frame [enterForm g, groupForm g bodies] v) (Behaviour.group sections v) := by
  have hcode : ∀ {n m o n'}, Twin labels frame n m →
      (SeqEnds world frame [enterForm g, groupForm g bodies] v n o n'
        ↔ LoopEnds world frame (Name.labelGroup g) (roundForms g bodies)
          (n.set (Name.currentLabel g) (position 0)) o n') := by
    intro n m o n' ht
    rw [seqEnds_cons]
    simp only [formEnds_enter h.group ht.plain₁ ht.has₁, seqEnds_single, formEnds_group]
    constructor
    · rintro (⟨u, n₁, ⟨_, rfl⟩, hloop⟩ | ⟨s, _, hs, _⟩)
      · exact hloop
      · cases hs
    · intro hloop
      exact .inl ⟨_, _, ⟨rfl, rfl⟩, hloop⟩
  constructor
  · intro n m o n' ht hn
    exact h.sound (ht.set h.group _) (List.length_pos_iff.mpr hne)
      (Locals.lookup_set_self _ _ _) ((hcode ht).mp hn)
  · intro n m e m' ht hm
    obtain ⟨o, n', hloop, rest⟩ :=
      h.complete (ht.set h.group _) (Locals.lookup_set_self _ _ _) hm
    exact ⟨o, n', (hcode ht).mpr hloop, rest⟩

end GroupCode

end Control

end WastForge
