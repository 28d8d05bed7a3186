import WastForge.Proofs.Branch.Source
import WastForge.Proofs.Branch.Written
import WastForge.Proofs.Control.Forms
import WastForge.Proofs.Control.Table

/-!
# Places of the source and labels of the code

The blocks and loops around a piece of code have the labels of the loops, switches and label groups
around its statement. The innermost label that a branch can mean is the one of the construct that
the jump means, since what lies between has other labels, unless a decoy lies there.
-/

namespace WastForge

open Emit

/-- The label is one that the code has for the place. -/
def Slot.IsLabel : Slot → Bytes → Prop
  | loop _ n, l => l = Name.loop n
  | body _ n, l => l = Name.continue_ n
  | switch _ n, l => l = Name.switch n
  | group _, l => ∃ g, l = Name.labelGroup g
  | section_ _, l => ∃ g, l = Name.dispatch g

/-- A branch goes where the jump goes: the labels around it are those of the places around the jump,
and the innermost one with the name of the branch is that of the place that the jump means. -/
structure Branch.Hits (b : Branch) (j : Jump) : Prop where
  around : List.Forall₂ Slot.IsLabel j.around b.around
  depth : b.depth? = j.target
  found : j.target.isSome

/-- A branch goes to the place that the jump reaches, which is one around it. -/
structure Branch.Reaches (b : Branch) (j : Jump) : Prop where
  around : List.Forall₂ Slot.IsLabel j.around b.around
  depth : b.depth? = j.reached
  found : j.reached.isSome

namespace Jump

theorem reached_of_clear {j : Jump} (h : j.IsClear) : j.reached = j.target := if_pos h

/-- A jump without a decoy goes where it means to go. -/
theorem isClear_of_none {j : Jump} (h : j.decoy = none) : j.IsClear := by
  intro d hd
  rw [h] at hd
  cases hd

/-- A jump reaches another place than it means just if a decoy lies inside of that. -/
theorem reached_eq_target_iff {j : Jump} : j.reached = j.target ↔ j.IsClear := by
  refine ⟨fun h => ?_, reached_of_clear⟩
  by_contra hclear
  rw [reached, if_neg hclear] at h
  exact hclear fun d hd => ⟨d, h ▸ hd, Nat.le_refl d⟩

end Jump

/-- A branch hits a jump just if the jump is clear. -/
theorem Branch.Reaches.hits_iff {b : Branch} {j : Jump} (h : b.Reaches j) :
    b.Hits j ↔ j.IsClear := by
  rw [← Jump.reached_eq_target_iff]
  constructor
  · intro hhits
    exact h.depth.symm.trans hhits.depth
  · intro heq
    exact ⟨h.around, heq ▸ h.depth, heq ▸ h.found⟩

namespace Slot

/-- Whether the label of this is the one that is written for a break or continue with a target. -/
def isNamed (isContinue : Bool) (target : LoopIndex) (s : Slot) : Bool :=
  s.isLeft isContinue target || s.passesFor isContinue target

/-- The number of a loop or switch is its index, if it has one. -/
theorem meant_number {own n target : LoopIndex} (h : own.isValid = true → n = own) :
    (Control.meant own target || (target.isValid && !own.isValid && n = target))
      = Control.meant n target := by
  unfold Control.meant
  cases htarget : target.isValid with
  | false => rfl
  | true =>
    cases hown : own.isValid with
    | true => simp [h hown]
    | false =>
      have hne : own ≠ target := by
        rintro rfl
        rw [hown] at htarget
        cases htarget
      simp [hne]

end Slot

namespace Control

/-- The label that stands for a place, where label groups have the numbers of the table. -/
inductive Stands (labels : LabelTable) : Slot → LabelKind → Prop
  | loop {own n : LoopIndex} (h : own.isValid = true → n = own) :
    Stands labels (.loop own n) (.loop n)
  | body {own n : LoopIndex} (h : own.isValid = true → n = own) :
    Stands labels (.body own n) (.continue_ n)
  | switch {own n : LoopIndex} (h : own.isValid = true → n = own) :
    Stands labels (.switch own n) (.switch n)
  | group {g : Nat} {l : List Label} (h : labels.Numbers g l) :
    Stands labels (.group (l.map Label.name)) (.group g)
  | section_ {g : Nat} {l : List Label} (h : labels.Numbers g l) :
    Stands labels (.section_ (l.map Label.name)) (.dispatch g)

theorem Stands.isLabel {labels : LabelTable} {s : Slot} {k : LabelKind} (h : Stands labels s k) :
    s.IsLabel k.text := by
  cases h with
  | loop _ | body _ | switch _ => exact rfl
  | group _ | section_ _ => exact ⟨_, rfl⟩

/-- The places and the labels around a statement in a nest. -/
inductive Around (labels : LabelTable) : Nest → List Slot → List LabelKind → Prop
  | nil : Around labels {} [] []
  | loop {n : Nest} {ss : List Slot} {ks : List LabelKind} {own i : LoopIndex}
    (hown : own.isValid = true → i = own) (h : Around labels n ss ks) :
    Around labels (n.within false i) (.body own i :: .loop own i :: ss)
      (.continue_ i :: .loop i :: ks)
  | switch {n : Nest} {ss : List Slot} {ks : List LabelKind} {own i : LoopIndex}
    (hown : own.isValid = true → i = own) (h : Around labels n ss ks) :
    Around labels (n.within true i) (.switch own i :: ss) (.switch i :: ks)
  | group {n : Nest} {ss : List Slot} {ks : List LabelKind} {g : Nat} {l : List Label}
    (hl : labels.Numbers g l) (h : Around labels n ss ks) :
    Around labels (n.withinGroup g)
      (.section_ (l.map Label.name) :: .group (l.map Label.name) :: ss)
      (.dispatch g :: .group g :: ks)

variable {labels : LabelTable} {nest : Nest} {ss : List Slot} {ks : List LabelKind}

theorem Around.stands (h : Around labels nest ss ks) : List.Forall₂ (Stands labels) ss ks := by
  induction h with
  | nil => exact .nil
  | loop hown _ ih => exact .cons (.body hown) (.cons (.loop hown) ih)
  | switch hown _ ih => exact .cons (.switch hown) ih
  | group hl _ ih => exact .cons (.section_ hl) (.cons (.group hl) ih)

theorem isLabel_of_stands (h : List.Forall₂ (Stands labels) ss ks) :
    List.Forall₂ Slot.IsLabel ss (ks.map LabelKind.text) :=
  List.forall₂_map_right_iff.mpr (h.imp fun _ _ hs => hs.isLabel)

/-- If every place with the label `k` has a property, the innermost label `k` is that of the
innermost place with the property. -/
theorem idxOf?_of_findIdx? {p : Slot → Bool} {k : LabelKind} {j : Nat}
    (h : List.Forall₂ (Stands labels) ss ks) (hp : ∀ s, Stands labels s k → p s = true)
    (hfind : ss.findIdx? p = some j) (hk : ks[j]? = some k) :
    (ks.map LabelKind.text).idxOf? k.text = some j := by
  induction h generalizing j with
  | nil => cases hk
  | @cons s k' ss ks hs _ ih =>
    rw [List.findIdx?_cons] at hfind
    rw [List.map_cons, List.idxOf?_cons]
    cases hps : p s with
    | true =>
      rw [hps] at hfind
      obtain rfl : 0 = j := Option.some.inj hfind
      obtain rfl : k' = k := Option.some.inj hk
      simp
    | false =>
      rw [hps] at hfind
      obtain ⟨i, hi, rfl⟩ := Option.map_eq_some_iff.mp hfind
      have hne : k' ≠ k := by
        rintro rfl
        rw [hp s hs] at hps
        cases hps
      have hbeq : (k'.text == k.text) = false := by
        rw [beq_eq_false_iff_ne, Ne, LabelKind.text_inj]
        exact hne
      rw [hbeq, if_neg Bool.false_ne_true, ih hi hk]
      rfl

/-- A place with a property, and the label that stands for it. -/
structure Found (labels : LabelTable) (ss : List Slot) (ks : List LabelKind) (p : Slot → Bool)
    (k : LabelKind) : Prop where
  index : ∃ j, ss.findIdx? p = some j ∧ ks[j]? = some k
  all : ∀ s, Stands labels s k → p s = true

theorem Found.mem {p : Slot → Bool} {k : LabelKind} (h : Found labels ss ks p k) : k ∈ ks := by
  obtain ⟨j, _, hk⟩ := h.index
  exact List.mem_of_getElem? hk

theorem Found.cons {p : Slot → Bool} {k k' : LabelKind} {s : Slot} (h : Found labels ss ks p k)
    (hs : p s = false) : Found labels (s :: ss) (k' :: ks) p k := by
  obtain ⟨j, hj, hk⟩ := h.index
  refine ⟨⟨j + 1, ?_, hk⟩, h.all⟩
  rw [List.findIdx?_cons, hs, if_neg Bool.false_ne_true, hj]
  rfl

theorem found_head {p : Slot → Bool} {k : LabelKind} {s : Slot} (hs : p s = true)
    (hall : ∀ s, Stands labels s k → p s = true) : Found labels (s :: ss) (k :: ks) p k := by
  refine ⟨⟨0, ?_, rfl⟩, hall⟩
  rw [List.findIdx?_cons, hs, if_pos rfl]

/-- Of the places with one of two properties, the innermost one is the innermost one with the first
property, unless one with the second property lies inside. -/
theorem reached_findIdx? (p q : Slot → Bool) (ss : List Slot) :
    (Jump.mk ss (ss.findIdx? p) (ss.findIdx? q)).reached = ss.findIdx? fun s => p s || q s := by
  induction ss with
  | nil => rfl
  | cons s rest ih =>
    simp only [List.findIdx?_cons]
    cases hp : p s with
    | true =>
      refine Jump.reached_of_clear fun d _ => ⟨0, rfl, Nat.zero_le d⟩
    | false =>
      cases hq : q s with
      | true =>
        have hclear : ¬(Jump.mk (s :: rest) ((rest.findIdx? p).map (· + 1)) (some 0)).IsClear := by
          intro h
          obtain ⟨n, hn, hle⟩ := h 0 rfl
          obtain ⟨k, _, rfl⟩ := Option.map_eq_some_iff.mp hn
          exact absurd hle (Nat.not_succ_le_zero k)
        exact if_neg hclear
      | false =>
        have hclear : (Jump.mk (s :: rest) ((rest.findIdx? p).map (· + 1))
            ((rest.findIdx? q).map (· + 1))).IsClear
            ↔ (Jump.mk rest (rest.findIdx? p) (rest.findIdx? q)).IsClear := by
          simp [Jump.IsClear]
        simp only [Bool.or_self, Bool.false_eq_true, if_false, ← ih, Jump.reached, hclear]
        split <;> rfl

/-- A branch to the label of a place that a jump can name reaches it. -/
theorem reaches_of_found {p q : Slot → Bool} {k : LabelKind} (h : Around labels nest ss ks)
    (hk : Found labels ss ks (fun s => p s || q s) k) :
    Branch.Reaches ⟨ks.map LabelKind.text, k.text⟩ ⟨ss, ss.findIdx? p, ss.findIdx? q⟩ := by
  obtain ⟨j, hj, hkind⟩ := hk.index
  refine ⟨isLabel_of_stands h.stands, ?_, ?_⟩
  · show (ks.map LabelKind.text).idxOf? k.text = _
    rw [idxOf?_of_findIdx? h.stands hk.all hj hkind, reached_findIdx?, hj]
  · rw [reached_findIdx?, hj]
    rfl

/-- A branch to the label of the only place that a jump can name reaches it. -/
theorem reaches_of_only {p : Slot → Bool} {k : LabelKind} (h : Around labels nest ss ks)
    (hk : Found labels ss ks p k) :
    Branch.Reaches ⟨ks.map LabelKind.text, k.text⟩ { around := ss, target := ss.findIdx? p } := by
  obtain ⟨j, hj, hkind⟩ := hk.index
  have hclear : (Jump.mk ss (ss.findIdx? p) none).reached = ss.findIdx? p :=
    Jump.reached_of_clear (Jump.isClear_of_none rfl)
  refine ⟨isLabel_of_stands h.stands, ?_, ?_⟩
  · show (ks.map LabelKind.text).idxOf? k.text = _
    rw [idxOf?_of_findIdx? h.stands hk.all hj hkind, hclear, hj]
  · rw [hclear, hj]
    rfl

theorem found_break {target : LoopIndex} {l : Bytes} (h : Around labels nest ss ks)
    (hl : nest.breakLabel? target = some l) :
    ∃ k : LabelKind, l = k.text ∧ Found labels ss ks (Slot.isNamed false target) k := by
  induction h with
  | nil => cases hl
  | @loop _ _ _ own i hown _ ih =>
    have hnamed : Slot.isNamed false target (.loop own i) = meant i target :=
      Slot.meant_number hown
    rw [breakLabel_within] at hl
    cases hmeant : meant i target with
    | true =>
      rw [hmeant] at hl
      refine ⟨.loop i, (Option.some.inj hl).symm, (found_head (hnamed.trans hmeant) ?_).cons rfl⟩
      intro s hs
      cases hs with
      | loop hs => exact (Slot.meant_number hs).trans hmeant
    | false =>
      rw [hmeant, if_neg Bool.false_ne_true] at hl
      obtain ⟨k, hk, hfound⟩ := ih hl
      exact ⟨k, hk, (hfound.cons (hnamed.trans hmeant)).cons rfl⟩
  | @switch _ _ _ own i hown _ ih =>
    have hnamed : Slot.isNamed false target (.switch own i) = meant i target :=
      Slot.meant_number hown
    rw [breakLabel_within] at hl
    cases hmeant : meant i target with
    | true =>
      rw [hmeant] at hl
      refine ⟨.switch i, (Option.some.inj hl).symm, found_head (hnamed.trans hmeant) ?_⟩
      intro s hs
      cases hs with
      | switch hs => exact (Slot.meant_number hs).trans hmeant
    | false =>
      rw [hmeant, if_neg Bool.false_ne_true] at hl
      obtain ⟨k, hk, hfound⟩ := ih hl
      exact ⟨k, hk, hfound.cons (hnamed.trans hmeant)⟩
  | group _ _ ih =>
    obtain ⟨k, hk, hfound⟩ := ih hl
    exact ⟨k, hk, (hfound.cons rfl).cons rfl⟩

theorem found_continue {target : LoopIndex} {l : Bytes} (h : Around labels nest ss ks)
    (hl : nest.continueLabel? target = some l) :
    ∃ k : LabelKind, l = k.text ∧ Found labels ss ks (Slot.isNamed true target) k := by
  induction h with
  | nil => cases hl
  | @loop _ _ _ own i hown _ ih =>
    have hnamed : Slot.isNamed true target (.body own i) = meant i target :=
      Slot.meant_number hown
    rw [continueLabel_within] at hl
    cases hmeant : meant i target with
    | true =>
      rw [hmeant] at hl
      refine ⟨.continue_ i, (Option.some.inj hl).symm, found_head (hnamed.trans hmeant) ?_⟩
      intro s hs
      cases hs with
      | body hs => exact (Slot.meant_number hs).trans hmeant
    | false =>
      rw [hmeant] at hl
      obtain ⟨k, hk, hfound⟩ := ih hl
      exact ⟨k, hk, (hfound.cons rfl).cons (hnamed.trans hmeant)⟩
  | switch _ _ ih =>
    rw [continueLabel_within] at hl
    obtain ⟨k, hk, hfound⟩ := ih hl
    exact ⟨k, hk, hfound.cons rfl⟩
  | group _ _ ih =>
    obtain ⟨k, hk, hfound⟩ := ih hl
    exact ⟨k, hk, (hfound.cons rfl).cons rfl⟩

/-- A group declares a label if the label is in the group by the table. -/
theorem declares_iff {g : Nat} {l : List Label} (h : labels.Numbers g l) {label : Bytes}
    {place : LabelPlace} (hplace : labels.place? label = some place) :
    Slot.declares label (.section_ (l.map Label.name)) = true ↔ place.group = g := by
  rw [Slot.declares, List.contains_iff_mem, List.mem_iff_getElem?]
  simp only [List.getElem?_map, ← h.place, hplace, Option.some.injEq]
  constructor
  · rintro ⟨i, rfl⟩
    rfl
  · rintro rfl
    exact ⟨place.index, rfl⟩

theorem found_goto {label : Bytes} {place : LabelPlace} (h : Around labels nest ss ks)
    (hplace : labels.place? label = some place)
    (hmem : nest.groups.contains place.group = true) :
    Found labels ss ks (Slot.declares label) (.dispatch place.group) := by
  induction h with
  | nil => cases hmem
  | loop _ _ ih => exact ((ih hmem).cons rfl).cons rfl
  | switch _ _ ih => exact (ih hmem).cons rfl
  | @group n ss ks g l hl _ ih =>
    by_cases hg : place.group = g
    · subst hg
      refine found_head ((declares_iff hl hplace).mpr rfl) ?_
      intro s hs
      cases hs with
      | section_ hl' => exact (declares_iff hl' hplace).mpr rfl
    · refine ((ih ?_).cons rfl).cons ?_
      · have hcons : place.group ∈ g :: n.groups := List.contains_iff_mem.mp hmem
        rcases List.mem_cons.mp hcons with h | h
        · exact absurd h hg
        · exact List.contains_iff_mem.mpr h
      · rw [Bool.eq_false_iff, Ne, declares_iff hl hplace]
        exact hg

end Control

end WastForge
