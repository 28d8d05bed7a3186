import WastForge.Emit.Stmt
import WastForge.Proofs.Control.Reference
import WastForge.Proofs.Machine.Agree
import WastForge.Proofs.Text.Decimal

/-!
# Code that does what is meant

The labels that the code of statements has are told apart by what they are the labels of.

Code realizes a behaviour if both end alike from machines that differ in the locals of label groups
only: a break or continue is a branch to the label of the loop or switch that it means, and a goto
is a branch to the label of its group, with the position of the label left in the local of the
group.
-/

namespace WastForge

/-! ## Labels of blocks and loops -/

/-- What a label of a block or loop stands for. -/
inductive LabelKind where
  | loop (index : LoopIndex)
  | continue_ (index : LoopIndex)
  | switch (index : LoopIndex)
  | group (group : Nat)
  | dispatch (group : Nat)
  deriving DecidableEq

namespace LabelKind

/-- The label. -/
def text : LabelKind → Bytes
  | loop i => Name.loop i
  | continue_ i => Name.continue_ i
  | switch i => Name.switch i
  | group g => Name.labelGroup g
  | dispatch g => Name.dispatch g

theorem getLast?_ofNat (n : Nat) : ∃ b, (Bytes.ofNat n).getLast? = some b ∧ Bytes.isDigit b := by
  have hne := Bytes.ofNat_ne_nil n
  refine ⟨_, List.getLast?_eq_some_getLast hne, ?_⟩
  exact Bytes.isDigit_of_mem_ofNat (List.getLast_mem hne)

theorem getLast?_ofInt (n : Int) : ∃ b, (Bytes.ofInt n).getLast? = some b ∧ Bytes.isDigit b := by
  cases n with
  | ofNat k => exact getLast?_ofNat k
  | negSucc k =>
    obtain ⟨b, hb, hdigit⟩ := getLast?_ofNat (k + 1)
    refine ⟨b, ?_, hdigit⟩
    show (45 :: Bytes.ofNat (k + 1)).getLast? = some b
    rw [List.getLast?_cons, hb]
    rfl

/-- A text that ends in a number is none that ends in a letter. -/
theorem append_number_ne {front number text ending : Bytes} {b c : UInt8}
    (hnumber : number.getLast? = some b) (hb : Bytes.isDigit b)
    (hending : ending.getLast? = some c) (hc : Bytes.isDigit c = false) :
    front ++ number ≠ text ++ ending := by
  intro h
  have hlast := congrArg List.getLast? h
  rw [List.getLast?_append, List.getLast?_append, hnumber, hending] at hlast
  obtain rfl : b = c := Option.some.inj hlast
  rw [hb] at hc
  cases hc

/-- The first letters of a label. -/
def front : LabelKind → Bytes
  | loop _ | continue_ _ => "$lo"
  | switch _ => "$sw"
  | group _ | dispatch _ => "$la"

theorem take_text (k : LabelKind) : k.text.take 3 = k.front := by
  cases k <;> rfl

theorem loop_ne_continue (i j : LoopIndex) : Name.loop i ≠ Name.continue_ j := by
  obtain ⟨b, hb, hdigit⟩ := getLast?_ofInt i.toInt
  exact append_number_ne (c := 101) hb hdigit (by decide) (by decide)

theorem group_ne_dispatch (g g' : Nat) : Name.labelGroup g ≠ Name.dispatch g' := by
  obtain ⟨b, hb, hdigit⟩ := getLast?_ofNat g
  exact append_number_ne (c := 104) hb hdigit (by decide) (by decide)

theorem loop_injective {i j : LoopIndex} (h : Name.loop i = Name.loop j) : i = j :=
  Int32.toInt_inj.mp (Bytes.ofInt_injective (List.append_cancel_left h))

theorem labelGroup_injective {g g' : Nat} (h : Name.labelGroup g = Name.labelGroup g') : g = g' :=
  Bytes.ofNat_injective (List.append_cancel_left h)

/-- What a label stands for can be told from it. -/
theorem text_injective {k k' : LabelKind} (h : k.text = k'.text) : k = k' := by
  have hfront : k.front = k'.front := by
    rw [← take_text, ← take_text, h]
  have hlo : ("$lo" : Bytes) ≠ "$sw" := by decide
  have hla : ("$la" : Bytes) ≠ "$lo" := by decide
  have hsw : ("$sw" : Bytes) ≠ "$la" := by decide
  cases k with
  | loop i =>
    cases k' with
    | loop j => rw [loop_injective h]
    | continue_ j => exact absurd h (loop_ne_continue i j)
    | switch j => exact absurd hfront hlo
    | group g | dispatch g => exact absurd hfront hla.symm
  | continue_ i =>
    cases k' with
    | loop j => exact absurd h.symm (loop_ne_continue j i)
    | continue_ j => rw [loop_injective (List.append_cancel_right h)]
    | switch j => exact absurd hfront hlo
    | group g | dispatch g => exact absurd hfront hla.symm
  | switch i =>
    cases k' with
    | loop j | continue_ j => exact absurd hfront hlo.symm
    | switch j =>
      have hi := Int32.toInt_inj.mp (Bytes.ofInt_injective (List.append_cancel_left h))
      rw [hi]
    | group g | dispatch g => exact absurd hfront hsw
  | group g =>
    cases k' with
    | loop j | continue_ j => exact absurd hfront hla
    | switch j => exact absurd hfront hsw.symm
    | group g' => rw [labelGroup_injective h]
    | dispatch g' => exact absurd h (group_ne_dispatch g g')
  | dispatch g =>
    cases k' with
    | loop j | continue_ j => exact absurd hfront hla
    | switch j => exact absurd hfront hsw.symm
    | group g' => exact absurd h.symm (group_ne_dispatch g' g)
    | dispatch g' => rw [labelGroup_injective (List.append_cancel_right h)]

@[simp] theorem text_inj {k k' : LabelKind} : k.text = k'.text ↔ k = k' :=
  ⟨text_injective, congrArg text⟩

theorem isLabel_text (k : LabelKind) : Form.isLabel k.text := by
  cases k <;> rfl

theorem text_ne_nil (k : LabelKind) : k.text ≠ [] := by
  intro h
  have hlabel := k.isLabel_text
  rw [h] at hlabel
  cases hlabel

end LabelKind

end WastForge

namespace WastForge.Control

/-! ## Code and behaviour -/

open Eval Emit

/-- The locals that label groups keep. -/
def groupLocals (labels : LabelTable) : List Bytes :=
  (List.range labels.groups).map Name.currentLabel

theorem mem_groupLocals {labels : LabelTable} {g : Nat} (h : g < labels.groups) :
    Name.currentLabel g ∈ groupLocals labels :=
  List.mem_map_of_mem (List.mem_range.mpr h)

/-- Two machines that differ in the locals of label groups only. A function has those locals, but
directives make theirs when they write them. -/
structure Twin (labels : LabelTable) (frame : Frame) (n m : Machine) : Prop where
  visible : n.visible (groupLocals labels) = m.visible (groupLocals labels)
  has₁ : frame.func = none ∨ n.Has (groupLocals labels)
  has₂ : frame.func = none ∨ m.Has (groupLocals labels)
  plain₁ : n.plain = n
  plain₂ : m.plain = m

/-- The labels that breaks and continues mean, and the label groups around. -/
structure Targets where
  leave : LoopIndex → Option Bytes
  again : LoopIndex → Option Bytes
  groups : List Nat

/-- What breaks, continues and gotos mean in a nest. -/
def targets (nest : Nest) : Targets := ⟨nest.breakLabel?, nest.continueLabel?, nest.groups⟩

/-- How code ends that stands for an ending. -/
def Tells (labels : LabelTable) (goals : Targets) : Ending → Except Stop Value → Machine → Prop
  | .done v, o, _ => o = .ok v
  | .stop s, o, _ => o = .error s ∧ ∀ l, s = .branch l → l = []
  | .leave t, o, _ => ∃ l, goals.leave t = some l ∧ o = .error (.branch l)
  | .again t, o, _ => ∃ l, goals.again t = some l ∧ o = .error (.branch l)
  | .goto name, o, n => ∃ p, labels.place? name = some p ∧ p.group ∈ goals.groups
      ∧ o = .error (.branch (Name.dispatch p.group))
      ∧ n.locals.lookup (Name.currentLabel p.group) = some (.i32 (UInt32.ofNat p.index))

/-- Code that ends as is meant, and whenever something is meant, from every machine. -/
structure Realizes (labels : LabelTable) (frame : Frame) (goals : Targets)
    (code : Machine → Except Stop Value → Machine → Prop)
    (ref : Machine → Ending → Machine → Prop) : Prop where
  sound : ∀ {n m o n'}, Twin labels frame n m → code n o n' →
    ∃ e m', ref m e m' ∧ Twin labels frame n' m' ∧ Tells labels goals e o n'
  complete : ∀ {n m e m'}, Twin labels frame n m → ref m e m' →
    ∃ o n', code n o n' ∧ Twin labels frame n' m' ∧ Tells labels goals e o n'

variable {labels : LabelTable} {goals goals' : Targets} {e : Ending} {o : Except Stop Value}
variable {n m m' : Machine} {v : Value} {s : Stop} {frame : Frame}

theorem Tells.eq_done (h : Tells labels goals e (.ok v) n) : e = .done v := by
  cases e with
  | done u =>
    cases h
    rfl
  | leave t | again t =>
    obtain ⟨_, _, h⟩ := h
    cases h
  | goto name =>
    obtain ⟨_, _, _, h, _⟩ := h
    cases h
  | stop s => cases h.1

theorem Tells.not_done (h : Tells labels goals e (.error s) n) : e.isDone = false := by
  cases e with
  | done u => cases h
  | _ => rfl

theorem Tells.error (h : Tells labels goals e o n) (he : e.isDone = false) :
    ∃ s, o = .error s := by
  cases e with
  | done u => cases he
  | leave t | again t =>
    obtain ⟨l, _, rfl⟩ := h
    exact ⟨_, rfl⟩
  | goto name =>
    obtain ⟨_, _, _, rfl, _⟩ := h
    exact ⟨_, rfl⟩
  | stop s => exact ⟨s, h.1⟩

namespace Realizes

variable {code code' : Machine → Except Stop Value → Machine → Prop}
variable {ref ref' : Machine → Ending → Machine → Prop}

/-- What code does may be said in other words. -/
theorem congr (h : Realizes labels frame goals code ref)
    (hcode : ∀ {n o n'}, n.plain = n → (code' n o n' ↔ code n o n'))
    (href : ∀ {m e m'}, ref' m e m' ↔ ref m e m') : Realizes labels frame goals code' ref' := by
  constructor
  · intro n m o n' ht hn
    obtain ⟨e, m', hm, rest⟩ := h.sound ht ((hcode ht.plain₁).mp hn)
    exact ⟨e, m', href.mpr hm, rest⟩
  · intro n m e m' ht hm
    obtain ⟨o, n', hn, rest⟩ := h.complete ht (href.mp hm)
    exact ⟨o, n', (hcode ht.plain₁).mpr hn, rest⟩

/-- Code that ends in one way. -/
theorem at_once {o : Except Stop Value}
    (h : ∀ n m, Twin labels frame n m → Tells labels goals e o n) :
    Realizes labels frame goals (fun n o' n' => o' = o ∧ n' = n)
      (fun m e' m' => e' = e ∧ m' = m) := by
  constructor
  · rintro n m _ _ ht ⟨rfl, rfl⟩
    exact ⟨e, m, ⟨rfl, rfl⟩, ht, h _ _ ht⟩
  · rintro n m _ _ ht ⟨rfl, rfl⟩
    exact ⟨o, n, ⟨rfl, rfl⟩, ht, h _ _ ht⟩

/-- Code that falls off its end. -/
theorem done (v : Value) :
    Realizes labels frame goals (fun n o n' => o = .ok v ∧ n' = n)
      (fun m e m' => e = .done v ∧ m' = m) :=
  at_once fun _ _ _ => rfl

/-- Code that goes on with other code, unless it does not fall off its end. -/
theorem bind {next : Value → Machine → Except Stop Value → Machine → Prop}
    {refNext : Value → Machine → Ending → Machine → Prop} (h : Realizes labels frame goals code ref)
    (hnext : ∀ v, Realizes labels frame goals (next v) (refNext v)) :
    Realizes labels frame goals
      (fun n o n' => (∃ v n₁, code n (.ok v) n₁ ∧ next v n₁ o n')
        ∨ ∃ s, o = .error s ∧ code n (.error s) n')
      (fun m e m' => (∃ v m₁, ref m (.done v) m₁ ∧ refNext v m₁ e m')
        ∨ ref m e m' ∧ e.isDone = false) := by
  constructor
  · rintro n m o n' ht (⟨v, n₁, hfirst, hsecond⟩ | ⟨s, rfl, hfirst⟩)
    · obtain ⟨e₁, m₁, hm₁, ht₁, htells⟩ := h.sound ht hfirst
      obtain rfl := htells.eq_done
      obtain ⟨e, m', hm', rest⟩ := (hnext v).sound ht₁ hsecond
      exact ⟨e, m', .inl ⟨v, m₁, hm₁, hm'⟩, rest⟩
    · obtain ⟨e, m', hm', ht', htells⟩ := h.sound ht hfirst
      exact ⟨e, m', .inr ⟨hm', htells.not_done⟩, ht', htells⟩
  · rintro n m e m' ht (⟨v, m₁, hfirst, hsecond⟩ | ⟨hfirst, hdone⟩)
    · obtain ⟨o₁, n₁, hn₁, ht₁, htells⟩ := h.complete ht hfirst
      obtain rfl : o₁ = .ok v := htells
      obtain ⟨o, n', hn', rest⟩ := (hnext v).complete ht₁ hsecond
      exact ⟨o, n', .inl ⟨v, n₁, hn₁, hn'⟩, rest⟩
    · obtain ⟨o, n', hn', ht', htells⟩ := h.complete ht hfirst
      obtain ⟨s, rfl⟩ := htells.error hdone
      exact ⟨_, n', .inr ⟨s, rfl, hn'⟩, ht', htells⟩

end Realizes

/-- A label takes exactly the endings of `caught`; all others mean the same outside of it. -/
def Catches (labels : LabelTable) (goals' goals : Targets) (l : Bytes)
    (caught : Ending → Bool) : Prop :=
  ∀ e o n, Tells labels goals' e o n →
    (caught e = true → o = .error (.branch l))
      ∧ (caught e = false → o ≠ .error (.branch l) ∧ Tells labels goals e o n)

namespace Realizes

variable {code : Machine → Except Stop Value → Machine → Prop}
variable {ref : Machine → Ending → Machine → Prop} {l : Bytes} {caught : Ending → Bool}

theorem taken_branch (l : Bytes) : taken (some l) (.error (.branch l)) = .ok .void := by
  simp [taken, goesTo]

theorem taken_of_ne {l : Bytes} (h : o ≠ .error (.branch l)) : taken (some l) o = o := by
  cases o with
  | ok v => rfl
  | error s =>
    simp only [taken]
    rw [if_neg fun hgoes => h (by rw [goesTo_some.mp hgoes])]

/-- A block with a label. -/
theorem scope (h : Realizes labels frame goals' code ref)
    (hcatch : Catches labels goals' goals l caught) :
    Realizes labels frame goals (fun n o n' => ∃ o₀, code n o₀ n' ∧ o = taken (some l) o₀)
      (fun m e m' => ∃ e₀, ref m e₀ m' ∧ e = if caught e₀ then .done .void else e₀) := by
  have htells : ∀ e₀ o₀ n, Tells labels goals' e₀ o₀ n →
      Tells labels goals (if caught e₀ then .done .void else e₀) (taken (some l) o₀) n := by
    intro e₀ o₀ n ht
    obtain ⟨hyes, hno⟩ := hcatch e₀ o₀ n ht
    cases hcaught : caught e₀ with
    | true =>
      rw [hyes hcaught, taken_branch]
      rfl
    | false =>
      obtain ⟨hne, ht⟩ := hno hcaught
      rw [taken_of_ne hne]
      exact ht
  constructor
  · rintro n m o n' ht ⟨o₀, hn, rfl⟩
    obtain ⟨e₀, m', hm, ht', h₀⟩ := h.sound ht hn
    exact ⟨_, m', ⟨e₀, hm, rfl⟩, ht', htells e₀ o₀ n' h₀⟩
  · rintro n m e m' ht ⟨e₀, hm, rfl⟩
    obtain ⟨o₀, n', hn, ht', h₀⟩ := h.complete ht hm
    exact ⟨_, n', ⟨o₀, hn, rfl⟩, ht', htells e₀ o₀ n' h₀⟩

/-- A loop with a label. -/
theorem rounds {world : MachineEnv} {fs : List Form} {a : Behaviour}
    (h : Realizes labels frame goals' (SeqEnds world frame fs .void) (a .void))
    (hcatch : Catches labels goals' goals l caught) :
    Realizes labels frame goals (LoopEnds world frame l fs) (Behaviour.Rounds caught a) := by
  constructor
  · intro n m o n' ht hn
    induction hn generalizing m with
    | leave hbody =>
      obtain ⟨e, m', hm, ht', htells⟩ := h.sound ht hbody
      cases hcaught : caught e with
      | true => exact ⟨_, m', .leave hm hcaught, ht', rfl⟩
      | false => exact absurd rfl ((hcatch _ _ _ htells).2 hcaught).1
    | stop hbody hs =>
      obtain ⟨e, m', hm, ht', htells⟩ := h.sound ht hbody
      cases hcaught : caught e with
      | true => exact absurd (Except.error.inj ((hcatch _ _ _ htells).1 hcaught)) hs
      | false =>
        exact ⟨e, m', .stop hm hcaught htells.not_done, ht',
          ((hcatch _ _ _ htells).2 hcaught).2⟩
    | again hbody _ ih =>
      obtain ⟨e, m₁, hm, ht₁, htells⟩ := h.sound ht hbody
      obtain rfl := htells.eq_done
      obtain ⟨e', m', hrest, rest⟩ := ih ht₁
      exact ⟨e', m', .again hm hrest, rest⟩
  · intro n m e m' ht hm
    induction hm generalizing n with
    | leave hbody hcaught =>
      obtain ⟨o, n', hn, ht', htells⟩ := h.complete ht hbody
      obtain rfl := (hcatch _ _ _ htells).1 hcaught
      exact ⟨_, n', .leave hn, ht', rfl⟩
    | stop hbody hcaught hnot =>
      obtain ⟨o, n', hn, ht', htells⟩ := h.complete ht hbody
      obtain ⟨s, rfl⟩ := htells.error hnot
      obtain ⟨hne, htells⟩ := (hcatch _ _ _ htells).2 hcaught
      exact ⟨_, n', .stop hn fun hs => hne (congrArg Except.error hs), ht', htells⟩
    | again hbody _ ih =>
      obtain ⟨o, n₁, hn, ht₁, htells⟩ := h.complete ht hbody
      obtain rfl : o = .ok _ := htells
      obtain ⟨o', n', hrest, rest⟩ := ih ht₁
      exact ⟨o', n', .again hn hrest, rest⟩

end Realizes

end WastForge.Control
