import WastForge.Proofs.Control.Reference
import WastForge.Proofs.Program.Each

/-!
# The rounds of a loop

A loop in its own words: what is checked before the body, how the body ends, and what is checked
behind it. A for loop checks its condition before the body and performs its last expressions behind
it, a while loop only checks before, and a do loop only checks behind.
-/

namespace WastForge.Control

open Eval Emit

/-- What stands before or behind the body of a loop: it tells whether the loop goes on, or is left
early. -/
abbrev Check := Machine → Except Stop Bool → Machine → Prop

/-- Nothing is checked. -/
def Check.none : Check := fun m r m' => r = .ok true ∧ m' = m

namespace Setting

variable (c : Setting)

/-- The condition of a loop. One that is missing, or that has no code, is true. -/
def condition (cond : Expr) : Check :=
  if cond.isMissing then .none
  else
    match codeOf c.env true cond with
    | none => .none
    | some f => fun m r m' => ∃ o, SeqEnds c.world c.frame [f] .void m o m' ∧ r = o.map Value.isTrue

/-- The last expressions of a for loop. After them it goes on. -/
def posts (l : List Expr) : Check := fun m r m' =>
  ∃ o, SeqEnds c.world c.frame (Line.formsAll ((Emit.effects c.env l).result?.getD [])) .void m o m'
    ∧ r = o.map fun _ => true

end Setting

/-- Whether the body of the loop with the index `i` is at its end: it fell off, or it continues. -/
def Ending.endsRound (i : LoopIndex) (e : Ending) : Bool := e.isDone || e.continues i

/-- The loop with the index `i`, round after round. -/
inductive Loop (i : LoopIndex) (before : Check) (body : Machine → Ending → Machine → Prop)
    (after : Check) : Machine → Ending → Machine → Prop where
  /-- The check before the body is left early. -/
  | stopBefore {m m' : Machine} {s : Stop} (h : before m (.error s) m') :
    Loop i before body after m (.stop s) m'
  /-- The check before the body is false. -/
  | exitBefore {m m' : Machine} (h : before m (.ok false) m') :
    Loop i before body after m (.done .void) m'
  /-- The body breaks the loop. -/
  | break_ {m m₁ m' : Machine} {e : Ending} (h : before m (.ok true) m₁) (hbody : body m₁ e m')
    (he : e.breaks i = true) : Loop i before body after m (.done .void) m'
  /-- The body ends in a way that does not concern the loop. -/
  | leave {m m₁ m' : Machine} {e : Ending} (h : before m (.ok true) m₁) (hbody : body m₁ e m')
    (hround : e.endsRound i = false) (hbreak : e.breaks i = false) :
    Loop i before body after m e m'
  /-- The check behind the body is left early. -/
  | stopAfter {m m₁ m₂ m' : Machine} {e : Ending} {s : Stop} (h : before m (.ok true) m₁)
    (hbody : body m₁ e m₂) (hround : e.endsRound i = true) (hafter : after m₂ (.error s) m') :
    Loop i before body after m (.stop s) m'
  /-- The check behind the body is false. -/
  | exitAfter {m m₁ m₂ m' : Machine} {e : Ending} (h : before m (.ok true) m₁)
    (hbody : body m₁ e m₂) (hround : e.endsRound i = true) (hafter : after m₂ (.ok false) m') :
    Loop i before body after m (.done .void) m'
  /-- The next round. -/
  | again {m m₁ m₂ m₃ m' : Machine} {e e' : Ending} (h : before m (.ok true) m₁)
    (hbody : body m₁ e m₂) (hround : e.endsRound i = true) (hafter : after m₂ (.ok true) m₃)
    (hrest : Loop i before body after m₃ e' m') : Loop i before body after m e' m'

/-- A behaviour that does what a check does: it falls off its end if the loop goes on, and breaks
the loop if it does not. -/
structure Checks (a : Behaviour) (check : Check) : Prop where
  sound : ∀ {v m e m'}, a v m e m' →
    (∃ u, e = .done u ∧ check m (.ok true) m') ∨ (e = .leave noIndex ∧ check m (.ok false) m')
      ∨ ∃ s, e = .stop s ∧ check m (.error s) m'
  goesOn : ∀ {m m'}, check m (.ok true) m' → ∀ v, ∃ u, a v m (.done u) m'
  leaves : ∀ {m m'}, check m (.ok false) m' → ∀ v, a v m (.leave noIndex) m'
  stops : ∀ {m s m'}, check m (.error s) m' → ∀ v, a v m (.stop s) m'

/-- A behaviour that falls off its end at once checks nothing. -/
theorem checks_none (u : Value → Value) :
    Checks (fun v m e m' => e = .done (u v) ∧ m' = m) .none := by
  refine ⟨?_, ?_, ?_, ?_⟩
  · rintro v m e m' ⟨rfl, rfl⟩
    exact .inl ⟨u v, rfl, rfl, rfl⟩
  · rintro m m' ⟨_, rfl⟩ v
    exact ⟨u v, rfl, rfl⟩
  · rintro m m' ⟨h, _⟩
    cases h
  · rintro m s m' ⟨h, _⟩
    cases h

variable {c : Setting}

theorem checks_code (f : Form) :
    Checks (.choose (c.code [f]) (.ends (.done .void)) (.ends (.leave noIndex)))
      (fun m r m' => ∃ o, SeqEnds c.world c.frame [f] .void m o m' ∧ r = o.map Value.isTrue) := by
  refine ⟨?_, ?_, ?_, ?_⟩
  · rintro v m e m' (⟨u, m₁, ⟨o, ho, hu⟩, hrest⟩ | ⟨⟨o, ho, rfl⟩, hdone⟩)
    · cases o with
      | error s => cases hu
      | ok w =>
        cases hu
        cases hw : u.isTrue with
        | true =>
          rw [hw] at hrest
          obtain ⟨rfl, rfl⟩ := hrest
          exact .inl ⟨.void, rfl, _, ho, congrArg Except.ok hw.symm⟩
        | false =>
          rw [hw] at hrest
          obtain ⟨rfl, rfl⟩ := hrest
          exact .inr (.inl ⟨rfl, _, ho, congrArg Except.ok hw.symm⟩)
    · cases o with
      | ok w => cases hdone
      | error s => exact .inr (.inr ⟨s, rfl, _, ho, rfl⟩)
  · rintro m m' ⟨o, ho, hr⟩ v
    cases o with
    | error s => cases hr
    | ok w =>
      have hw : true = w.isTrue := Except.ok.inj hr
      refine ⟨.void, .inl ⟨w, m', ⟨_, ho, rfl⟩, ?_⟩⟩
      rw [← hw]
      exact ⟨rfl, rfl⟩
  · rintro m m' ⟨o, ho, hr⟩ v
    cases o with
    | error s => cases hr
    | ok w =>
      have hw : false = w.isTrue := Except.ok.inj hr
      refine .inl ⟨w, m', ⟨_, ho, rfl⟩, ?_⟩
      rw [← hw]
      exact ⟨rfl, rfl⟩
  · rintro m s m' ⟨o, ho, hr⟩ v
    cases o with
    | ok w => cases hr
    | error t =>
      cases hr
      exact .inr ⟨⟨_, ho, rfl⟩, rfl⟩

theorem checks_test (cond : Expr) : Checks (c.test cond) (c.condition cond) := by
  unfold Setting.test Setting.condition
  split
  · exact checks_none id
  · cases codeOf c.env true cond with
    | none => exact checks_none fun _ => .void
    | some f => exact checks_code f

/-- The value that was left before forms matters only if there are none. -/
theorem seqEnds_from {world : MachineEnv} {frame : Frame} {fs : List Form} {u v : Value}
    {m m' : Machine} {o : Except Stop Value} (h : SeqEnds world frame fs u m o m') :
    ∃ o', SeqEnds world frame fs v m o' m' ∧ (o.map fun _ => true) = o'.map fun _ => true := by
  cases fs with
  | nil =>
    obtain ⟨hm, rfl, rfl⟩ := seqEnds_nil.mp h
    exact ⟨.ok v, seqEnds_nil.mpr ⟨hm, rfl, rfl⟩, rfl⟩
  | cons f rest => exact ⟨o, seqEnds_cons.mpr (seqEnds_cons.mp h), rfl⟩

theorem checks_effects (l : List Expr) : Checks (c.effects l) (c.posts l) := by
  refine ⟨?_, ?_, ?_, ?_⟩
  · rintro v m e m' ⟨o, ho, rfl⟩
    obtain ⟨o', ho', hmap⟩ := seqEnds_from (v := .void) ho
    cases o with
    | ok w => exact .inl ⟨w, rfl, o', ho', hmap⟩
    | error s => exact .inr (.inr ⟨s, rfl, o', ho', hmap⟩)
  · rintro m m' ⟨o, ho, hr⟩ v
    obtain ⟨o', ho', hmap⟩ := seqEnds_from (v := v) ho
    cases o' with
    | ok w => exact ⟨w, _, ho', rfl⟩
    | error s =>
      rw [← hr] at hmap
      cases hmap
  · rintro m m' ⟨o, ho, hr⟩
    cases o <;> cases hr
  · rintro m s m' ⟨o, ho, hr⟩ v
    obtain ⟨o', ho', hmap⟩ := seqEnds_from (v := v) ho
    rw [← hr] at hmap
    cases o' with
    | ok w => cases hmap
    | error t =>
      cases hmap
      exact ⟨_, ho', rfl⟩

variable {i : LoopIndex} {before body after : Behaviour} {checkBefore checkAfter : Check}
variable {v : Value} {m m' : Machine} {e : Ending}

/-- One round of a loop: the check before the body, the body up to a continue, the check behind. -/
def round (i : LoopIndex) (before body after : Behaviour) : Behaviour :=
  before.seq ((body.fresh.catching (Ending.continues i)).seq after)

/-- How a round ends, by its checks and its body. -/
theorem round_cases (hbefore : Checks before checkBefore) (hafter : Checks after checkAfter)
    (h : round i before body after v m e m') :
    (∃ s, e = .stop s ∧ checkBefore m (.error s) m')
      ∨ (e = .leave noIndex ∧ checkBefore m (.ok false) m')
      ∨ ∃ m₁, checkBefore m (.ok true) m₁
        ∧ ((body .void m₁ e m' ∧ e.endsRound i = false)
          ∨ ∃ e₀ m₂, body .void m₁ e₀ m₂ ∧ e₀.endsRound i = true
            ∧ ((∃ u, e = .done u ∧ checkAfter m₂ (.ok true) m')
              ∨ (e = .leave noIndex ∧ checkAfter m₂ (.ok false) m')
              ∨ ∃ s, e = .stop s ∧ checkAfter m₂ (.error s) m')) := by
  rcases h with ⟨u, m₁, hfirst, hrest⟩ | ⟨hfirst, hdone⟩
  · rcases hbefore.sound hfirst with ⟨_, _, hcheck⟩ | ⟨h, _⟩ | ⟨s, h, _⟩
    · refine .inr (.inr ⟨m₁, hcheck, ?_⟩)
      rcases hrest with ⟨w, m₂, ⟨e₀, hbody, hw⟩, hlast⟩ | ⟨⟨e₀, hbody, he⟩, hdone⟩
      · refine .inr ⟨e₀, m₂, hbody, ?_, hafter.sound hlast⟩
        unfold Ending.endsRound
        cases hcont : e₀.continues i with
        | true => exact Bool.or_true _
        | false =>
          rw [hcont, if_neg Bool.false_ne_true] at hw
          rw [← hw]
          rfl
      · cases hcont : e₀.continues i with
        | true =>
          rw [hcont, if_pos rfl] at he
          rw [he] at hdone
          cases hdone
        | false =>
          rw [hcont, if_neg Bool.false_ne_true] at he
          subst he
          refine .inl ⟨hbody, ?_⟩
          unfold Ending.endsRound
          rw [hdone, hcont]
          rfl
    · cases h
    · cases h
  · rcases hbefore.sound hfirst with ⟨u, rfl, _⟩ | hleave | hstop
    · cases hdone
    · exact .inr (.inl hleave)
    · exact .inl hstop

/-- A body that leaves its round. -/
theorem round_leave (hbefore : Checks before checkBefore) {m₁ : Machine}
    (hcheck : checkBefore m (.ok true) m₁) (hbody : body .void m₁ e m')
    (hround : e.endsRound i = false) : round i before body after v m e m' := by
  obtain ⟨u, hu⟩ := hbefore.goesOn hcheck v
  obtain ⟨hdone, hcont⟩ := Bool.or_eq_false_iff.mp hround
  refine .inl ⟨u, m₁, hu, .inr ⟨⟨e, hbody, ?_⟩, hdone⟩⟩
  rw [hcont]
  rfl

/-- A body at its end goes on with the check behind it. -/
theorem round_after (hbefore : Checks before checkBefore) {e₀ : Ending} {m₁ m₂ : Machine}
    (hcheck : checkBefore m (.ok true) m₁) (hbody : body .void m₁ e₀ m₂)
    (hround : e₀.endsRound i = true) :
    ∃ w, ∀ {e m'}, after w m₂ e m' → round i before body after v m e m' := by
  obtain ⟨u, hu⟩ := hbefore.goesOn hcheck v
  have hw : ∃ w, (body.fresh.catching (Ending.continues i)) u m₁ (.done w) m₂ := by
    cases hcont : e₀.continues i with
    | true =>
      refine ⟨.void, e₀, hbody, ?_⟩
      rw [hcont]
      rfl
    | false =>
      unfold Ending.endsRound at hround
      rw [hcont, Bool.or_false] at hround
      cases e₀ with
      | done w => exact ⟨w, .done w, hbody, rfl⟩
      | _ => cases hround
  obtain ⟨w, hw⟩ := hw
  exact ⟨w, fun hlast => .inl ⟨u, m₁, hu, .inl ⟨w, m₂, hw, hlast⟩⟩⟩

/-- A loop is its rounds. -/
theorem loop_iff (hbefore : Checks before checkBefore) (hafter : Checks after checkAfter) :
    Behaviour.loop i before body after v m e m'
      ↔ Loop i checkBefore (body .void) checkAfter m e m' := by
  have hleave : (Ending.leave noIndex).breaks i = true := rfl
  constructor
  · intro h
    change Behaviour.Rounds _ (round i before body after) m e m' at h
    induction h with
    | leave h he =>
      rcases round_cases hbefore hafter h with ⟨s, rfl, _⟩ | ⟨_, hcheck⟩ | ⟨m₁, hcheck, hrest⟩
      · cases he
      · exact .exitBefore hcheck
      · rcases hrest with ⟨hbody, _⟩ | ⟨e₀, m₂, hbody, hround, hlast⟩
        · exact .break_ hcheck hbody he
        · rcases hlast with ⟨u, rfl, _⟩ | ⟨_, hlast⟩ | ⟨s, rfl, _⟩
          · cases he
          · exact .exitAfter hcheck hbody hround hlast
          · cases he
    | stop h he hdone =>
      rcases round_cases hbefore hafter h with ⟨s, rfl, hcheck⟩ | ⟨rfl, _⟩ | ⟨m₁, hcheck, hrest⟩
      · exact .stopBefore hcheck
      · cases he
      · rcases hrest with ⟨hbody, hround⟩ | ⟨e₀, m₂, hbody, hround, hlast⟩
        · exact .leave hcheck hbody hround he
        · rcases hlast with ⟨u, rfl, _⟩ | ⟨rfl, _⟩ | ⟨s, rfl, hlast⟩
          · cases hdone
          · cases he
          · exact .stopAfter hcheck hbody hround hlast
    | again h _ ih =>
      rcases round_cases hbefore hafter h with ⟨s, hs, _⟩ | ⟨hs, _⟩ | ⟨m₁, hcheck, hrest⟩
      · cases hs
      · cases hs
      · rcases hrest with ⟨_, hround⟩ | ⟨e₀, m₂, hbody, hround, hlast⟩
        · cases hround
        · rcases hlast with ⟨_, _, hlast⟩ | ⟨hs, _⟩ | ⟨s, hs, _⟩
          · exact .again hcheck hbody hround hlast ih
          · cases hs
          · cases hs
  · intro h
    show Behaviour.Rounds _ (round i before body after) m e m'
    induction h with
    | stopBefore h => exact .stop (.inr ⟨hbefore.stops h _, rfl⟩) rfl rfl
    | exitBefore h => exact .leave (.inr ⟨hbefore.leaves h _, rfl⟩) hleave
    | @break_ m m₁ m' e h hbody he =>
      have hround : e.endsRound i = false := by
        cases e with
        | leave t => rfl
        | _ => cases he
      exact .leave (round_leave hbefore h hbody hround) he
    | leave h hbody hround hbreak =>
      exact .stop (round_leave hbefore h hbody hround) hbreak (Bool.or_eq_false_iff.mp hround).1
    | stopAfter h hbody hround hlast =>
      obtain ⟨w, hw⟩ := round_after hbefore h hbody hround
      exact .stop (hw (hafter.stops hlast w)) rfl rfl
    | exitAfter h hbody hround hlast =>
      obtain ⟨w, hw⟩ := round_after hbefore h hbody hround
      exact .leave (hw (hafter.leaves hlast w)) hleave
    | again h hbody hround hlast _ ih =>
      obtain ⟨w, hw⟩ := round_after hbefore h hbody hround
      obtain ⟨u, hu⟩ := hafter.goesOn hlast w
      exact .again (hw hu) ih

/-!
## Loops and switches without an index

What statements mean by the indices of the source alone: a loop or switch without an index is left
by the breaks and continues that name none. The number that its code is given changes nothing,
unless a break or continue that leaves it names just this number.
-/

/-- The setting in which loops and switches have only the indices of the source. -/
def Setting.unnumbered (c : Setting) : Setting := { c with numbers := {} }

@[simp] theorem Setting.indexOf_unnumbered (c : Setting) (m : Mark) (own : LoopIndex) :
    c.unnumbered.indexOf m own = own := by
  unfold indexOf unnumbered
  split <;> rfl

/-- Whether this is a break or a continue. -/
def Ending.isBranch : Ending → Bool
  | .leave _ | .again _ => true
  | _ => false

mutual

/-- Whether a statement may end by this break or continue, which none of its loops and switches
catches. -/
def escapes (e : Ending) : Stmt → Bool
  | .block _ rows => rowsEscape e rows
  | .ite _ _ yes no => escapes e yes || escapes e no
  | .forLoop _ own init _ _ body =>
    rowsEscape e init || (escapes e body && !e.breaks own && !e.continues own)
  | .whileLoop _ _ own _ body => escapes e body && !e.breaks own && !e.continues own
  | .labelGroup _ rows => labelRowsEscape e rows
  | .branch _ isContinue target => e = if isContinue then .again target else .leave target
  | .switch _ own _ arms => caseRowsEscape e arms && !e.breaks own
  | .missing | .expr .. | .goto .. | .ret .. | .varDecl .. | .bare .. => false

/-- The same for any of these statements. -/
def rowsEscape (e : Ending) : Option (List Stmt) → Bool
  | none => false
  | some l => anyEscapes e l

/-- The same for any of these statements. -/
def anyEscapes (e : Ending) : List Stmt → Bool
  | [] => false
  | s :: rest => escapes e s || anyEscapes e rest

/-- The same for the sections of any of these labels. -/
def labelRowsEscape (e : Ending) : Option (List Label) → Bool
  | none => false
  | some l => labelsEscape e l

/-- The same for the sections of any of these labels. -/
def labelsEscape (e : Ending) : List Label → Bool
  | [] => false
  | .mk _ body :: rest => rowsEscape e body || labelsEscape e rest

/-- The same for any of these arms. -/
def caseRowsEscape (e : Ending) : Option (List Case) → Bool
  | none => false
  | some l => casesEscape e l

/-- The same for any of these arms. -/
def casesEscape (e : Ending) : List Case → Bool
  | [] => false
  | .mk _ _ body :: rest => rowsEscape e body || casesEscape e rest

end

/-- The breaks and continues that a behaviour may end by are among those of `P`. -/
def Behaviour.Within (P : Ending → Bool) (b : Behaviour) : Prop :=
  ∀ ⦃v m e m'⦄, b v m e m' → e.isBranch = true → P e = true

namespace Behaviour

variable {P Q : Ending → Bool} {a b : Behaviour} {leaves leaves' : Ending → Bool}

theorem Within.mono (h : Within P a) (hPQ : ∀ e, P e = true → Q e = true) : Within Q a :=
  fun _ _ _ _ ha he => hPQ _ (h ha he)

theorem within_skip : Within P .skip := by
  rintro v m e m' ⟨rfl, -⟩ he
  cases he

theorem within_ends {e : Ending} (h : e.isBranch = true → P e = true) : Within P (.ends e) := by
  rintro v m e' m' ⟨rfl, -⟩ he
  exact h he

theorem Within.seq (ha : Within P a) (hb : Within P b) : Within P (.seq a b) := by
  rintro v m e m' (⟨u, m₁, -, hrest⟩ | ⟨hfirst, -⟩) he
  · exact hb hrest he
  · exact ha hfirst he

theorem Within.fresh (ha : Within P a) : Within P a.fresh :=
  fun _ _ _ _ h he => ha h he

theorem Within.catching {caught : Ending → Bool} (ha : Within P a) :
    Within (fun e => P e && !caught e) (.catching caught a) := by
  rintro v m e m' ⟨e₀, h, rfl⟩ he
  cases hcaught : caught e₀ with
  | true =>
    rw [hcaught, if_pos rfl] at he
    cases he
  | false =>
    rw [hcaught, if_neg Bool.false_ne_true] at he
    rw [if_neg Bool.false_ne_true]
    exact Bool.and_eq_true_iff.mpr ⟨ha h he, congrArg not hcaught⟩

theorem Within.choose {yes no : Behaviour} (ha : Within P a) (hyes : Within P yes)
    (hno : Within P no) : Within P (.choose a yes no) := by
  rintro v m e m' (⟨u, m₁, -, hrest⟩ | ⟨hfirst, -⟩) he
  · split at hrest
    · exact hyes hrest he
    · exact hno hrest he
  · exact ha hfirst he

theorem within_rounds (ha : Within P a) {m m' : Machine} {e : Ending} (h : Rounds leaves a m e m')
    (he : e.isBranch = true) : (P e && !leaves e) = true := by
  induction h with
  | leave => cases he
  | stop h hleaves => rw [ha h he, hleaves]; rfl
  | again _ _ ih => exact ih he

theorem within_sections {sections : List (Bytes × Behaviour)}
    (h : ∀ p ∈ sections, Within P p.2) {i : Nat} {m m' : Machine} {e : Ending}
    (hrun : Sections sections i m e m') (he : e.isBranch = true) : P e = true := by
  induction hrun with
  | goto _ _ _ _ ih | next _ _ _ _ ih => exact ih he
  | finish => cases he
  | leave hi ha => exact h _ (List.mem_of_getElem? hi) ha he

/-- What catches the endings of a behaviour does not matter elsewhere. -/
theorem catching_congr {caught caught' : Ending → Bool}
    (h : ∀ v m e m', a v m e m' → caught e = caught' e) :
    catching caught a = catching caught' a := by
  funext v m e m'
  refine propext (exists_congr fun e₀ => and_congr_right fun ha => ?_)
  rw [h v m e₀ m' ha]

/-- What leaves the rounds of a behaviour matters only where it may end. -/
theorem Rounds.congr (h : ∀ m e m', a .void m e m' → leaves e = leaves' e) {m m' : Machine}
    {e : Ending} (hrun : Rounds leaves a m e m') : Rounds leaves' a m e m' := by
  induction hrun with
  | leave ha he => exact .leave ha ((h _ _ _ ha).symm.trans he)
  | stop ha he hdone => exact .stop ha ((h _ _ _ ha).symm.trans he) hdone
  | again ha _ ih => exact .again ha ih

end Behaviour

/-- Two indices catch the same of the breaks and continues of `P`. -/
def CatchAlike (P : Ending → Bool) (i j : LoopIndex) : Prop :=
  ∀ e, e.isBranch = true → P e = true → e.breaks i = e.breaks j ∧ e.continues i = e.continues j

/-- A loop is left by a break without an index. -/
def leavesOnly (e : Ending) : Bool := e = .leave noIndex

section loops

variable {P : Ending → Bool} {i j : LoopIndex} {a before body after : Behaviour}

theorem CatchAlike.eq (h : CatchAlike P i j) (ha : a.Within P) {v : Value} {m m' : Machine}
    {e : Ending} (hrun : a v m e m') :
    e.breaks i = e.breaks j ∧ e.continues i = e.continues j := by
  cases e with
  | leave t | again t => exact h _ rfl (ha hrun rfl)
  | _ => exact ⟨rfl, rfl⟩

/-- The endings of a round: those of its body that do not continue the loop, and leaving it. -/
theorem within_round (hbefore : before.Within leavesOnly) (hbody : body.Within P)
    (hafter : after.Within leavesOnly) :
    (round i before body after).Within fun e => leavesOnly e || (P e && !e.continues i) := by
  refine .seq (hbefore.mono fun e he => ?_) (.seq (hbody.fresh.catching.mono fun e he => ?_)
    (hafter.mono fun e he => ?_))
  · rw [he, Bool.true_or]
  · rw [he, Bool.or_true]
  · rw [he, Bool.true_or]

theorem within_loop (hbefore : before.Within leavesOnly) (hbody : body.Within P)
    (hafter : after.Within leavesOnly) :
    (Behaviour.loop i before body after).Within
      fun e => P e && !e.breaks i && !e.continues i := by
  intro v m e m' h he
  have hleaves := Behaviour.within_rounds (within_round (i := i) hbefore hbody hafter) h he
  obtain ⟨hround, hbreak⟩ := Bool.and_eq_true_iff.mp hleaves
  rcases Bool.or_eq_true_iff.mp hround with honly | hrest
  · rw [of_decide_eq_true honly] at hbreak
    cases hbreak
  · obtain ⟨hP, hcontinue⟩ := Bool.and_eq_true_iff.mp hrest
    exact Bool.and_eq_true_iff.mpr ⟨Bool.and_eq_true_iff.mpr ⟨hP, hbreak⟩, hcontinue⟩

/-- A loop does the same with two indices that catch the same of what its body may end by. -/
theorem loop_congr (hij : CatchAlike P i j) (hbefore : before.Within leavesOnly)
    (hbody : body.Within P) (hafter : after.Within leavesOnly) :
    Behaviour.loop i before body after = Behaviour.loop j before body after := by
  have hround : round i before body after = round j before body after := by
    have hcatch : body.fresh.catching (Ending.continues i)
        = body.fresh.catching (Ending.continues j) :=
      Behaviour.catching_congr fun v m e m' h => (hij.eq hbody.fresh h).2
    rw [round, round, hcatch]
  have hends : ∀ m e m', round i before body after .void m e m' → e.breaks i = e.breaks j := by
    intro m e m' h
    have hwithin := within_round (i := i) hbefore hbody hafter h
    cases e with
    | leave t =>
      rcases Bool.or_eq_true_iff.mp (hwithin rfl) with honly | hrest
      · rw [of_decide_eq_true honly]
        rfl
      · exact (hij _ rfl (Bool.and_eq_true_iff.mp hrest).1).1
    | _ => rfl
  funext v m e m'
  refine propext ⟨fun h => ?_, fun h => ?_⟩
  · change Behaviour.Rounds _ (round i before body after) m e m' at h
    show Behaviour.Rounds _ (round j before body after) m e m'
    rw [← hround]
    exact h.congr hends
  · change Behaviour.Rounds _ (round j before body after) m e m' at h
    show Behaviour.Rounds _ (round i before body after) m e m'
    rw [← hround] at h
    exact h.congr fun m e m' ha => (hends m e m' ha).symm

end loops

section source

variable (c : Setting)

theorem within_code (P : Ending → Bool) (fs : List Form) : (c.code fs).Within P := by
  rintro v m e m' ⟨o, -, rfl⟩ he
  cases o <;> cases he

theorem within_perform (P : Ending → Bool) (e : Expr) : (c.perform e).Within P := by
  unfold Setting.perform
  cases codeOf c.env false e with
  | none => exact Behaviour.within_skip
  | some f => exact within_code c P [f]

theorem within_test (cond : Expr) : (c.test cond).Within leavesOnly := by
  unfold Setting.test
  split
  · exact Behaviour.within_skip
  · cases codeOf c.env true cond with
    | none => exact Behaviour.within_ends fun h => by cases h
    | some f =>
      exact .choose (within_code c _ [f]) (Behaviour.within_ends fun h => by cases h)
        (Behaviour.within_ends fun _ => rfl)

theorem within_effects (P : Ending → Bool) (l : List Expr) : (c.effects l).Within P :=
  within_code c P _

theorem within_return (P : Ending → Bool) (value : Expr) : (c.return_ value).Within P := by
  unfold Setting.return_
  cases codeOf c.env true value with
  | none => exact Behaviour.within_ends fun h => by cases h
  | some f =>
    rintro v m e m' (⟨u, -, rfl⟩ | ⟨hcode, -⟩) he
    · cases he
    · exact within_code c P [f] hcode he

/-- The bodies of arms end within `P`. -/
def ArmsWithin (P : Ending → Bool) (arms : List (Arm Behaviour)) : Prop :=
  ∀ x ∈ arms, ∀ a, x.body = some a → a.Within P

theorem mem_of_matching {β : Type} {kw : Keyword} {key : UInt64} {arms chosen : List (Arm β)}
    (h : Arm.matching kw key arms = .ok (some chosen)) : ∀ x ∈ chosen, x ∈ arms := by
  induction arms with
  | nil => cases h
  | cons arm rest ih =>
    unfold Arm.matching at h
    cases harm : arm.value with
    | none =>
      rw [harm] at h
      exact fun x hx => List.mem_cons_of_mem _ (ih h x hx)
    | some w =>
      rw [harm] at h
      simp only [bind, Except.bind] at h
      cases hv : Value.ofConstant kw w with
      | error t =>
        rw [hv] at h
        cases h
      | ok v =>
        rw [hv] at h
        simp only at h
        split at h
        · cases h
          exact fun x hx => hx
        · exact fun x hx => List.mem_cons_of_mem _ (ih h x hx)

/-- What a switch selects is the body of an arm. -/
theorem exists_of_select {β : Type} {kw : Keyword} {key : UInt64} {arms : List (Arm β)} {a : β}
    (h : Arm.select kw key arms = .ok (some a)) : ∃ x ∈ arms, x.body = some a := by
  unfold Arm.select at h
  cases hm : Arm.matching kw key arms with
  | error t =>
    rw [hm] at h
    cases h
  | ok chosen =>
    rw [hm] at h
    obtain ⟨x, hx, hbody⟩ := List.exists_of_findSome?_eq_some (Except.ok.inj h)
    refine ⟨x, ?_, hbody⟩
    cases chosen with
    | none => exact (List.dropWhile_sublist _).subset hx
    | some l => exact mem_of_matching hm x hx

theorem ArmsWithin.append {P : Ending → Bool} {l l' : List (Arm Behaviour)} (h : ArmsWithin P l)
    (h' : ArmsWithin P l') : ArmsWithin P (l ++ l') :=
  fun x hx => (List.mem_append.mp hx).elim (h x) (h' x)

/-- The arms of an arm have its body, or none. -/
theorem armsWithin_armsOf {P : Ending → Bool} {isDefault : Bool} {values : List Bytes}
    {body : Option Behaviour} (h : ∀ a, body = some a → a.Within P) :
    ArmsWithin P (armsOf isDefault values body) := by
  have hempty : ∀ vs : List Bytes, ArmsWithin P (vs.map fun v => ⟨some v, none⟩) := by
    intro vs x hx a ha
    obtain ⟨v, -, rfl⟩ := List.mem_map.mp hx
    cases ha
  have hlast : ∀ v, ArmsWithin P [⟨v, body⟩] := by
    intro v x hx
    rw [List.mem_singleton.mp hx]
    exact h
  unfold armsOf
  cases isDefault with
  | true => exact (hempty _).append (hlast _)
  | false => exact (hempty _).append (hlast _)

/-- The endings of a switch before it catches any. -/
theorem within_chosen {P : Ending → Bool} {kw : Keyword} {f : Form} {arms : List (Arm Behaviour)}
    (h : ArmsWithin P arms) :
    Behaviour.Within P fun _ m e m' =>
      (∃ v m₁, c.code [f] .void m (.done v) m₁ ∧ Behaviour.selected kw v arms .void m₁ e m')
        ∨ c.code [f] .void m e m' ∧ e.isDone = false := by
  rintro v m e m' (⟨u, m₁, -, hselected⟩ | ⟨hcode, -⟩) he
  · unfold Behaviour.selected at hselected
    split at hselected
    · rw [hselected.1] at he
      cases he
    · rw [hselected.1] at he
      cases he
    · rename_i a hselect
      obtain ⟨x, hx, hbody⟩ := exists_of_select hselect
      exact (Bool.and_eq_true_iff.mp ((h x hx a hbody).fresh.catching hselected he)).1
  · exact within_code c P [f] hcode he

mutual

/-- By the indices of the source, a statement ends by the breaks and continues that escape it. -/
theorem within_stmt : ∀ s, (behave c.unnumbered s).Within (escapes · s)
  | .missing => Behaviour.within_skip
  | .block _ rows => within_blockRows rows
  | .expr _ e => within_perform _ _ e
  | .ite _ cond yes no => by
    have hyes := (within_stmt yes).mono (Q := fun e => escapes e yes || escapes e no)
      fun e he => by rw [he, Bool.true_or]
    have hno := (within_stmt no).mono (Q := fun e => escapes e yes || escapes e no)
      fun e he => by rw [he, Bool.or_true]
    unfold behave
    cases codeOf c.unnumbered.env true cond with
    | some f =>
      refine .choose (within_code _ _ [f]) hyes ?_
      split
      · exact Behaviour.within_ends fun h => by cases h
      · exact hno
    | none =>
      simp only
      split
      · exact Behaviour.within_ends fun h => by cases h
      · exact .choose hyes hno (Behaviour.within_ends fun h => by cases h)
  | .forLoop m own init cond post body => by
    unfold behave
    rw [Setting.indexOf_unnumbered]
    refine .seq ((within_rows init).mono fun e he => ?_)
      ((within_loop (within_test _ cond) (within_stmt body) (within_effects _ _ _)).mono
        fun e he => ?_)
    · rw [escapes, he, Bool.true_or]
    · rw [escapes, he, Bool.or_true]
  | .whileLoop m testLast own cond body => by
    unfold behave
    rw [Setting.indexOf_unnumbered]
    cases testLast with
    | true => exact within_loop Behaviour.within_skip (within_stmt body) (within_test _ cond)
    | false => exact within_loop (within_test _ cond) (within_stmt body) Behaviour.within_skip
  | .labelGroup _ rows => by
    unfold behave
    split
    · exact Behaviour.within_skip
    · exact fun _ _ _ _ h he => Behaviour.within_sections (within_labelRows rows) h he
  | .goto _ label => Behaviour.within_ends fun h => by cases h
  | .branch _ isContinue target => Behaviour.within_ends fun _ => decide_eq_true rfl
  | .ret _ value => within_return _ _ value
  | .switch m own key arms => by
    have harms : ArmsWithin (caseRowsEscape · arms)
        (behaveCaseRows c.unnumbered false arms ++ behaveCaseRows c.unnumbered true arms) :=
      (within_caseRows false arms).append (within_caseRows true arms)
    unfold behave
    simp only
    cases codeOf c.unnumbered.env true key with
    | some f =>
      rw [Setting.indexOf_unnumbered]
      exact (within_chosen _ harms).catching
    | none => exact Behaviour.within_ends fun h => by cases h
  | .varDecl _ vars => within_code _ _ _
  | .bare _ kind => within_code _ _ _

theorem within_blockRows : ∀ rows, (behaveBlock c.unnumbered rows).Within (rowsEscape · rows)
  | none => Behaviour.within_skip
  | some l => within_items l

theorem within_items : ∀ l, (behaveItems c.unnumbered l).Within (anyEscapes · l)
  | [] => Behaviour.within_skip
  | s :: rest => by
    have hs := (within_stmt s).mono (Q := (anyEscapes · (s :: rest)))
      fun e he => by rw [anyEscapes, he, Bool.true_or]
    have hrest := (within_all rest).mono (Q := (anyEscapes · (s :: rest)))
      fun e he => by rw [anyEscapes, he, Bool.or_true]
    unfold behaveItems
    split
    · exact hs
    · exact (hs.seq hrest).fresh

theorem within_rows : ∀ rows, (behaveRows c.unnumbered rows).Within (rowsEscape · rows)
  | none => Behaviour.within_skip
  | some l => within_all l

theorem within_all : ∀ l, (behaveAll c.unnumbered l).Within (anyEscapes · l)
  | [] => Behaviour.within_skip
  | s :: rest => by
    refine .seq ((within_stmt s).mono fun e he => ?_) ((within_all rest).mono fun e he => ?_)
    · rw [anyEscapes, he, Bool.true_or]
    · rw [anyEscapes, he, Bool.or_true]

theorem within_labelRows :
    ∀ rows, ∀ p ∈ behaveLabelRows c.unnumbered rows, p.2.Within (labelRowsEscape · rows)
  | none => List.forall_mem_nil _
  | some l => within_labels l

theorem within_labels :
    ∀ l, ∀ p ∈ behaveLabels c.unnumbered l, p.2.Within (labelsEscape · l)
  | [] => List.forall_mem_nil _
  | .mk name body :: rest => by
    intro p hp
    rcases List.mem_cons.mp hp with rfl | hp
    · exact (within_rows body).mono fun e he => by rw [labelsEscape, he, Bool.true_or]
    · exact (within_labels rest p hp).mono fun e he => by rw [labelsEscape, he, Bool.or_true]

theorem within_caseRows (wanted : Bool) :
    ∀ rows, ArmsWithin (caseRowsEscape · rows) (behaveCaseRows c.unnumbered wanted rows)
  | none => List.forall_mem_nil _
  | some l => within_cases wanted l

theorem within_cases (wanted : Bool) :
    ∀ l, ArmsWithin (casesEscape · l) (behaveCases c.unnumbered wanted l)
  | [] => List.forall_mem_nil _
  | .mk values isDefault body :: rest => by
    have hrest : ArmsWithin (casesEscape · (.mk values isDefault body :: rest))
        (behaveCases c.unnumbered wanted rest) := fun x hx a ha =>
      (within_cases wanted rest x hx a ha).mono fun e he => by rw [casesEscape, he, Bool.or_true]
    have hbody : ∀ a,
        (if anyCode c.unnumbered.env body then some (behaveRows c.unnumbered body) else none)
          = some a → a.Within (casesEscape · (.mk values isDefault body :: rest)) := by
      intro a ha
      split at ha
      · cases ha
        exact (within_rows body).mono fun e he => by rw [casesEscape, he, Bool.true_or]
      · cases ha
    unfold behaveCases
    split
    · exact (armsWithin_armsOf hbody).append hrest
    · exact hrest

end

/-- The number that a loop or switch is given catches what its own index catches: no break or
continue that leaves a loop or switch without an index names just its number. -/
def ClearAt : Node → Prop
  | .stmt (.forLoop m own _ _ _ body) | .stmt (.whileLoop m _ own _ body) =>
    CatchAlike (escapes · body) (c.indexOf m own) own
  | .stmt (.switch m own _ arms) =>
    ∀ e, e.isBranch = true → caseRowsEscape e arms = true →
      e.breaks (c.indexOf m own) = e.breaks own
  | _ => True

/-- No number of a loop or switch inside is taken for the index of another one. -/
def Setting.Clear (s : Stmt) : Prop := Stmt.Each (ClearAt c) s

mutual

/-- A statement does the same by the indices of the source alone. -/
theorem behave_unnumbered : ∀ s, c.Clear s → behave c s = behave c.unnumbered s
  | .missing, _ => rfl
  | .block _ rows, h => blockRows_unnumbered rows (Stmt.each_block.mp h).2
  | .expr _ e, _ => rfl
  | .ite _ cond yes no, h => by
    obtain ⟨-, -, hyes, hno⟩ := Stmt.each_ite.mp h
    unfold behave
    rw [behave_unnumbered yes hyes, behave_unnumbered no hno]
    rfl
  | .forLoop m own init cond post body, h => by
    obtain ⟨hclear, hinit, -, hbody, -⟩ := Stmt.each_forLoop.mp h
    unfold behave
    rw [rows_unnumbered init hinit, behave_unnumbered body hbody, Setting.indexOf_unnumbered,
      loop_congr hclear (within_test c cond) (within_stmt c body) (within_effects c _ _)]
    rfl
  | .whileLoop m testLast own cond body, h => by
    obtain ⟨hclear, -, hbody⟩ := Stmt.each_whileLoop.mp h
    unfold behave
    rw [behave_unnumbered body hbody, Setting.indexOf_unnumbered,
      loop_congr hclear Behaviour.within_skip (within_stmt c body) (within_test c cond),
      loop_congr hclear (within_test c cond) (within_stmt c body) Behaviour.within_skip]
    rfl
  | .labelGroup _ rows, h => by
    unfold behave
    rw [labelRows_unnumbered rows (Stmt.each_labelGroup.mp h).2]
  | .goto _ label, _ => rfl
  | .branch _ isContinue target, _ => rfl
  | .ret _ value, _ => rfl
  | .switch m own key arms, h => by
    obtain ⟨hclear, -, hcases⟩ := Stmt.each_switch.mp h
    have harms : ArmsWithin (caseRowsEscape · arms)
        (behaveCaseRows c.unnumbered false arms ++ behaveCaseRows c.unnumbered true arms) :=
      (within_caseRows c false arms).append (within_caseRows c true arms)
    unfold behave
    rw [caseRows_unnumbered false arms hcases, caseRows_unnumbered true arms hcases,
      Setting.indexOf_unnumbered]
    have henv : c.unnumbered.env = c.env := rfl
    simp only [henv]
    cases codeOf c.env true key with
    | none => rfl
    | some f =>
      refine Behaviour.catching_congr fun v x e x' hrun => ?_
      cases e with
      | leave t | again t => exact hclear _ rfl (@within_chosen c _ _ f _ harms v x _ x' hrun rfl)
      | _ => rfl
  | .varDecl _ vars, _ => rfl
  | .bare _ kind, _ => rfl

theorem blockRows_unnumbered :
    ∀ rows, Stmt.EachRow (ClearAt c) rows → behaveBlock c rows = behaveBlock c.unnumbered rows
  | none, _ => rfl
  | some l, h => items_unnumbered l h

theorem items_unnumbered :
    ∀ l, Stmt.EachOf (ClearAt c) l → behaveItems c l = behaveItems c.unnumbered l
  | [], _ => rfl
  | s :: rest, h => by
    obtain ⟨hs, hrest⟩ := Stmt.eachOf_cons.mp h
    unfold behaveItems
    rw [behave_unnumbered s hs, all_unnumbered rest hrest]

theorem rows_unnumbered :
    ∀ rows, Stmt.EachRow (ClearAt c) rows → behaveRows c rows = behaveRows c.unnumbered rows
  | none, _ => rfl
  | some l, h => all_unnumbered l h

theorem all_unnumbered :
    ∀ l, Stmt.EachOf (ClearAt c) l → behaveAll c l = behaveAll c.unnumbered l
  | [], _ => rfl
  | s :: rest, h => by
    obtain ⟨hs, hrest⟩ := Stmt.eachOf_cons.mp h
    unfold behaveAll
    rw [behave_unnumbered s hs, all_unnumbered rest hrest]

theorem labelRows_unnumbered :
    ∀ rows, Label.EachRow (ClearAt c) rows →
      behaveLabelRows c rows = behaveLabelRows c.unnumbered rows
  | none, _ => rfl
  | some l, h => labels_unnumbered l h

theorem labels_unnumbered :
    ∀ l, Label.EachOf (ClearAt c) l → behaveLabels c l = behaveLabels c.unnumbered l
  | [], _ => rfl
  | .mk name body :: rest, h => by
    obtain ⟨hbody, hrest⟩ := Stmt.eachLabel_cons.mp h
    unfold behaveLabels
    rw [rows_unnumbered body hbody, labels_unnumbered rest hrest]

theorem caseRows_unnumbered (wanted : Bool) :
    ∀ rows, Case.EachRow (ClearAt c) rows →
      behaveCaseRows c wanted rows = behaveCaseRows c.unnumbered wanted rows
  | none, _ => rfl
  | some l, h => cases_unnumbered wanted l h

theorem cases_unnumbered (wanted : Bool) :
    ∀ l, Case.EachOf (ClearAt c) l →
      behaveCases c wanted l = behaveCases c.unnumbered wanted l
  | [], _ => rfl
  | .mk values isDefault body :: rest, h => by
    obtain ⟨-, hbody, hrest⟩ := Stmt.eachCase_cons.mp h
    unfold behaveCases
    rw [rows_unnumbered body hbody, cases_unnumbered wanted rest hrest]
    rfl

end

mutual

/-- The directives of a statement do the same by the indices of the source alone. -/
theorem parts_unnumbered : ∀ s, c.Clear s → parts c s = parts c.unnumbered s
  | .missing, _ => rfl
  | .block _ rows, h => blockParts_unnumbered rows (Stmt.each_block.mp h).2
  | .expr _ e, _ => rfl
  | .forLoop m own init cond post body, h => by
    obtain ⟨hclear, hinit, -, hbody, -⟩ := Stmt.each_forLoop.mp h
    unfold parts
    rw [rowsParts_unnumbered init hinit, behave_unnumbered c body hbody, Setting.indexOf_unnumbered,
      loop_congr hclear (within_test c cond) (within_stmt c body) (within_effects c _ _)]
    rfl
  | .labelGroup _ rows, h => by
    unfold parts
    rw [labelRows_unnumbered c rows (Stmt.each_labelGroup.mp h).2]
  | .varDecl _ vars, _ => rfl
  | .ite .., h | .whileLoop .., h | .goto .., h | .branch .., h | .ret .., h | .switch .., h
  | .bare .., h => congrArg (fun b => [b]) (behave_unnumbered c _ h)

theorem blockParts_unnumbered :
    ∀ rows, Stmt.EachRow (ClearAt c) rows → blockParts c rows = blockParts c.unnumbered rows
  | none, _ => rfl
  | some l, h => itemParts_unnumbered l h

theorem itemParts_unnumbered :
    ∀ l, Stmt.EachOf (ClearAt c) l → itemParts c l = itemParts c.unnumbered l
  | [], _ => rfl
  | s :: rest, h => by
    unfold itemParts
    rw [parts_unnumbered s (Stmt.eachOf_cons.mp h).1, items_unnumbered c (s :: rest) h]

theorem rowsParts_unnumbered :
    ∀ rows, Stmt.EachRow (ClearAt c) rows → rowsParts c rows = rowsParts c.unnumbered rows
  | none, _ => rfl
  | some l, h => allParts_unnumbered l h

theorem allParts_unnumbered :
    ∀ l, Stmt.EachOf (ClearAt c) l → allParts c l = allParts c.unnumbered l
  | [], _ => rfl
  | s :: rest, h => by
    obtain ⟨hs, hrest⟩ := Stmt.eachOf_cons.mp h
    unfold allParts
    rw [parts_unnumbered s hs, allParts_unnumbered rest hrest]

end

/-- The directives of a body do the same by the indices of the source alone. -/
theorem rootParts_unnumbered {s : Stmt} (h : c.Clear s) :
    rootParts c s = rootParts c.unnumbered s := by
  cases s with
  | block m rows => exact rowsParts_unnumbered c rows (Stmt.each_block.mp h).2
  | _ => exact parts_unnumbered c _ h

end source

end WastForge.Control
