import Mathlib
import WastForge.Proofs.Branch.Source
import WastForge.Proofs.Program.Each
import WastForge.Proofs.Program.Mapping

/-!
# What expansion keeps

Expanding support calls replaces expressions by other ones and leaves all statements where they
are. The jumps of a body stay the same, and the only instructions that expressions name afterwards
are those of the support library.
-/

namespace WastForge

namespace Support

variable {α β : Type}

/-- What the expansion comes to has the property, if the expansion does not fail. -/
def Gives (P : α → Prop) (act : ExpandM α) : Prop := ∀ u a u', act u = .ok (a, u') → P a

variable {P Q : α → Prop} {R : β → Prop}

theorem gives_pure {a : α} (ha : P a) : Gives P (pure a) := by
  intro u b u' h
  cases h
  exact ha

theorem gives_problem (code : Code) (span : Span) (message : Bytes) :
    Gives P (problem code span message) := by
  intro u b u' h
  cases h

theorem gives_absent : Gives P (absent : ExpandM α) := by
  intro u b u' h
  cases h

/-- Work that goes through goes through step by step. -/
theorem bind_ok {act : ExpandM α} {next : α → ExpandM β} {u u' : SupportUse} {b : β}
    (h : (act >>= next) u = .ok (b, u')) :
    ∃ a u₁, act u = .ok (a, u₁) ∧ next a u₁ = .ok (b, u') := by
  have hrun : (act u >>= fun x => next x.1 x.2) = .ok (b, u') := h
  cases hfirst : act u with
  | error e =>
    rw [hfirst] at hrun
    cases hrun
  | ok x =>
    rw [hfirst] at hrun
    exact ⟨x.1, x.2, rfl, hrun⟩

theorem gives_bind {act : ExpandM α} {next : α → ExpandM β} (hact : Gives P act)
    (hnext : ∀ a, P a → Gives R (next a)) : Gives R (act >>= next) := by
  intro u b u' h
  obtain ⟨a, u₁, hfirst, hrun⟩ := bind_ok h
  exact hnext a (hact _ _ _ hfirst) _ _ _ hrun

theorem gives_any (act : ExpandM α) : Gives (fun _ => True) act := fun _ _ _ _ => trivial

theorem gives_ite {c : Prop} [Decidable c] {act act' : ExpandM α} (h : c → Gives P act)
    (h' : ¬c → Gives P act') : Gives P (if c then act else act') := by
  split
  · exact h ‹_›
  · exact h' ‹_›

theorem gives_mapM {S : α → β → Prop} {f : α → ExpandM β} (hf : ∀ a, Gives (S a) (f a)) :
    ∀ l : List α, Gives (List.Forall₂ S l) (l.mapM f)
  | [] => by
    rw [List.mapM_nil]
    exact gives_pure .nil
  | a :: rest => by
    rw [List.mapM_cons]
    refine gives_bind (hf a) fun b hb => ?_
    refine gives_bind (gives_mapM hf rest) fun bs hbs => ?_
    exact gives_pure (.cons hb hbs)

end Support

variable {Q : Bytes → Prop}

namespace Expr

theorem isMissing_hollow (e : Expr) : e.hollow.isMissing = e.isMissing := by
  cases e with
  | arrayInit a elem size elements hasInit => cases hasInit <;> rfl
  | _ => rfl

theorem names_hollow (e : Expr) :
    (Node.expr e.hollow).Names Q ↔ (Node.expr e).Names Q := by
  cases e with
  | arrayInit a elem size elements hasInit => cases hasInit <;> rfl
  | _ => rfl

/-- An expression that may take the place of another one: it is there if the other one is, and it
names no other sort of instruction. -/
structure Becomes (Q : Bytes → Prop) (e e' : Expr) : Prop where
  missing : e'.isMissing = e.isMissing
  names : Each (Node.Names Q) e → Each (Node.Names Q) e'

theorem Becomes.refl (e : Expr) : Becomes Q e e := ⟨rfl, id⟩

end Expr

namespace Stmt

/-- A statement with the same jumps as another one, that also ends as that does. -/
structure Alike (s s' : Stmt) : Prop where
  jumps : ∀ around, s'.jumps around = s.jumps around
  terminal : s'.isTerminal = s.isTerminal

/-- The same for the statements of a list that may be left out. -/
structure RowAlike (rows rows' : Option (List Stmt)) : Prop where
  jumps : ∀ around, jumpsRows around rows' = jumpsRows around rows
  terminal : rowsTerminal rows' = rowsTerminal rows

/-- The same for the statements of a list. -/
structure AllAlike (l l' : List Stmt) : Prop where
  jumps : ∀ around, jumpsAll around l' = jumpsAll around l
  terminal : lastTerminal l' = lastTerminal l
  isEmpty : l'.isEmpty = l.isEmpty

/-- The same for labels. -/
structure LabelsAlike (l l' : List Label) : Prop where
  jumps : ∀ around, jumpsLabels around l' = jumpsLabels around l
  labels : l'.map Label.name = l.map Label.name

/-- The same for the labels of a group that may be left out. -/
structure LabelRowAlike (rows rows' : Option (List Label)) : Prop where
  jumps : ∀ around, jumpsLabelRows around rows' = jumpsLabelRows around rows
  labels : (Rows.items rows').map Label.name = (Rows.items rows).map Label.name

/-- A statement that another one becomes when its expressions are mapped. -/
structure Becomes (Q : Bytes → Prop) (s s' : Stmt) : Prop extends Alike s s' where
  names : Each (Node.Names Q) s → Each (Node.Names Q) s'

theorem Alike.refl (s : Stmt) : Alike s s := ⟨fun _ => rfl, rfl⟩

theorem Becomes.refl (s : Stmt) : Becomes Q s s := ⟨.refl s, id⟩

theorem isEmpty_of_map_eq {α β : Type} {f : α → β} {l l' : List α} (h : l'.map f = l.map f) :
    l'.isEmpty = l.isEmpty := by
  rw [← List.isEmpty_map (f := f), h, List.isEmpty_map]

end Stmt

namespace Transform

open Support WastForge.Expr WastForge.Stmt

variable {f : Mapper ExpandM}

/-- A mapper that only puts expressions in the place of others that may become them. -/
def Keeps (Q : Bytes → Prop) (f : Mapper ExpandM) : Prop :=
  ∀ e, Gives (fun new => Expr.Becomes Q e (keep e new)) (f e)

/-- A mapper that leaves no place empty where an expression stands, and fills no empty place. -/
def Fills (f : Mapper ExpandM) : Prop :=
  ∀ e, Gives (fun new => (keep e new).isMissing = e.isMissing) (expr f e)

theorem Keeps.isMissing_image (hf : Keeps Q f) {u u' : SupportUse} {e e' : Expr}
    (h : Expr.Image f u e e' u') : e'.isMissing = e.isMissing := by
  cases h with
  | missing => rfl
  | node _ _ rest answer =>
    rw [← isMissing_hollow e, ← rest, isMissing_hollow]
    exact (hf _ _ _ _ answer).missing

theorem Keeps.names_images (hf : Keeps Q f) {u u' : SupportUse} {l l' : List Expr}
    (h : Expr.Images f u l l' u') (hl : ∀ e ∈ l, e.Each (Node.Names Q)) :
    ∀ e ∈ l', e.Each (Node.Names Q) := by
  refine h.each ?_ hl
  intro e shown new v v' rest here hbelow answer
  have hshown : (Node.expr shown).Names Q := by
    rw [← names_hollow, rest, names_hollow]
    exact here
  exact (hf _ _ _ _ answer).names (each_of_slots hshown hbelow)

theorem Keeps.fills (hf : Keeps Q f) : Fills f := by
  intro e u new u' h
  have hmaps := remakes_expr (f := f) e u
  rw [h] at hmaps
  obtain ⟨images, himages, hremade⟩ := hmaps
  obtain rfl : [keep e new] = images := hremade.slots
  cases himages with
  | cons first rest =>
    cases rest
    exact hf.isMissing_image first

mutual

theorem gives_stmt (hf : Fills f) : ∀ s, Gives (fun new => Alike s (keep s new)) (stmt f s)
  | .missing | .bare .. | .goto .. | .branch .. => gives_pure (.refl _)
  | .block m rows => by
    unfold stmt
    refine gives_bind (gives_stmtRows hf rows) fun rows' hrows => gives_pure ?_
    rw [keep_one]
    exact ⟨hrows.jumps, hrows.terminal⟩
  | .expr m e | .ret m e => by
    unfold stmt
    refine gives_bind (gives_any _) fun e' _ => gives_pure ?_
    rw [keep_one]
    exact ⟨fun _ => rfl, rfl⟩
  | .ite m c x y => by
    unfold stmt
    refine gives_bind (gives_any _) fun c' _ => ?_
    refine gives_bind (gives_stmt hf x) fun x' hx => ?_
    refine gives_bind (gives_stmt hf y) fun y' hy => gives_pure ?_
    rw [keep_three]
    refine ⟨fun around => ?_, rfl⟩
    rw [jumps, jumps, hx.jumps, hy.jumps]
  | .forLoop m index init cond post body => by
    unfold stmt
    refine gives_bind (gives_stmtRows hf init) fun init' hinit => ?_
    refine gives_bind (hf cond) fun cond' hcond => ?_
    refine gives_bind (gives_stmt hf body) fun body' hbody => ?_
    refine gives_bind (gives_any _) fun post' _ => ?_
    have hnew : Alike (.forLoop m index init cond post body)
        (.forLoop m index (keep init init') (keep cond cond') (keep post post')
          (keep body body')) := by
      refine ⟨fun around => ?_, rfl⟩
      simp only [jumps, exits, hinit.jumps, hbody.jumps, hcond]
    exact gives_ite (fun _ => gives_pure hnew) fun _ => gives_pure (.refl _)
  | .whileLoop m testLast index cond body => by
    unfold stmt
    refine gives_bind (hf cond) fun cond' hcond => ?_
    refine gives_bind (gives_stmt hf body) fun body' hbody => gives_pure ?_
    rw [keep_two]
    refine ⟨fun around => ?_, rfl⟩
    simp only [jumps, exits, hbody.jumps, hcond]
  | .labelGroup m rows => by
    unfold stmt
    refine gives_bind (gives_labelRows hf rows) fun rows' hrows => gives_pure ?_
    rw [keep_one]
    refine ⟨fun around => ?_, rfl⟩
    simp only [jumps, isEmpty_of_map_eq hrows.labels, hrows.labels, hrows.jumps]
  | .switch m index key cases => by
    unfold stmt
    refine gives_bind (gives_any _) fun key' _ => ?_
    refine gives_bind (gives_caseRows hf cases) fun cases' hcases => gives_pure ?_
    rw [keep_two]
    refine ⟨fun around => ?_, rfl⟩
    simp only [jumps, hcases]
  | .varDecl m vars => by
    unfold stmt
    cases vars with
    | none => exact gives_pure (.refl _)
    | some l =>
      refine gives_bind (gives_any _) fun l' _ => gives_pure ?_
      rw [keep_one]
      exact ⟨fun _ => rfl, rfl⟩

theorem gives_stmtRows (hf : Fills f) :
    ∀ rows, Gives (fun new => RowAlike rows (keep rows new)) (stmtRows f rows)
  | none => gives_pure ⟨fun _ => rfl, rfl⟩
  | some l => by
    unfold stmtRows
    refine gives_bind (gives_stmts hf l) fun l' hl => gives_pure ?_
    rw [keep_some]
    exact ⟨hl.jumps, hl.terminal⟩

theorem gives_stmts (hf : Fills f) :
    ∀ l, Gives (fun new => AllAlike l (keep l new)) (stmts f l)
  | [] => gives_pure ⟨fun _ => rfl, rfl, rfl⟩
  | s :: rest => by
    unfold stmts
    refine gives_bind (gives_stmt hf s) fun s' hs => ?_
    refine gives_bind (gives_stmts hf rest) fun rest' hrest => gives_pure ?_
    rw [keep_two]
    refine ⟨fun around => ?_, ?_, rfl⟩
    · rw [jumpsAll, jumpsAll, hs.jumps, hrest.jumps]
    · rw [lastTerminal, lastTerminal, hrest.isEmpty, hs.terminal, hrest.terminal]

theorem gives_labelRows (hf : Fills f) :
    ∀ rows, Gives (fun new => LabelRowAlike rows (keep rows new)) (labelRows f rows)
  | none => gives_pure ⟨fun _ => rfl, rfl⟩
  | some l => by
    unfold labelRows
    refine gives_bind (gives_labels hf l) fun l' hl => gives_pure ?_
    rw [keep_some]
    exact ⟨hl.jumps, hl.labels⟩

theorem gives_labels (hf : Fills f) :
    ∀ l, Gives (fun new => LabelsAlike l (keep l new)) (labels f l)
  | [] => gives_pure ⟨fun _ => rfl, rfl⟩
  | .mk name body :: rest => by
    unfold labels
    refine gives_bind (gives_stmtRows hf body) fun body' hbody => ?_
    refine gives_bind (gives_labels hf rest) fun rest' hrest => gives_pure ?_
    rw [keep_two, keep_one]
    refine ⟨fun around => ?_, ?_⟩
    · rw [jumpsLabels, jumpsLabels, hbody.jumps, hrest.jumps, hbody.terminal,
        isEmpty_of_map_eq hrest.labels]
    · rw [List.map_cons, List.map_cons, hrest.labels]
      rfl

theorem gives_caseRows (hf : Fills f) :
    ∀ rows, Gives (fun new => ∀ around wanted,
      jumpsCaseRows around wanted (keep rows new) = jumpsCaseRows around wanted rows)
      (caseRows f rows)
  | none => gives_pure fun _ _ => rfl
  | some l => by
    unfold caseRows
    refine gives_bind (gives_cases hf l) fun l' hl => gives_pure ?_
    rw [keep_some]
    exact hl

theorem gives_cases (hf : Fills f) :
    ∀ l, Gives (fun new => ∀ around wanted,
      jumpsCases around wanted (keep l new) = jumpsCases around wanted l) (cases f l)
  | [] => gives_pure fun _ _ => rfl
  | .mk values isDefault body :: rest => by
    unfold cases
    refine gives_bind (gives_any _) fun values' _ => ?_
    refine gives_bind (gives_stmtRows hf body) fun body' hbody => ?_
    refine gives_bind (gives_cases hf rest) fun rest' hrest => gives_pure ?_
    simp only [keep_two, keep_two (fun v b => Case.mk v isDefault b)]
    intro around wanted
    rw [jumpsCases, jumpsCases, hbody.jumps, hrest]

end

theorem gives_body (hf : Keeps Q f) (root : Stmt) :
    Gives (fun r => Stmt.Becomes Q root r.1) (body f root) := by
  intro u r u' h
  obtain ⟨-, himages, -⟩ := body_eq_ok h
  have halike : Gives (fun r => Alike root r.1) (body f root) :=
    gives_bind (gives_stmt hf.fills root) fun new hnew => gives_pure hnew
  have hstmts : ∀ s, (Node.stmt s).Names Q := fun _ => trivial
  refine ⟨halike u r u' h, fun hnames => (Stmt.each_iff hstmts).mpr ?_⟩
  exact hf.names_images himages ((Stmt.each_iff hstmts).mp hnames)

end Transform

end WastForge
