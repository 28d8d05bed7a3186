import Mathlib.Data.List.Nodup
import Mathlib.Data.List.Perm.Subperm
import WastForge.Proofs.Document.Declared
import WastForge.Proofs.Document.Gives
import WastForge.Proofs.Text.Path

/-!
# What documents give

Whatever document is accepted, the texts and lists of its program can be written again, and its
operators and kinds are the ones that their numbers mean.

A document numbers its files by their places in a list, a file set by the order in which paths are
first added, and two spellings of one path are one file. A position of a document is in the listed
file just when no path up to this one is listed twice.
-/

namespace WastForge

theorem BinaryOp.code_ofCode (c : UInt8) : (ofCode c).code = c := by
  unfold ofCode
  split <;> first | rfl | exact UInt8.toNat_inj.mp (Eq.symm ‹_›)

theorem UnaryOp.code_ofCode (c : UInt8) : (ofCode c).code = c := by
  unfold ofCode
  split <;> first | rfl | exact UInt8.toNat_inj.mp (Eq.symm ‹_›)

theorem LiteralKind.code_ofCode (c : UInt8) : (ofCode c).code = c := by
  unfold ofCode
  split <;> first | rfl | exact UInt8.toNat_inj.mp (Eq.symm ‹_›)

theorem Kind.code_ofCode (c : UInt8) : (ofCode c).code = c := by
  have hnamed : ∀ n < 14, (named[n]?).map (fun p => p.1.code.toNat) = some n := by decide +kernel
  unfold ofCode
  cases h : named[c.toNat]? with
  | none => rfl
  | some p =>
    have hn : c.toNat < 14 := (List.getElem?_eq_some_iff.mp h).1
    have hc := hnamed c.toNat hn
    rw [h] at hc
    exact UInt8.toNat_inj.mp (Option.some.inj hc)

end WastForge

namespace WastForge.Document

open Pack

/-- An expression that can be written, if all its nodes carry their contents. -/
abbrev FitExpr (e : Expr) : Prop := e.Throughout Expr.Fits

theorem fit_missing : FitExpr .missing :=
  .intro trivial fun _ hx => absurd hx List.not_mem_nil

theorem fit_bare (a : Annot) (kind : UInt8) : FitExpr (.bare a kind) :=
  .intro trivial fun _ hx => absurd hx List.not_mem_nil

theorem gives_ref {m : MemberRef} (h : m.Short) : Gives MemberRef.Short (updateRef m) :=
  gives_updateRecord
    (.cons (fun _ h => gives_text.map fun _ ht => ⟨ht, h.2⟩)
      (.cons (fun _ h => gives_text.map fun _ ht => ⟨h.1, ht⟩) kept_nil))
    ⟨limit_pos, limit_pos⟩ h

theorem gives_literal : Gives (fun l => LiteralKind.ofCode l.kind.code = l.kind ∧ Short l.string)
    readLiteral :=
  gives_updateRecord
    (.cons (fun _ h => gives_any.map fun c _ => ⟨by rw [LiteralKind.code_ofCode], h.2⟩)
      (.cons (fun _ h => gives_any.map fun _ _ => h)
        (.cons (fun _ h => gives_any.map fun _ _ => h)
          (.cons (fun _ h => gives_any.map fun _ _ => h)
            (.cons (fun _ h => gives_text.map fun _ ht => ⟨h.1, ht⟩) kept_nil)))))
    ⟨rfl, limit_pos⟩ ⟨rfl, limit_pos⟩

section Expressions

variable {expr : Update Expr} (he : ∀ old, FitExpr old → Gives FitExpr (expr old))

include he

theorem gives_exprs {old : Slots Expr} (h : old.All FitExpr) :
    Gives (Slots.All FitExpr) (updateSlots .missing expr old) :=
  gives_updateSlots fit_missing he h

/-- The contents of a node can be written if its parts can. -/
theorem gives_exprContents (kind : UInt8) (a : Annot) :
    Gives FitExpr (readExprContents expr kind a) := by
  have hlist {old : Slots Expr} (h : old.All FitExpr) := gives_exprs he h
  have hone {x : Expr} (h : FitExpr x) : ∀ y ∈ [x], FitExpr y := List.forall_mem_singleton.mpr h
  unfold readExprContents
  dsimp only
  split
  · -- literal
    exact gives_literal.map fun l hl => .intro hl fun _ hx => absurd hx List.not_mem_nil
  · -- variable
    exact gives_record (P := fun r : Bytes × Bool => Short r.1)
      (.cons (fun _ _ => gives_text.map fun _ ht => ht)
        (.cons (fun _ h => gives_any.map fun _ _ => h) kept_nil))
      limit_pos fun r h => gives_pure (.intro h fun _ hx => absurd hx List.not_mem_nil)
  · -- binary
    exact gives_record
      (P := fun r : BinaryOp × Expr × Expr =>
        BinaryOp.ofCode r.1.code = r.1 ∧ FitExpr r.2.1 ∧ FitExpr r.2.2)
      (.cons (fun _ h => gives_any.map fun c _ => ⟨by rw [BinaryOp.code_ofCode], h.2⟩)
        (.cons (fun _ h => (he _ h.2.1).map fun _ hx => ⟨h.1, hx, h.2.2⟩)
          (.cons (fun _ h => (he _ h.2.2).map fun _ hx => ⟨h.1, h.2.1, hx⟩) kept_nil)))
      ⟨rfl, fit_missing, fit_missing⟩ fun r h =>
        gives_pure (.intro h.1 (List.forall_mem_cons.mpr ⟨h.2.1, hone h.2.2⟩))
  · -- unary
    exact gives_record
      (P := fun r : UnaryOp × Expr => UnaryOp.ofCode r.1.code = r.1 ∧ FitExpr r.2)
      (.cons (fun _ h => gives_any.map fun c _ => ⟨by rw [UnaryOp.code_ofCode], h.2⟩)
        (.cons (fun _ h => (he _ h.2).map fun _ hx => ⟨h.1, hx⟩) kept_nil))
      ⟨rfl, fit_missing⟩ fun r h => gives_pure (.intro h.1 (hone h.2))
  · -- call
    exact gives_record
      (P := fun r : MemberRef × Option (List TypeId) × Bool × Expr × Slots Expr =>
        r.1.Short ∧ Short (Rows.items r.2.1) ∧ FitExpr r.2.2.2.1 ∧ r.2.2.2.2.All FitExpr)
      (.cons (fun _ h => (gives_ref h.1).map fun _ hm => ⟨hm, h.2⟩)
        (.cons (fun _ h => (gives_rows gives_any).map fun _ hl => ⟨h.1, hl.1, h.2.2⟩)
          (.cons (fun _ h => gives_any.map fun _ _ => h)
            (.cons (fun _ h => (he _ h.2.2.1).map fun _ hx => ⟨h.1, h.2.1, hx, h.2.2.2⟩)
              (.cons (fun _ h => (hlist h.2.2.2).map fun _ hl => ⟨h.1, h.2.1, h.2.2.1, hl⟩)
                kept_nil)))))
      ⟨⟨limit_pos, limit_pos⟩, limit_pos, fit_missing, Slots.all_empty⟩ fun r h =>
        gives_pure (.intro ⟨h.1, h.2.1, h.2.2.2.1⟩
          (List.forall_mem_cons.mpr ⟨h.2.2.1, h.2.2.2.items⟩))
  · -- field
    exact gives_record
      (P := fun r : MemberRef × Bool × Expr => r.1.Short ∧ FitExpr r.2.2)
      (.cons (fun _ h => (gives_ref h.1).map fun _ hm => ⟨hm, h.2⟩)
        (.cons (fun _ h => gives_any.map fun _ _ => h)
          (.cons (fun _ h => (he _ h.2).map fun _ hx => ⟨h.1, hx⟩) kept_nil)))
      ⟨⟨limit_pos, limit_pos⟩, fit_missing⟩ fun r h => gives_pure (.intro h.1 (hone h.2))
  · -- property
    exact gives_record
      (P := fun r : MemberRef × MemberRef × MemberRef × Bool × Expr =>
        r.1.Short ∧ r.2.1.Short ∧ r.2.2.1.Short ∧ FitExpr r.2.2.2.2)
      (.cons (fun _ h => (gives_ref h.1).map fun _ hm => ⟨hm, h.2⟩)
        (.cons (fun _ h => (gives_ref h.2.1).map fun _ hm => ⟨h.1, hm, h.2.2⟩)
          (.cons (fun _ h => (gives_ref h.2.2.1).map fun _ hm => ⟨h.1, h.2.1, hm, h.2.2.2⟩)
            (.cons (fun _ h => gives_any.map fun _ _ => h)
              (.cons (fun _ h => (he _ h.2.2.2).map fun _ hx => ⟨h.1, h.2.1, h.2.2.1, hx⟩)
                kept_nil)))))
      ⟨⟨limit_pos, limit_pos⟩, ⟨limit_pos, limit_pos⟩, ⟨limit_pos, limit_pos⟩, fit_missing⟩
      fun r h => gives_pure (.intro ⟨h.1, h.2.1, h.2.2.1⟩ (hone h.2.2.2))
  · -- cast
    exact gives_record (P := FitExpr) (.cons he kept_nil) fit_missing fun x h =>
      gives_pure (.intro trivial (hone h))
  · -- reference
    exact gives_record (P := FitExpr) (.cons he kept_nil) fit_missing fun x h =>
      gives_pure (.intro trivial (hone h))
  · -- comma
    exact gives_record (P := Slots.All FitExpr) (.cons (fun _ h => hlist h) kept_nil)
      Slots.all_empty fun l h => gives_pure (.intro h.1 h.items)
  · -- conditional
    exact gives_record
      (P := fun r : Expr × Expr × Expr => FitExpr r.1 ∧ FitExpr r.2.1 ∧ FitExpr r.2.2)
      (.cons (fun _ h => (he _ h.1).map fun _ hx => ⟨hx, h.2⟩)
        (.cons (fun _ h => (he _ h.2.1).map fun _ hx => ⟨h.1, hx, h.2.2⟩)
          (.cons (fun _ h => (he _ h.2.2).map fun _ hx => ⟨h.1, h.2.1, hx⟩) kept_nil)))
      ⟨fit_missing, fit_missing, fit_missing⟩ fun r h =>
        gives_pure (.intro trivial
          (List.forall_mem_cons.mpr ⟨h.1, List.forall_mem_cons.mpr ⟨h.2.1, hone h.2.2⟩⟩))
  · -- arrayInit
    exact gives_record
      (P := fun r : TypeId × Expr × Slots Expr × Bool => FitExpr r.2.1 ∧ r.2.2.1.All FitExpr)
      (.cons (fun _ h => gives_any.map fun _ _ => h)
        (.cons (fun _ h => (he _ h.1).map fun _ hx => ⟨hx, h.2⟩)
          (.cons (fun _ h => (hlist h.2).map fun _ hl => ⟨h.1, hl⟩)
            (.cons (fun _ h => gives_any.map fun _ _ => h) kept_nil))))
      ⟨fit_missing, Slots.all_empty⟩ fun r h =>
        gives_pure (.intro h.2.1 (List.forall_mem_cons.mpr ⟨h.1, h.2.items⟩))
  iterate 2 -- memory
    exact gives_record
      (P := fun r : TypeId × Bool × Expr × Expr => FitExpr r.2.2.1 ∧ FitExpr r.2.2.2)
      (.cons (fun _ h => gives_any.map fun _ _ => h)
        (.cons (fun _ h => gives_any.map fun _ _ => h)
          (.cons (fun _ h => (he _ h.1).map fun _ hx => ⟨hx, h.2⟩)
            (.cons (fun _ h => (he _ h.2).map fun _ hx => ⟨h.1, hx⟩) kept_nil))))
      ⟨fit_missing, fit_missing⟩ fun r h =>
        gives_pure (.intro trivial (List.forall_mem_cons.mpr ⟨h.1, hone h.2⟩))
  · -- stringLength
    exact gives_record (P := FitExpr) (.cons he kept_nil) fit_missing fun x h =>
      gives_pure (.intro trivial (hone h))
  iterate 2 -- intrinsic, invoke
    exact gives_record
      (P := fun r : Bytes × Slots Expr => Short r.1 ∧ r.2.All FitExpr)
      (.cons (fun _ h => gives_text.map fun _ ht => ⟨ht, h.2⟩)
        (.cons (fun _ h => (hlist h.2).map fun _ hl => ⟨h.1, hl⟩) kept_nil))
      ⟨limit_pos, Slots.all_empty⟩ fun r h =>
        gives_pure (.intro ⟨h.1, h.2.1⟩ h.2.items)
  iterate 2 -- assertion
    exact gives_record
      (P := fun r : Expr × Bytes × Slots Expr =>
        FitExpr r.1 ∧ Short r.2.1 ∧ r.2.2.All FitExpr)
      (.cons (fun _ h => (he _ h.1).map fun _ hx => ⟨hx, h.2⟩)
        (.cons (fun _ h => gives_text.map fun _ ht => ⟨h.1, ht, h.2.2⟩)
          (.cons (fun _ h => (hlist h.2.2).map fun _ hl => ⟨h.1, h.2.1, hl⟩) kept_nil)))
      ⟨fit_missing, limit_pos, Slots.all_empty⟩ fun r h =>
        gives_pure (.intro ⟨h.2.1, h.2.2.1⟩ (List.forall_mem_cons.mpr ⟨h.1, h.2.2.items⟩))
  · -- assertHeap
    exact gives_record (P := fun r : Int64 × Int64 × Bytes × Bool => Short r.2.2.1)
      (.cons (fun _ h => gives_any.map fun _ _ => h)
        (.cons (fun _ h => gives_any.map fun _ _ => h)
          (.cons (fun _ _ => gives_text.map fun _ ht => ht)
            (.cons (fun _ h => gives_any.map fun _ _ => h) kept_nil))))
      limit_pos fun r h => gives_pure (.intro h fun _ hx => absurd hx List.not_mem_nil)
  · -- harnessCall
    exact gives_record (P := fun r : HarnessOp × Slots Expr => r.2.All FitExpr)
      (.cons (fun _ h => gives_any.map fun _ _ => h)
        (.cons (fun _ h => (hlist h).map fun _ hl => hl) kept_nil))
      Slots.all_empty fun r h => gives_pure (.intro h.1 h.items)
  · exact gives_throw _

end Expressions

/-- An expression can be written whatever bytes it is read from, if the one that it is read over
can. -/
theorem gives_expr (depth : Nat) (old : Expr) (h : FitExpr old) :
    Gives FitExpr (updateExpr depth old) := by
  induction depth generalizing old with
  | zero => exact gives_throw _
  | succ depth ih =>
    refine gives_any.bind fun start _ => ?_
    cases start with
    | none =>
      refine gives_pure ?_
      cases old with
      | missing => exact h
      | _ => exact fit_bare _ _
    | some start => exact gives_exprContents ih start.1 _

/-- A statement that can be written, if all its nodes carry their contents. -/
abbrev FitStmt (s : Stmt) : Prop := s.Throughout Expr.Fits Stmt.Fits

theorem fit_missing_stmt : FitStmt .missing :=
  .intro trivial (fun _ hx => absurd hx List.not_mem_nil) fun _ ht => absurd ht List.not_mem_nil

theorem fit_bare_stmt (m : Mark) (kind : UInt8) : FitStmt (.bare m kind) :=
  .intro trivial (fun _ hx => absurd hx List.not_mem_nil) fun _ ht => absurd ht List.not_mem_nil

theorem items_map {α β : Type} (f : α → β) (rows : Option (List α)) :
    Rows.items (rows.map fun l => l.map f) = (Rows.items rows).map f := by
  cases rows <;> rfl

theorem items_filterMap {α β : Type} (f : α → Option β) (rows : Option (List α)) :
    Rows.items (rows.map fun l => l.filterMap f) = (Rows.items rows).filterMap f := by
  cases rows <;> rfl

/-- What is made of the elements that are there has what follows from their property. -/
theorem forall_mem_filterMap_map {α β : Type} {P : α → Prop} {Q : β → Prop} {f : α → β}
    {l : List (Option α)} (hl : ∀ place ∈ l, ∀ a ∈ place, P a) (hf : ∀ a, P a → Q (f a)) :
    ∀ b ∈ l.filterMap fun place => place.map f, Q b := by
  intro b hb
  obtain ⟨place, hplace, hb⟩ := List.mem_filterMap.mp hb
  obtain ⟨a, rfl, rfl⟩ := Option.map_eq_some_iff.mp hb
  exact hf a (hl _ hplace a rfl)

section Statements

variable {expr : Update Expr} {stmt : Update Stmt}
  (he : ∀ old, FitExpr old → Gives FitExpr (expr old))
  (hs : ∀ old, FitStmt old → Gives FitStmt (stmt old))

include hs in
theorem gives_stmts {old : Slots Stmt} (h : old.All FitStmt) :
    Gives (Slots.All FitStmt) (updateSlots .missing stmt old) :=
  gives_updateSlots fit_missing_stmt hs h

/-- The name of a label and its statements can be written. -/
def LabelDraft.Fits (d : LabelDraft) : Prop := Short d.name ∧ d.body.All FitStmt

include hs in
theorem gives_label (old : LabelDraft) (h : old.Fits) :
    Gives LabelDraft.Fits (updateLabel stmt old) :=
  gives_updateRecord
    (.cons (fun _ h => gives_text.map fun _ ht => ⟨ht, h.2⟩)
      (.cons (fun _ h => (gives_stmts hs h.2).map fun _ hl => ⟨h.1, hl⟩) kept_nil))
    ⟨limit_pos, Slots.all_empty⟩ h

/-- The values of an arm and its statements can be written. -/
def CaseDraft.Fits (d : CaseDraft) : Prop := d.values.All FitExpr ∧ d.body.All FitStmt

include he hs in
theorem gives_case (old : CaseDraft) (h : old.Fits) :
    Gives CaseDraft.Fits (updateCase expr stmt old) :=
  gives_updateRecord
    (.cons (fun _ h => (gives_exprs he h.1).map fun _ hl => ⟨hl, h.2⟩)
      (.cons (fun _ h => gives_any.map fun _ _ => h)
        (.cons (fun _ h => (gives_stmts hs h.2).map fun _ hl => ⟨h.1, hl⟩) kept_nil)))
    ⟨Slots.all_empty, Slots.all_empty⟩ h

include he in
theorem gives_var (old : VarInit) (h : Short old.name ∧ FitExpr old.init) :
    Gives (fun v => Short v.name ∧ FitExpr v.init) (updateVar expr old) :=
  gives_updateRecord
    (.cons (fun _ h => gives_text.map fun _ ht => ⟨ht, h.2⟩)
      (.cons (fun _ h => (he _ h.2).map fun _ hx => ⟨h.1, hx⟩) kept_nil))
    ⟨limit_pos, fit_missing⟩ h

omit he hs in
theorem fit_labelGroup {m : Mark} {slots : Slots LabelDraft} (h : slots.All LabelDraft.Fits) :
    FitStmt (.labelGroup m (slots.items.map fun l => l.map (·.toLabel))) := by
  have hitems := items_map (·.toLabel) slots.items
  refine .intro ⟨?_, ?_⟩ (fun _ hx => absurd hx List.not_mem_nil) ?_
  · rw [hitems, Short, List.length_map]
    exact h.1
  · rw [hitems]
    exact List.forall_mem_map.mpr fun d hd => ⟨(h.items d hd).1, (h.items d hd).2.1⟩
  · intro t ht
    obtain ⟨l, hl, ht⟩ := List.mem_flatMap.mp ht
    rw [hitems] at hl
    obtain ⟨d, hd, rfl⟩ := List.mem_map.mp hl
    exact (h.items d hd).2.items t ht

omit he hs in
theorem fit_switch {m : Mark} {index : LoopIndex} {key : Expr} {slots : Slots CaseDraft}
    (hkey : FitExpr key) (h : slots.All CaseDraft.Fits) :
    FitStmt (.switch m index key (slots.items.map fun l => l.map (·.toCase))) := by
  have hitems := items_map (·.toCase) slots.items
  refine .intro ⟨?_, ?_⟩ (List.forall_mem_cons.mpr ⟨hkey, fun x hx => ?_⟩) fun t ht => ?_
  · rw [hitems, Short, List.length_map]
    exact h.1
  · rw [hitems]
    exact List.forall_mem_map.mpr fun d hd => ⟨(h.items d hd).1.1, (h.items d hd).2.1⟩
  · obtain ⟨c, hc, hx⟩ := List.mem_flatMap.mp hx
    rw [hitems] at hc
    obtain ⟨d, hd, rfl⟩ := List.mem_map.mp hc
    exact (h.items d hd).1.items x hx
  · obtain ⟨c, hc, ht⟩ := List.mem_flatMap.mp ht
    rw [hitems] at hc
    obtain ⟨d, hd, rfl⟩ := List.mem_map.mp hc
    exact (h.items d hd).2.items t ht

include he hs in
/-- The contents of a node can be written if its parts can. -/
theorem gives_stmtContents (kind : UInt8) (m : Mark) :
    Gives FitStmt (readStmtContents expr stmt kind m) := by
  have hexprs {old : Slots Expr} (h : old.All FitExpr) := gives_exprs he h
  have hstmts {old : Slots Stmt} (h : old.All FitStmt) := gives_stmts hs h
  have hone {x : Expr} (h : FitExpr x) : ∀ y ∈ [x], FitExpr y := List.forall_mem_singleton.mpr h
  have honly {x : Stmt} (h : FitStmt x) : ∀ y ∈ [x], FitStmt y := List.forall_mem_singleton.mpr h
  have hnone : ∀ x ∈ ([] : List Expr), FitExpr x := fun _ hx => absurd hx List.not_mem_nil
  have hnothing : ∀ x ∈ ([] : List Stmt), FitStmt x := fun _ hx => absurd hx List.not_mem_nil
  unfold readStmtContents
  dsimp only
  split
  · -- block
    exact gives_record (P := Slots.All FitStmt) (.cons (fun _ h => hstmts h) kept_nil)
      Slots.all_empty fun l h => gives_pure (.intro h.1 hnone h.items)
  · -- expr
    exact gives_record (P := FitExpr) (.cons he kept_nil) fit_missing fun x h =>
      gives_pure (.intro trivial (hone h) hnothing)
  · -- ite
    exact gives_record
      (P := fun r : Expr × Stmt × Stmt => FitExpr r.1 ∧ FitStmt r.2.1 ∧ FitStmt r.2.2)
      (.cons (fun _ h => (he _ h.1).map fun _ hx => ⟨hx, h.2⟩)
        (.cons (fun _ h => (hs _ h.2.1).map fun _ hx => ⟨h.1, hx, h.2.2⟩)
          (.cons (fun _ h => (hs _ h.2.2).map fun _ hx => ⟨h.1, h.2.1, hx⟩) kept_nil)))
      ⟨fit_missing, fit_missing_stmt, fit_missing_stmt⟩ fun r h =>
        gives_pure (.intro trivial (hone h.1) (List.forall_mem_cons.mpr ⟨h.2.1, honly h.2.2⟩))
  · -- forLoop
    exact gives_record
      (P := fun r : LoopIndex × Slots Stmt × Expr × Slots Expr × Stmt =>
        r.2.1.All FitStmt ∧ FitExpr r.2.2.1 ∧ r.2.2.2.1.All FitExpr ∧ FitStmt r.2.2.2.2)
      (.cons (fun _ h => gives_any.map fun _ _ => h)
        (.cons (fun _ h => (hstmts h.1).map fun _ hl => ⟨hl, h.2⟩)
          (.cons (fun _ h => (he _ h.2.1).map fun _ hx => ⟨h.1, hx, h.2.2⟩)
            (.cons (fun _ h => (hexprs h.2.2.1).map fun _ hl => ⟨h.1, h.2.1, hl, h.2.2.2⟩)
              (.cons (fun _ h => (hs _ h.2.2.2).map fun _ hx => ⟨h.1, h.2.1, h.2.2.1, hx⟩)
                kept_nil)))))
      ⟨Slots.all_empty, fit_missing, Slots.all_empty, fit_missing_stmt⟩ fun r h =>
        gives_pure (.intro ⟨h.1.1, h.2.2.1.1⟩ (List.forall_mem_cons.mpr ⟨h.2.1, h.2.2.1.items⟩)
          (List.forall_mem_cons.mpr ⟨h.2.2.2, h.1.items⟩))
  iterate 2 -- whileLoop
    exact gives_record
      (P := fun r : LoopIndex × Expr × Stmt => FitExpr r.2.1 ∧ FitStmt r.2.2)
      (.cons (fun _ h => gives_any.map fun _ _ => h)
        (.cons (fun _ h => (he _ h.1).map fun _ hx => ⟨hx, h.2⟩)
          (.cons (fun _ h => (hs _ h.2).map fun _ hx => ⟨h.1, hx⟩) kept_nil)))
      ⟨fit_missing, fit_missing_stmt⟩ fun r h =>
        gives_pure (.intro trivial (hone h.1) (honly h.2))
  · -- labelGroup
    exact gives_record (P := Slots.All LabelDraft.Fits)
      (.cons (fun _ h => gives_updateSlots ⟨limit_pos, Slots.all_empty⟩ (gives_label hs) h)
        kept_nil)
      Slots.all_empty fun l h => gives_pure (fit_labelGroup h)
  · -- goto
    exact gives_record (P := fun s : Bytes => Short s) (.cons (fun _ _ => gives_text) kept_nil)
      limit_pos fun l h => gives_pure (.intro h hnone hnothing)
  iterate 2 -- branch
    exact gives_any.map fun _ _ => .intro trivial hnone hnothing
  · -- ret
    exact gives_record (P := FitExpr) (.cons he kept_nil) fit_missing fun x h =>
      gives_pure (.intro trivial (hone h) hnothing)
  · -- switch
    exact gives_record
      (P := fun r : LoopIndex × Expr × Slots CaseDraft =>
        FitExpr r.2.1 ∧ r.2.2.All CaseDraft.Fits)
      (.cons (fun _ h => gives_any.map fun _ _ => h)
        (.cons (fun _ h => (he _ h.1).map fun _ hx => ⟨hx, h.2⟩)
          (.cons (fun _ h => (gives_updateSlots ⟨Slots.all_empty, Slots.all_empty⟩
            (gives_case he hs) h.2).map fun _ hl => ⟨h.1, hl⟩) kept_nil)))
      ⟨fit_missing, Slots.all_empty⟩ fun r h => gives_pure (fit_switch h.1 h.2)
  · -- varDecl
    exact gives_record (P := Slots.All fun v : VarInit => Short v.name ∧ FitExpr v.init)
      (.cons (fun _ h => gives_updateSlots ⟨limit_pos, fit_missing⟩ (gives_var he) h) kept_nil)
      Slots.all_empty fun l h => gives_pure (.intro ⟨h.1, fun v hv => (h.items v hv).1⟩
        (List.forall_mem_map.mpr fun v hv => (h.items v hv).2) hnothing)
  · exact gives_throw _

end Statements

/-- A statement can be written whatever bytes it is read from, if the one that it is read over
can. -/
theorem gives_stmt (depth : Nat) (old : Stmt) (h : FitStmt old) :
    Gives FitStmt (updateStmt depth old) := by
  induction depth generalizing old with
  | zero => exact gives_throw _
  | succ depth ih =>
    refine gives_any.bind fun start _ => ?_
    cases start with
    | none =>
      refine gives_pure ?_
      cases old with
      | missing => exact h
      | _ => exact fit_bare_stmt _ _
    | some start => exact gives_stmtContents (gives_expr depth) ih start.1 _

/-! ## Declarations -/

theorem gives_local (old : Local) (h : Short old.name) :
    Gives (fun l => Short l.name) (updateLocal old) :=
  gives_updateRecord
    (.cons (fun _ _ => gives_text.map fun _ ht => ht)
      (.cons (fun _ h => gives_any.map fun _ _ => h) kept_nil)) limit_pos h

/-- The texts and lists of a function that is being read can be written. -/
structure FuncDraft.Fits (d : FuncDraft) : Prop where
  name : Short d.func.name
  declaringType : Short d.func.declaringType
  exportName : Short d.func.exportName
  params : d.params.All fun l => Short l.name
  locals : d.locals.All fun l => Short l.name
  body : FitStmt d.func.body

theorem FuncDraft.fits_empty : FuncDraft.Fits {} where
  name := limit_pos
  declaringType := limit_pos
  exportName := limit_pos
  params := Slots.all_empty
  locals := Slots.all_empty
  body := fit_missing_stmt

theorem FuncDraft.Fits.toFunc {d : FuncDraft} (h : d.Fits) : d.toFunc.Fits where
  name := h.name
  declaringType := h.declaringType
  exportName := h.exportName
  params := h.params.1
  locals := h.locals.1
  localNames := fun l hl => by
    rcases List.mem_append.mp hl with hl | hl
    · exact h.params.items l hl
    · exact h.locals.items l hl

/-- A part of a function keeps what it gives. -/
theorem gives_funcPart {β : Type} {R : β → Prop} {r : Reader β} {g : β → Func} {d : FuncDraft}
    (hr : Gives R r) (h : ∀ b, R b → FuncDraft.Fits { d with func := g b }) :
    Gives FuncDraft.Fits ((r >>= fun b => pure (g b)) >>= fun f => pure { d with func := f }) :=
  (hr.map (Q := fun f => FuncDraft.Fits { d with func := f }) h).map fun _ hf => hf

theorem gives_func {stmt : Update Stmt} (hs : ∀ old, FitStmt old → Gives FitStmt (stmt old))
    (old : FuncDraft) (h : old.Fits) : Gives FuncDraft.Fits (updateFunc stmt old) := by
  have hvars {slots : Slots Local} (h : slots.All fun l => Short l.name) :
      Gives (Slots.All fun l => Short l.name) (updateSlots {} updateLocal slots) :=
    gives_updateSlots limit_pos gives_local h
  refine gives_updateRecord ?_ FuncDraft.fits_empty h
  exact
    .cons (fun d h => gives_funcPart gives_text fun _ ht => { h with name := ht })
      (.cons (fun d h => gives_funcPart gives_text fun _ ht => { h with declaringType := ht })
        (.cons (fun d h => (hvars h.params).map fun _ hl => { h with params := hl })
          (.cons (fun d h => (hvars h.locals).map fun _ hl => { h with locals := hl })
            (.cons (fun d h => gives_funcPart gives_any fun _ _ => { h with })
              (.cons (fun d h => gives_funcPart gives_any fun _ _ => { h with })
                (.cons (fun d h => gives_funcPart gives_text fun _ ht =>
                    { h with exportName := ht })
                  (.cons (fun d h => gives_funcPart (hs _ h.body) fun _ hb => { h with body := hb })
                    (.cons (fun d h => gives_funcPart gives_any fun _ _ => { h with })
                      kept_nil))))))))

theorem gives_field (old : FieldDecl) (h : Short old.name) :
    Gives (fun f => Short f.name) (updateField old) :=
  gives_updateRecord
    (.cons (fun _ _ => gives_text.map fun _ ht => ht)
      (.cons (fun _ h => gives_any.map fun _ _ => h)
        (.cons (fun _ h => gives_any.map fun _ _ => h)
          (.cons (fun _ h => gives_any.map fun _ _ => h) kept_nil))))
    limit_pos h

/-- The texts and lists of a type declaration that is being read can be written. -/
structure DeclDraft.Fits (d : DeclDraft) : Prop where
  name : Short d.name
  fields : d.fields.All fun place => ∀ f ∈ place, Short f.name
  funcs : d.funcs.All fun place => ∀ f ∈ place, f.Fits

theorem DeclDraft.fits_empty : DeclDraft.Fits {} where
  name := limit_pos
  fields := Slots.all_empty
  funcs := Slots.all_empty

theorem DeclDraft.Fits.toDecl {d : DeclDraft} (h : d.Fits) : d.toDecl.Fits where
  name := h.name
  fields := h.fields.1
  fieldNames := fun f hf => h.fields.items (some f) hf f rfl
  funcs := by
    rw [DeclDraft.toDecl, items_filterMap]
    exact Nat.lt_of_le_of_lt (List.length_filterMap_le _ _) h.funcs.1
  func := by
    rw [DeclDraft.toDecl, items_filterMap]
    exact forall_mem_filterMap_map h.funcs.items fun f hf => hf.toFunc

theorem DeclDraft.Fits.bodies {d : DeclDraft} (h : d.Fits) :
    ∀ f ∈ Rows.items d.toDecl.funcs, FitStmt f.body := by
  rw [DeclDraft.toDecl, items_filterMap]
  exact forall_mem_filterMap_map h.funcs.items fun f hf => hf.body

theorem gives_decl {stmt : Update Stmt} (hs : ∀ old, FitStmt old → Gives FitStmt (stmt old))
    (old : DeclDraft) (h : old.Fits) : Gives DeclDraft.Fits (updateDecl stmt old) := by
  have hfields {slots : Slots (Option FieldDecl)}
      (h : slots.All fun place => ∀ f ∈ place, Short f.name) :
      Gives (Slots.All fun place => ∀ f ∈ place, Short f.name)
        (updateSlots none (updateOptional {} updateField) slots) :=
    gives_updateSlots nofun (gives_updateOptional limit_pos gives_field) h
  have hfuncs {slots : Slots (Option FuncDraft)} (h : slots.All fun place => ∀ f ∈ place, f.Fits) :
      Gives (Slots.All fun place => ∀ f ∈ place, f.Fits)
        (updateSlots none (updateOptional {} (updateFunc stmt)) slots) :=
    gives_updateSlots nofun (gives_updateOptional FuncDraft.fits_empty (gives_func hs)) h
  refine gives_updateRecord ?_ DeclDraft.fits_empty h
  exact
    .cons (fun d h => gives_text.map fun _ ht => { h with name := ht })
      (.cons (fun d h => (hfields h.fields).map fun _ hl => { h with fields := hl })
        (.cons (fun d h => (hfuncs h.funcs).map fun _ hl => { h with funcs := hl })
          (.cons (fun d h => gives_any.map fun _ _ => { h with }) kept_nil)))

/-! ## Type tables -/

theorem gives_descriptor (old : Descriptor) (h : Kind.ofCode old.kind.code = old.kind) :
    Gives (fun d => Kind.ofCode d.kind.code = d.kind) (updateDescriptor old) :=
  gives_updateRecord
    (.cons (fun _ _ => gives_any.map fun c _ => by rw [Kind.code_ofCode])
      (.cons (fun _ h => gives_any.map fun _ _ => h)
        (.cons (fun _ h => gives_any.map fun _ _ => h)
          (.cons (fun _ h => gives_any.map fun _ _ => h) kept_nil))))
    rfl h

theorem gives_structField (old : StructField) (h : Short old.name) :
    Gives (fun f => Short f.name) (updateStructField old) :=
  gives_updateRecord
    (.cons (fun _ _ => gives_text.map fun _ ht => ht)
      (.cons (fun _ h => gives_any.map fun _ _ => h) kept_nil))
    limit_pos h

/-- The name of a nominal slot that is being read and its fields can be written. -/
def NominalDraft.Fits (d : NominalDraft) : Prop :=
  Short d.name ∧ d.fields.All fun f => Short f.name

theorem NominalDraft.Fits.toNominal {d : NominalDraft} (h : d.Fits) : d.toNominal.Fits where
  name := h.1
  fields := h.2.1
  fieldNames := h.2.items

theorem gives_nominal (old : NominalDraft) (h : old.Fits) :
    Gives NominalDraft.Fits (updateNominal old) := by
  have hfields {slots : Slots StructField} (h : slots.All fun f => Short f.name) :
      Gives (Slots.All fun f => Short f.name) (updateSlots {} updateStructField slots) :=
    gives_updateSlots limit_pos gives_structField h
  exact gives_updateRecord
    (.cons (fun _ h => gives_text.map fun _ ht => ⟨ht, h.2⟩)
      (.cons (fun _ h => (hfields h.2).map fun _ hl => ⟨h.1, hl⟩) kept_nil))
    ⟨limit_pos, Slots.all_empty⟩ h

/-! ## Whole documents -/

/-- The texts and lists of a document that is being read can be written. -/
structure Draft.Fits (d : Draft) : Prop where
  name : Short d.name
  files : Short d.files
  paths : ∀ path ∈ d.files, Short path
  types : d.types.All fun t => Kind.ofCode t.kind.code = t.kind
  nominals : d.nominals.All NominalDraft.Fits
  decls : d.decls.All fun place => ∀ t ∈ place, t.Fits

theorem Draft.fits_empty : Draft.Fits {} where
  name := limit_pos
  files := limit_pos
  paths := fun _ hx => absurd hx List.not_mem_nil
  types := Slots.all_empty
  nominals := Slots.all_empty
  decls := Slots.all_empty

theorem gives_texts {old : List Bytes} (h : Short old ∧ ∀ s ∈ old, Short s) :
    Gives (fun l => Short l ∧ ∀ s ∈ l, Short s) (updateTexts old) :=
  (gives_rows gives_text).map fun rows hrows => by
    cases rows with
    | none => exact h
    | some l => exact hrows

theorem gives_draft {stmt : Update Stmt} (hs : ∀ old, FitStmt old → Gives FitStmt (stmt old)) :
    Gives Draft.Fits (readDraft stmt) := by
  have htypes {slots : Slots Descriptor}
      (h : slots.All fun t => Kind.ofCode t.kind.code = t.kind) :
      Gives (Slots.All fun t => Kind.ofCode t.kind.code = t.kind)
        (updateSlots {} updateDescriptor slots) :=
    gives_updateSlots rfl gives_descriptor h
  have hnominals {slots : Slots NominalDraft} (h : slots.All NominalDraft.Fits) :
      Gives (Slots.All NominalDraft.Fits) (updateSlots {} updateNominal slots) :=
    gives_updateSlots ⟨limit_pos, Slots.all_empty⟩ gives_nominal h
  have hdecls {slots : Slots (Option DeclDraft)} (h : slots.All fun place => ∀ t ∈ place, t.Fits) :
      Gives (Slots.All fun place => ∀ t ∈ place, t.Fits)
        (updateSlots none (updateOptional {} (updateDecl stmt)) slots) :=
    gives_updateSlots nofun (gives_updateOptional DeclDraft.fits_empty (gives_decl hs)) h
  refine gives_updateRecord ?_ Draft.fits_empty Draft.fits_empty
  exact
    .cons (fun d h => gives_any.map fun _ _ => { h with })
      (.cons (fun d h => gives_text.map fun _ ht => { h with name := ht })
        (.cons (fun d h => (gives_texts ⟨h.files, h.paths⟩).map fun _ hl =>
            { h with files := hl.1, paths := hl.2 })
          (.cons (fun d h => (htypes h.types).map fun _ hl => { h with types := hl })
            (.cons (fun d h => (hnominals h.nominals).map fun _ hl => { h with nominals := hl })
              (.cons (fun d h => (hdecls h.decls).map fun _ hl => { h with decls := hl })
                kept_nil)))))

/-- The draft that a document is read into. -/
def draftOf (data : Bytes) : Except Error Draft :=
  ((readDraft (updateStmt (data.length + 1))).run data).map Prod.fst

/-- A program that was read is the one of the draft of its document, which can be written. -/
theorem read_draft {data : Bytes} {p : Program} (h : read data = .ok p) :
    ∃ d : Draft, draftOf data = .ok d ∧ d.Fits ∧ d.toProgram = .ok p := by
  unfold read at h
  cases hread : (readDraft (updateStmt (data.length + 1))).run data with
  | error e =>
    rw [hread] at h
    cases h
  | ok out =>
    obtain ⟨draft, rest⟩ := out
    rw [hread] at h
    exact ⟨draft, by rw [draftOf, hread]; rfl, gives_draft (gives_stmt _) data draft rest hread, h⟩

/-- The program of a draft whose types are restored as a table. -/
def Draft.over (d : Draft) (types : TypeTable) : Program where
  name := d.name
  types := types
  files := FileSet.addAll {} d.files
  decls := d.decls.items.map fun l => l.filterMap fun t => t.map (·.toDecl)

/-- What a document must be like to be accepted, and as which program. -/
theorem Draft.toProgram_eq_ok_iff {d : Draft} {p : Program} :
    d.toProgram = .ok p ↔ d.schema = version
      ∧ ∃ types, TypeTable.restore (Rows.items d.types.items)
          ((Rows.items d.nominals.items).map (·.toNominal)) = .ok types
        ∧ d.isWhole ∧ p = d.over types ∧ checkProgram p = .ok () := by
  unfold Draft.toProgram
  by_cases hschema : d.schema = version
  · rw [if_neg fun h => h hschema]
    cases hrestore : TypeTable.restore (Rows.items d.types.items)
        ((Rows.items d.nominals.items).map (·.toNominal)) with
    | error e =>
      refine ⟨nofun, fun ⟨_, types, htypes, _⟩ => ?_⟩
      cases htypes
    | ok types =>
      show (if d.isWhole then checkProgram (d.over types) >>= fun _ => pure (d.over types)
        else throw (.crash .absent)) = .ok p ↔ _
      constructor
      · intro h
        split at h
        · rename_i hwhole
          cases hids : checkProgram (d.over types) with
          | error e =>
            rw [hids] at h
            cases h
          | ok u =>
            rw [hids] at h
            obtain rfl := Except.ok.inj h
            exact ⟨hschema, types, rfl, hwhole, rfl, hids⟩
        · cases h
      · rintro ⟨-, types', htypes, hwhole, rfl, hids⟩
        obtain rfl := Except.ok.inj htypes
        rw [if_pos hwhole, hids]
        rfl
  · rw [if_pos hschema]
    exact ⟨nofun, fun ⟨h, _⟩ => absurd h hschema⟩

theorem exists_ok_of_any {ε α : Type} {r : Except ε α} {P : α → Bool}
    (h : r.toOption.any P = true) : ∃ x, r = .ok x ∧ P x = true := by
  cases r with
  | error e => cases h
  | ok x => exact ⟨x, rfl, h⟩

end WastForge.Document

namespace WastForge

/-! ## Where positions point to -/

namespace FileSet

variable {ps : List Bytes} {i : Nat}

theorem nodup_addAll (ps : List Bytes) : (addAll {} ps).paths.Nodup :=
  (normal_addAll ⟨List.nodup_nil, fun _ hx => absurd hx List.not_mem_nil⟩ ps).1

/-- If there is a file for each added path, the paths are of different files. -/
theorem nodup_of_length_le (h : ps.length ≤ (addAll {} ps).paths.length) :
    (ps.map normalPath).Nodup := by
  have hsub : (addAll {} ps).paths ⊆ ps.map normalPath := by
    intro q hq
    exact (mem_addAll.mp hq).resolve_left List.not_mem_nil
  have hsubperm := List.subperm_of_subset (nodup_addAll ps) hsub
  have hperm := hsubperm.perm_of_length_le (by rwa [List.length_map])
  exact hperm.nodup_iff.mp (nodup_addAll ps)

/-- A path has the number of its place just when no path up to it is added twice. -/
theorem paths_addAll_getElem?_iff (hi : i < ps.length) :
    (addAll {} ps).paths[i]? = (ps.map normalPath)[i]?
      ↔ ((ps.map normalPath).take (i + 1)).Nodup := by
  have hlen : i < (ps.map normalPath).length := by rwa [List.length_map]
  have hfront : (addAll {} (ps.take (i + 1))).paths <+: (addAll {} ps).paths := by
    conv => rhs; rw [← List.take_append_drop (i + 1) ps, addAll_append]
    exact prefix_addAll _ _
  obtain ⟨more, hmore⟩ := hfront
  rw [← List.map_take]
  constructor
  · intro heq
    have hin : (ps.map normalPath)[i] ∈ (addAll {} (ps.take (i + 1))).paths := by
      rw [mem_addAll, List.map_take]
      exact .inr (List.mem_take_iff_getElem.mpr ⟨i, by omega, rfl⟩)
    obtain ⟨j, hj⟩ := List.mem_iff_getElem?.mp hin
    have hjlt : j < (addAll {} (ps.take (i + 1))).paths.length :=
      (List.getElem?_eq_some_iff.mp hj).1
    have hsame : (addAll {} ps).paths[j]? = (addAll {} ps).paths[i]? := by
      rw [heq, ← hmore, List.getElem?_append_left hjlt, hj, List.getElem?_eq_getElem hlen]
    -- The path stands at its place, so the paths up to it have that many files.
    have hplace : j = i := by
      refine (List.getElem?_inj ?_ (nodup_addAll ps)).mp hsame
      rw [← hmore, List.length_append]
      omega
    apply nodup_of_length_le
    rw [List.length_take]
    omega
  · intro hnodup
    have hpaths : (addAll {} (ps.take (i + 1))).paths = (ps.take (i + 1)).map normalPath := by
      apply paths_addAll_of_nodup
      exact hnodup
    have hlt : i < (addAll {} (ps.take (i + 1))).paths.length := by
      rw [hpaths, List.length_map, List.length_take]
      omega
    rw [← hmore, List.getElem?_append_left hlt, hpaths, List.map_take]
    exact List.getElem?_take_of_lt (Nat.lt_succ_self i)

end FileSet

namespace Document

open Pack

/-- The path that a document lists under the number of a file. -/
def Draft.listed? (d : Draft) (file : UInt32) : Option Bytes :=
  match file.toNat with
  | 0 => none
  | i + 1 => d.files[i]?

/-- Whatever document is read: a position in a listed file is in the file of its listed path,
however it is spelt, just when no file up to this one is listed twice. -/
theorem get?_listed_iff {data : Bytes} {p : Program} (h : read data = .ok p) :
    ∃ d, draftOf data = .ok d ∧ ∀ (s : Span) (path : Bytes), d.listed? s.file = some path →
      (p.files.get? s.file = some (normalPath path)
        ↔ ((d.files.map normalPath).take s.file.toNat).Nodup) := by
  obtain ⟨d, hd, -, hp⟩ := read_draft h
  obtain ⟨-, types, -, -, rfl, -⟩ := Draft.toProgram_eq_ok_iff.mp hp
  refine ⟨d, hd, fun s path hpath => ?_⟩
  unfold Draft.listed? at hpath
  cases hfile : s.file.toNat with
  | zero =>
    rw [hfile] at hpath
    cases hpath
  | succ i =>
    rw [hfile] at hpath
    have hi : i < d.files.length := (List.getElem?_eq_some_iff.mp hpath).1
    have hplace : (d.files.map normalPath)[i]? = some (normalPath path) := by
      rw [List.getElem?_map]
      exact congrArg (Option.map normalPath) hpath
    rw [Draft.over, FileSet.get?, hfile, ← FileSet.paths_addAll_getElem?_iff hi, hplace]

/-- A program with one function, at a place in the second file. -/
def placed (paths : List Bytes) : Program where
  name := "p"
  files := { paths := paths }
  decls := some [{ name := "T", funcs := some [{ name := "F", declaringType := "T"
                                                 span := ⟨2, 7, 1⟩ }] }]

/-- Whether the function of a program is at a place in the second file, with a path. -/
def Program.inSecond (path : Bytes) (p : Program) : Bool :=
  p.files.get? 2 == some path
    && (Rows.items p.decls).any fun d => (Rows.items d.funcs).any fun f => f.span.file == 2

/-- Two files, the second one in a spelling of its own. -/
def spelt : List Bytes := ["a.cs", "sub/.././b.cs"]

theorem get?_listed_iff_spelt :
    ∃ p d, read (write (placed spelt)) = .ok p ∧ draftOf (write (placed spelt)) = .ok d
      ∧ d.listed? 2 = some ("sub/.././b.cs" : Bytes) ∧ p.files.get? 2 = some ("b.cs" : Bytes) := by
  obtain ⟨p, hp, -⟩ := exists_ok_of_any (r := read (write (placed spelt))) (P := fun _ => true)
    (by decide +kernel)
  obtain ⟨d, hd, hlisted⟩ := get?_listed_iff hp
  obtain ⟨d', hd', hfiles⟩ := exists_ok_of_any (r := draftOf (write (placed spelt)))
    (P := fun d => d.files == spelt) (by decide +kernel)
  obtain rfl := Except.ok.inj (hd.symm.trans hd')
  have hpaths : d.files = spelt := eq_of_beq hfiles
  have hpath : d.listed? 2 = some ("sub/.././b.cs" : Bytes) := by
    rw [Draft.listed?, hpaths]
    rfl
  have hnormal : normalPath "sub/.././b.cs" = "b.cs" := by decide +kernel
  have hnew : ((d.files.map normalPath).take 2).Nodup := by
    rw [hpaths]
    decide +kernel
  refine ⟨p, d, hp, hd, hpath, ?_⟩
  rw [← hnormal]
  exact (hlisted ⟨2, 7, 1⟩ _ hpath).mpr hnew

/-- Two files, the first one listed in two spellings. -/
def listedTwice : List Bytes := ["a.cs", "./a.cs", "b.cs"]

/-- What is in the file that is listed second, the first one once more, is taken to be in the file
that is listed behind it. -/
theorem position_shifted :
    (∃ p, read (write (placed listedTwice)) = .ok p ∧ Program.inSecond "b.cs" p)
      ∧ (∃ d, draftOf (write (placed listedTwice)) = .ok d
        ∧ d.listed? 2 = some ("./a.cs" : Bytes))
      ∧ normalPath "./a.cs" = "a.cs" := by
  refine ⟨exists_ok_of_any (by decide +kernel), ?_, by decide +kernel⟩
  obtain ⟨d, hd, hlisted⟩ := exists_ok_of_any (r := draftOf (write (placed listedTwice)))
    (P := fun d => d.listed? 2 == some ("./a.cs" : Bytes)) (by decide +kernel)
  exact ⟨d, hd, eq_of_beq hlisted⟩

end Document

end WastForge
