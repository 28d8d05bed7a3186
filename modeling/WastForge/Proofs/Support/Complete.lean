import WastForge.Proofs.Program.Functions
import WastForge.Proofs.Program.Mapping
import WastForge.Proofs.Support.Expansion
import WastForge.Proofs.Support.Failure

/-!
# Expansion is complete

No call to the support library is left when a program is expanded, except for instructions whose
operands do not fit, and what calls declare on the side is noted just once. So expanding the bodies
again changes nothing.
-/

namespace WastForge

open Support WastForge.Expr

namespace Node

/-- Expansion has nothing to do: the node is no call to the support library, or it is a call of an
instruction whose operands do not fit. -/
def Settled : Node → Prop
  | .expr (.call _ target params _ _ args) =>
    ∀ member, SupportMember.ofName? target.text = some member → Unfit member params args
  | _ => True

/-- The operation of the harness that a call becomes. -/
def operation? : Node → Option HarnessOp
  | .expr (.call _ target _ _ _ _) =>
    (SupportMember.ofName? target.text).bind SupportMember.operation?
  | _ => none

/-- The operation of the harness that a node calls. -/
def harness? : Node → Option HarnessOp
  | .expr (.harnessCall _ op _) => some op
  | _ => none

/-- What expansion makes of instructions and of operations of the harness: instructions of the
support library, and operations of `ops` on as many operands as they take. -/
def Made (ops : HarnessOp → Prop) : Node → Prop
  | .expr (.intrinsic _ w _) => w ∈ SupportMember.instructions
  | .expr (.harnessCall _ op args) => ops op ∧ (Rows.items args).length = op.arity
  | _ => True

/-- Before the expansion there are neither. -/
theorem IsFrontEnd.made {ops : HarnessOp → Prop} {n : Node} (h : n.IsFrontEnd) : n.Made ops := by
  cases n with
  | stmt s => trivial
  | expr e =>
    cases e with
    | intrinsic a op args => exact absurd (show (16 : UInt8) ≤ 12 from h) (by decide)
    | harnessCall a op args => exact absurd (show (21 : UInt8) ≤ 12 from h) (by decide)
    | _ => trivial

/-- What a call says the size of the heap is, if its argument is a literal. -/
def heapSize? : Node → Option (Option Int64)
  | .expr (.call _ target _ _ _ args) =>
    if SupportMember.ofName? target.text = some .setHeapSize then
      some ((Rows.items args).head?.bind Expr.intConstant?)
    else none
  | _ => none

end Node

namespace Support

/-! ## What calls declare -/

/-- Expansion that notes nothing. -/
def Stays (α : Type) (act : ExpandM α) : Prop := ∀ u a u', act u = .ok (a, u') → u' = u

theorem calm_stays : Calm Stays where
  pure := fun a u b u' h => (Prod.mk.inj (Except.ok.inj h)).2.symm
  bind := by
    intro α β act next hact hnext u b u' h
    obtain ⟨a, u₁, hfirst, hrun⟩ := bind_ok h
    rw [hnext a u₁ b u' hrun, hact u a u₁ hfirst]
  problem := fun _ _ _ _ _ _ h => nomatch h
  absent := fun _ _ _ h => nomatch h

/-- A literal of 32 bits is not changed when it is noted. -/
theorem ofNat_toNat_toUInt32 {v : Int64} (hzero : 0 ≤ v.toInt) (hlt : v.toInt < 0x100000000) :
    Int64.ofNat v.toUInt64.toUInt32.toNat = v := by
  have hnonneg : 0 ≤ v := Int64.le_iff_toInt_le.mpr hzero
  have hclamp : v.toNatClampNeg < 2 ^ 32 := by
    have htoInt : (v.toNatClampNeg : Int) = v.toInt := Int.toNat_of_nonneg hzero
    omega
  rw [UInt64.toNat_toUInt32, Int64.toNat_toUInt64_of_le hnonneg, Nat.mod_eq_of_lt hclamp]
  exact Int64.ofNat_toNatClampNeg v hnonneg

/-- The size that a call declares is noted for its type, once. -/
theorem declareHeapSize_ok {owner : Bytes} {span : Span} {size : Expr} {u u' : SupportUse}
    (h : declareHeapSize owner span size u = .ok ((), u')) :
    u.heapSizes.lookup owner = none ∧ ∃ n : UInt32,
      size.intConstant? = some (Int64.ofNat n.toNat)
        ∧ u' = { u with heapSizes := u.heapSizes ++ [(owner, n)] } := by
  have hrun : declareHeapSize owner span size u
      = (if (u.heapSizes.lookup owner).isSome then _ else _ : ExpandM Unit) u := rfl
  rw [hrun] at h
  cases hlookup : u.heapSizes.lookup owner with
  | some m =>
    rw [hlookup, if_pos Option.isSome_some] at h
    cases h
  | none =>
    rw [hlookup, if_neg (by simp)] at h
    refine ⟨rfl, ?_⟩
    cases hsize : size.intConstant? with
    | none =>
      rw [hsize] at h
      cases h
    | some v =>
      rw [hsize] at h
      simp only at h
      split at h
      · rename_i hrange
        rw [Bool.and_eq_true, decide_eq_true_eq, decide_eq_true_eq] at hrange
        refine ⟨v.toUInt64.toUInt32, ?_, (Prod.mk.inj (Except.ok.inj h)).2.symm⟩
        rw [ofNat_toNat_toUInt32 hrange.1 hrange.2]
      · cases h

/-- The sizes that are noted, as literals. -/
def SupportUse.literals (u : SupportUse) : List (Bytes × Option Int64) :=
  u.heapSizes.map fun (type, n) => (type, some (Int64.ofNat n.toNat))

/-- What nodes in functions of types declare, and what is noted of it. -/
structure Notes (l : List (Bytes × Node)) (u u' : SupportUse) : Prop where
  sizes : (SupportUse.literals u').Perm
    (SupportUse.literals u ++ l.filterMap fun (type, n) => n.heapSize?.map (type, ·))
  distinct : (u.heapSizes.map Prod.fst).Nodup → (u'.heapSizes.map Prod.fst).Nodup
  imports : ∀ op, op ∈ u'.imports ↔ op ∈ u.imports ∨ ∃ x ∈ l, x.2.operation? = some op
  rising : (u.imports.map HarnessOp.code).Pairwise (· < ·) →
    (u'.imports.map HarnessOp.code).Pairwise (· < ·)

theorem notes_nil (u : SupportUse) : Notes [] u u where
  sizes := by simp
  distinct := id
  imports := by simp
  rising := id

theorem Notes.append {l r : List (Bytes × Node)} {u v u' : SupportUse} (h : Notes l u v)
    (h' : Notes r v u') : Notes (l ++ r) u u' where
  sizes := by
    rw [List.filterMap_append, ← List.append_assoc]
    exact h'.sizes.trans (h.sizes.append_right _)
  distinct := h'.distinct ∘ h.distinct
  imports := fun op => by
    rw [h'.imports, h.imports, or_assoc]
    simp only [List.mem_append, or_and_right, exists_or]
  rising := h'.rising ∘ h.rising

theorem Notes.perm {l r : List (Bytes × Node)} {u u' : SupportUse} (hperm : l.Perm r)
    (h : Notes l u u') : Notes r u u' where
  sizes := h.sizes.trans ((hperm.filterMap _).append_left _)
  distinct := h.distinct
  imports := fun op => by simp only [h.imports, hperm.mem_iff]
  rising := h.rising

theorem mem_insertOp {op o : HarnessOp} {l : List HarnessOp} :
    o ∈ insertOp op l ↔ o ∈ l ∨ o = op := by
  induction l with
  | nil => simp [insertOp]
  | cons x rest ih =>
    unfold insertOp
    split
    · rename_i heq
      rw [heq, List.mem_cons, or_right_comm, or_self]
    · split
      · simp [or_comm]
      · simp [ih, or_assoc]

theorem rising_insertOp {op : HarnessOp} {l : List HarnessOp}
    (h : (l.map HarnessOp.code).Pairwise (· < ·)) :
    ((insertOp op l).map HarnessOp.code).Pairwise (· < ·) := by
  induction l with
  | nil => simp [insertOp]
  | cons x rest ih =>
    obtain ⟨hx, hrest⟩ := List.pairwise_cons.mp h
    unfold insertOp
    split
    · exact h
    · rename_i hne
      split
      · rename_i hlt
        refine List.pairwise_cons.mpr ⟨fun c hc => ?_, h⟩
        rcases List.mem_cons.mp hc with rfl | hc
        · exact hlt
        · exact UInt8.lt_trans hlt (hx c hc)
      · rename_i hnlt
        refine List.pairwise_cons.mpr ⟨fun c hc => ?_, ih hrest⟩
        obtain ⟨o, ho, rfl⟩ := List.mem_map.mp hc
        rcases mem_insertOp.mp ho with ho | rfl
        · exact hx _ (List.mem_map_of_mem ho)
        · have hcode : x.code ≠ o.code := fun hcode => hne (by
            cases x
            cases o
            exact congrArg HarnessOp.mk hcode.symm)
          exact UInt8.lt_of_le_of_ne (UInt8.not_lt.mp hnlt) hcode

/-- A node that declares nothing. -/
theorem notes_same {type : Bytes} {n : Node} (hsize : n.heapSize? = none)
    (hop : n.operation? = none) (u : SupportUse) : Notes [(type, n)] u u where
  sizes := by simp [hsize]
  distinct := id
  imports := by simp [hop]
  rising := id

theorem notes_operation {type : Bytes} {n : Node} {op : HarnessOp} (hsize : n.heapSize? = none)
    (hop : n.operation? = some op) (u : SupportUse) :
    Notes [(type, n)] u { u with imports := insertOp op u.imports } where
  sizes := by simp [hsize, SupportUse.literals]
  distinct := id
  imports := fun o => by simp [hop, mem_insertOp, eq_comm]
  rising := rising_insertOp

theorem notes_size {type : Bytes} {n : Node} {size : UInt32}
    (hsize : n.heapSize? = some (some (Int64.ofNat size.toNat))) (hop : n.operation? = none)
    {u : SupportUse} (hnew : u.heapSizes.lookup type = none) :
    Notes [(type, n)] u { u with heapSizes := u.heapSizes ++ [(type, size)] } where
  sizes := by simp [hsize, SupportUse.literals]
  distinct := fun h => by
    have hnot : type ∉ u.heapSizes.map Prod.fst := by
      intro hmem
      obtain ⟨x, hx, rfl⟩ := List.mem_map.mp hmem
      exact absurd rfl (bne_iff_ne.mp (List.lookup_eq_none_iff.mp hnew x hx))
    rw [List.map_append, List.nodup_append_comm]
    exact List.nodup_cons.mpr ⟨hnot, h⟩
  imports := by simp [hop]
  rising := id

section

variable {tt : TypeTable} {owner : Bytes} {member : SupportMember} {a : Annot}
  {target : MemberRef} {params : Option (List TypeId)} {isStatic : Bool} {receiver : Expr}
  {args : Option (List Expr)} {u u' : SupportUse} {new : Option Expr}

theorem expandCall_setHeapSize_ok
    (h : expandCall tt owner .setHeapSize a target params receiver args u = .ok (new, u')) :
    ∃ size, Rows.items args = [size] ∧ declareHeapSize owner a.span size u = .ok ((), u') := by
  unfold expandCall at h
  generalize Rows.items args = list at h ⊢
  match list, h with
  | [], h => cases h
  | _ :: _ :: _, h => cases h
  | [size], h =>
    obtain ⟨_, u₁, hdeclare, hrest⟩ := bind_ok h
    obtain rfl := (Prod.mk.inj (Except.ok.inj hrest)).2
    exact ⟨size, rfl, hdeclare⟩

theorem expandCall_operation_ok {op : HarnessOp} (hop : member.operation? = some op)
    (h : expandCall tt owner member a target params receiver args u = .ok (new, u')) :
    u' = { u with imports := insertOp op u.imports } := by
  unfold expandCall at h
  generalize Rows.items args = list at h
  cases member with
  | setStdout =>
    obtain rfl := Option.some.inj hop
    match list, h with
    | [], h => cases h
    | [_], h => exact (Prod.mk.inj (Except.ok.inj h)).2.symm
    | _ :: _ :: _, h => cases h
  | write =>
    obtain rfl := Option.some.inj hop
    match list, h with
    | [], h => cases h
    | [_], h => cases h
    | [_, _], h => exact (Prod.mk.inj (Except.ok.inj h)).2.symm
    | _ :: _ :: _ :: _, h => cases h
  | _ => cases hop

/-- What a call to the support library declares is noted. -/
theorem notes_expandCall (hmember : SupportMember.ofName? target.text = some member)
    (h : expandCall tt owner member a target params receiver args u = .ok (new, u')) :
    Notes [(owner, .expr (.call a target params isStatic receiver args))] u u' := by
  have hop : Node.operation? (.expr (.call a target params isStatic receiver args))
      = member.operation? := by
    simp only [Node.operation?, hmember, Option.bind_some]
  by_cases hsize : member = .setHeapSize
  · subst hsize
    obtain ⟨size, hargs, hdeclare⟩ := expandCall_setHeapSize_ok h
    obtain ⟨hnew, n, hn, rfl⟩ := declareHeapSize_ok hdeclare
    refine notes_size ?_ hop hnew
    simp [Node.heapSize?, hmember, hargs, hn]
  · have hnone : Node.heapSize? (.expr (.call a target params isStatic receiver args)) = none := by
      simp [Node.heapSize?, hmember, hsize]
    cases hmem : member.operation? with
    | some op =>
      rw [expandCall_operation_ok hmem h]
      exact notes_operation hnone (hop.trans hmem) u
    | none =>
      have hstay : u' = u := by
        refine calm_stays.expandCall (fun h => absurd h hsize) (fun h => ?_) a target params
          receiver args u new u' h
        rcases h with rfl | rfl <;> cases hmem
      rw [hstay]
      exact notes_same hnone (hop.trans hmem) u

end

theorem notes_expandExpr {tt : TypeTable} {owner : Bytes} {e : Expr} {u u' : SupportUse}
    {new : Option Expr} (h : expandExpr tt owner e u = .ok (new, u')) :
    Notes [(owner, .expr e)] u u' := by
  cases e with
  | call a target params isStatic receiver args =>
    simp only [expandExpr] at h
    cases hmember : SupportMember.ofName? target.text with
    | some member =>
      rw [hmember] at h
      exact notes_expandCall hmember h
    | none =>
      rw [hmember] at h
      obtain rfl := (Prod.mk.inj (Except.ok.inj h)).2
      exact notes_same (by simp [Node.heapSize?, hmember]) (by simp [Node.operation?, hmember]) _
  | _ =>
    obtain rfl := (Prod.mk.inj (Except.ok.inj h)).2
    exact notes_same rfl rfl _

/-! ## What calls become -/

theorem admits_true : Admits (fun _ => True) fun _ => True where
  literal := fun _ _ => trivial
  binary := fun _ _ _ _ => trivial
  memory := fun _ _ _ _ _ _ => trivial
  stringLength := fun _ _ => trivial
  comma := fun _ _ => trivial
  intrinsic := fun _ _ _ _ => trivial
  invoke := fun _ _ _ => trivial
  assertion := fun _ _ _ _ _ => trivial
  assertHeap := fun _ _ _ _ _ => trivial
  harnessCall := fun _ _ _ _ _ => trivial

/-- Expansion makes no calls. -/
theorem admits_settled : Admits (fun _ => True) Node.Settled where
  literal := fun _ _ => trivial
  binary := fun _ _ _ _ => trivial
  memory := fun _ _ _ _ _ _ => trivial
  stringLength := fun _ _ => trivial
  comma := fun _ _ => trivial
  intrinsic := fun _ _ _ _ => trivial
  invoke := fun _ _ _ => trivial
  assertion := fun _ _ _ _ _ => trivial
  assertHeap := fun _ _ _ _ _ => trivial
  harnessCall := fun _ _ _ _ _ => trivial

/-- It makes calls of the harness only with the given operations. -/
theorem admits_harness (ops : HarnessOp → Prop) :
    Admits ops fun n => ∀ op, n.harness? = some op → ops op where
  literal := fun _ _ _ h => nomatch h
  binary := fun _ _ _ _ _ h => nomatch h
  memory := fun _ _ _ _ _ _ _ h => nomatch h
  stringLength := fun _ _ _ h => nomatch h
  comma := fun _ _ _ h => nomatch h
  intrinsic := fun _ _ _ _ _ h => nomatch h
  invoke := fun _ _ _ _ h => nomatch h
  assertion := fun _ _ _ _ _ _ h => nomatch h
  assertHeap := fun _ _ _ _ _ _ h => nomatch h
  harnessCall := fun _ _ _ hop _ _ h => Option.some.inj h ▸ hop

theorem admits_made (ops : HarnessOp → Prop) : Admits ops (Node.Made ops) where
  literal := fun _ _ => trivial
  binary := fun _ _ _ _ => trivial
  memory := fun _ _ _ _ _ _ => trivial
  stringLength := fun _ _ => trivial
  comma := fun _ _ => trivial
  intrinsic := fun _ _ _ h => h
  invoke := fun _ _ _ => trivial
  assertion := fun _ _ _ _ _ => trivial
  assertHeap := fun _ _ _ _ _ => trivial
  harnessCall := fun _ _ _ hop hlength => ⟨hop, hlength⟩

section

variable {tt : TypeTable} {owner : Bytes} {ops : HarnessOp → Prop} {P : Node → Prop} {e e' : Expr}
  {u u' : SupportUse}

/-- What takes the place of an expression is no literal, and neither is the expression. -/
theorem stands_of_expandExpr (hP : Admits ops P)
    (hops : ∀ op, (Node.expr e).operation? = some op → ops op) (hbelow : ∀ x ∈ e.slots, x.Each P)
    (h : expandExpr tt owner e u = .ok (some e', u')) : Stands P e' ∧ e.literal? = none := by
  cases e with
  | call a target params isStatic receiver args =>
    simp only [expandExpr] at h
    cases hmember : SupportMember.ofName? target.text with
    | none =>
      rw [hmember] at h
      cases h
    | some member =>
      rw [hmember] at h
      obtain ⟨hreceiver, hargs⟩ := List.forall_mem_cons.mp hbelow
      refine ⟨(gives_expandCall hP (fun op hop => hops op ?_) hmember hreceiver
        (eachRow_iff.mpr hargs) u _ u' h).stands e' rfl, rfl⟩
      simp only [Node.operation?, hmember, Option.bind_some, hop]
  | _ => cases h

/-- What is left is settled. -/
theorem settled_of_expandExpr (h : expandExpr tt owner e u = .ok (none, u')) :
    (Node.expr e).Settled := by
  cases e with
  | call a target params isStatic receiver args =>
    intro member hmember
    simp only [expandExpr, hmember] at h
    exact (gives_expandCall admits_true (fun _ _ => trivial) hmember (fun _ _ => trivial)
      (fun _ _ => trivial) u _ u' h).unfit rfl
  | _ => trivial

/-- What is settled is left. -/
theorem leftBy_of_settled {n : Node} (h : n.Settled) : n.LeftBy (expandExpr tt owner) := by
  cases n with
  | stmt s => trivial
  | expr e =>
    intro u
    cases e with
    | call a target params isStatic receiver args =>
      simp only [expandExpr]
      cases hmember : SupportMember.ofName? target.text with
      | none => exact ⟨u, rfl⟩
      | some member =>
        obtain ⟨instruction, arity, rfl, hthere, hunfit⟩ := h member hmember
        refine ⟨u, ?_⟩
        simp only [expandCall, hthere, hunfit]
        rfl
    | _ => exact ⟨u, rfl⟩

end

end Support

namespace Expr

/-- The member that a call is to. -/
def callee? : Expr → Option MemberRef
  | .call _ target _ _ _ _ => some target
  | _ => none

theorem callee?_hollow (e : Expr) : e.hollow.callee? = e.callee? := by
  cases e with
  | arrayInit a elem size elements hasInit => cases hasInit <;> rfl
  | _ => rfl

theorem literal?_hollow (e : Expr) : e.hollow.literal? = e.literal? := by
  cases e with
  | arrayInit a elem size elements hasInit => cases hasInit <;> rfl
  | _ => rfl

theorem kind_hollow (e : Expr) : e.hollow.kind = e.kind := by
  cases e with
  | arrayInit a elem size elements hasInit => cases hasInit <;> rfl
  | _ => rfl

theorem harness?_hollow (e : Expr) : (Node.expr e.hollow).harness? = (Node.expr e).harness? := by
  cases e with
  | arrayInit a elem size elements hasInit => cases hasInit <;> rfl
  | _ => rfl

theorem operation?_eq (e : Expr) : (Node.expr e).operation?
    = e.callee?.bind fun target => (SupportMember.ofName? target.text).bind (·.operation?) := by
  cases e <;> rfl

theorem heapSize?_eq (e : Expr) : (Node.expr e).heapSize?
    = if (e.callee?.bind fun target => SupportMember.ofName? target.text) = some .setHeapSize then
        some (e.slots.tail.head?.bind intConstant?)
      else none := by
  cases e <;> rfl

end Expr

namespace Support

section

variable {tt : TypeTable} {owner : Bytes} {e e' shown : Expr} {u v u' : SupportUse}

/-- Only literals become literals, and they are the same. -/
theorem literal?_of_image (h : Expr.Image (expandExpr tt owner) u e e' u') :
    e'.literal? = e.literal? := by
  cases h with
  | missing => rfl
  | @node _ _ _ _ shown new _ _ rest answer =>
    rw [← literal?_hollow e, ← rest, literal?_hollow]
    cases new with
    | none => rfl
    | some x =>
      obtain ⟨hstands, hshown⟩ := stands_of_expandExpr admits_true (fun _ _ => trivial)
        (fun _ _ _ _ => trivial) answer
      rw [hshown]
      exact hstands.literal

theorem literals_of_images : ∀ {u u' : SupportUse} {l l' : List Expr},
    Expr.Images (expandExpr tt owner) u l l' u' →
    List.Forall₂ (fun x x' => x'.literal? = x.literal?) l l'
  | _, _, _, _, .nil _ => .nil
  | _, _, _, _, .cons first rest => .cons (literal?_of_image first) (literals_of_images rest)

theorem operation?_shown (rest : shown.hollow = e.hollow) :
    (Node.expr shown).operation? = (Node.expr e).operation? := by
  rw [operation?_eq, operation?_eq, ← callee?_hollow, rest, callee?_hollow]

theorem harness?_shown (rest : shown.hollow = e.hollow) :
    (Node.expr shown).harness? = (Node.expr e).harness? := by
  rw [← harness?_hollow, rest, harness?_hollow]

/-- A call declares the same size when its arguments are expanded. -/
theorem heapSize?_shown (slots : Expr.Images (expandExpr tt owner) u e.slots shown.slots v)
    (rest : shown.hollow = e.hollow) :
    (Node.expr shown).heapSize? = (Node.expr e).heapSize? := by
  have hargument : shown.slots.tail.head?.bind intConstant?
      = e.slots.tail.head?.bind intConstant? := by
    have hliterals := literals_of_images slots
    revert hliterals
    generalize e.slots = l, shown.slots = l'
    rintro (_ | ⟨_, _ | ⟨hx, _⟩⟩)
    · rfl
    · rfl
    · simp only [List.tail_cons, List.head?_cons, Option.bind_some, intConstant?, hx]
  rw [heapSize?_eq, heapSize?_eq, ← callee?_hollow, rest, callee?_hollow, hargument]

theorem Notes.congr {type : Bytes} {n n' : Node} (h : Notes [(type, n)] u u')
    (hsize : n.heapSize? = n'.heapSize?) (hop : n.operation? = n'.operation?) :
    Notes [(type, n')] u u' where
  sizes := by
    have hsizes := h.sizes
    simp only [List.filterMap_cons, hsize] at hsizes ⊢
    exact hsizes
  distinct := h.distinct
  imports := fun op => by
    rw [h.imports]
    simp [hop]
  rising := h.rising

theorem tallies_notes (tt : TypeTable) (owner : Bytes) :
    Expr.Tallies (expandExpr tt owner) fun l => Notes (l.map (owner, ·)) where
  nil := notes_nil
  append := fun h h' => by
    rw [List.map_append]
    exact h.append h'
  perm := fun hperm h => h.perm (hperm.map _)
  step := fun slots rest answer =>
    (notes_expandExpr answer).congr (heapSize?_shown slots rest) (operation?_shown rest)

end

/-! ## Whole bodies and programs -/

/-- A body and its expansion. -/
structure BodyExpands (tt : TypeTable) (ops : HarnessOp → Prop) (b b' : Body) : Prop where
  id : b'.id = b.id
  func : b'.func = b.func
  /-- Statements keep their numbers and kinds, and stand where they stood. -/
  rest : b'.root.hollow = b.root.hollow
  /-- Every call is expanded once its receiver and its arguments are. -/
  images : ∃ u u',
    Expr.Images (expandExpr tt b.func.declaringType) u b.root.slots b'.root.slots u'
  settled : b'.root.Each Node.Settled
  /-- The harness is called with the given operations, or with those of the body before. -/
  harness : ∀ n ∈ Node.all b'.root, ∀ op, n.harness? = some op →
    ops op ∨ ∃ n' ∈ Node.all b.root, n'.harness? = some op

end Support

/-- The nodes of a body with the type that its calls declare something for. -/
def Body.nodes (b : Body) : List (Bytes × Node) :=
  (Node.all b.root).map (b.func.declaringType, ·)

/-- What the calls of a body say the size of the heap is. -/
def Body.heapSizes (b : Body) : List (Option Int64) := (Node.all b.root).filterMap Node.heapSize?

namespace Support

section

variable {tt : TypeTable} {b b' : Body} {same : Bool} {u u' : SupportUse}

theorem expandBody_ok (h : expandBody tt b u = .ok ((b', same), u')) :
    b' = { b with root := b'.root } ∧
      Transform.body (expandExpr tt b.func.declaringType) b.root u
        = .ok ((b'.root, same), u') := by
  unfold expandBody at h
  split at h
  · rename_i root same' use hrun
    cases h
    exact ⟨rfl, hrun⟩
  · cases h
  · cases h

/-- Statements declare nothing. -/
theorem notes_all {type : Bytes} {root : Stmt}
    (h : Notes ((root.slots.flatMap Expr.nodes).map (type, ·)) u u') :
    Notes ((Node.all root).map (type, ·)) u u' := by
  have hexprs := h.perm ((Node.gathers_stmt root).symm.map _)
  refine ⟨?_, h.distinct, fun op => ?_, h.rising⟩
  · have hsame : ∀ nodes : List Node,
        ((nodes.filter Node.isExpr).map (type, ·)).filterMap
          (fun (type, n) => n.heapSize?.map (type, ·))
          = (nodes.map (type, ·)).filterMap fun (type, n) => n.heapSize?.map (type, ·) := by
      intro nodes
      rw [List.filterMap_map, List.filterMap_map, List.filterMap_filter]
      refine List.filterMap_congr fun n _ => ?_
      cases n <;> rfl
    have hsizes := hexprs.sizes
    rw [hsame] at hsizes
    exact hsizes
  · rw [hexprs.imports]
    refine or_congr_right ⟨fun ⟨x, hx, hop⟩ => ?_, fun ⟨x, hx, hop⟩ => ?_⟩
    · obtain ⟨n, hn, rfl⟩ := List.mem_map.mp hx
      exact ⟨_, List.mem_map_of_mem (List.mem_filter.mp hn).1, hop⟩
    · obtain ⟨n, hn, rfl⟩ := List.mem_map.mp hx
      cases n with
      | stmt s => cases hop
      | expr e => exact ⟨_, List.mem_map_of_mem (List.mem_filter.mpr ⟨hn, rfl⟩), hop⟩

theorem notes_expandBody (h : expandBody tt b u = .ok ((b', same), u')) : Notes b.nodes u u' :=
  notes_all ((Transform.body_eq_ok (expandBody_ok h).2).2.1.tally (tallies_notes tt _))

/-- What comes of a body, if the calls that become calls of the harness have the given
operations. -/
theorem bodyExpands_of_expandBody {ops : HarnessOp → Prop}
    (hops : ∀ n ∈ Node.all b.root, ∀ op, n.operation? = some op → ops op)
    (h : expandBody tt b u = .ok ((b', same), u')) : BodyExpands tt ops b b' := by
  obtain ⟨hb', hbody⟩ := expandBody_ok h
  obtain ⟨hrest, himages, -⟩ := Transform.body_eq_ok hbody
  refine ⟨by rw [hb'], by rw [hb'], hrest, ⟨u, u', himages⟩, ?_, ?_⟩
  · refine (Stmt.each_iff fun _ => trivial).mpr
      (himages.each (P := fun _ => True) ?_ fun _ _ _ _ => trivial)
    intro e shown new v v' _ _ hbelow answer
    cases new with
    | some x =>
      exact (stands_of_expandExpr admits_settled (fun _ _ => trivial) hbelow answer).1.each
    | none => exact each_of_slots (settled_of_expandExpr answer) hbelow
  · let before (op : HarnessOp) : Prop := ∃ n ∈ Node.all b.root, n.harness? = some op
    let Allows (n : Node) : Prop :=
      (∀ op, n.operation? = some op → ops op) ∧ ∀ op, n.harness? = some op → before op
    have hbefore : b.root.Each Allows := fun n hn => ⟨hops n hn, fun op hop => ⟨n, hn, hop⟩⟩
    refine (Stmt.each_iff fun _ _ h => nomatch h).mpr (himages.each ?_
      ((Stmt.each_iff fun _ => ⟨nofun, nofun⟩).mp hbefore))
    intro e shown new v v' hrest here hbelow answer
    cases new with
    | some x =>
      refine (stands_of_expandExpr (admits_harness fun op => ops op ∨ before op) ?_ hbelow
        answer).1.each
      intro op hop
      exact .inl (here.1 op (by rwa [operation?_shown hrest] at hop))
    | none =>
      refine each_of_slots (fun op hop => ?_) hbelow
      exact .inr (here.2 op ((harness?_shown hrest).symm.trans hop))

/-- All that expansion makes in a body. -/
theorem BodyExpands.made {ops : HarnessOp → Prop} (h : BodyExpands tt ops b b')
    (hfront : ∀ n ∈ Node.all b.root, n.IsFrontEnd)
    (hops : ∀ n ∈ Node.all b.root, ∀ op, n.operation? = some op → ops op) :
    ∀ n ∈ Node.all b'.root, n.Made ops := by
  let Before (n : Node) : Prop := n.IsFrontEnd ∧ ∀ op, n.operation? = some op → ops op
  have hbefore : b.root.Each Before := fun n hn => ⟨hfront n hn, hops n hn⟩
  obtain ⟨u, u', himages⟩ := h.images
  refine (Stmt.each_iff fun _ => trivial).mpr (himages.each ?_
    ((Stmt.each_iff fun _ => ⟨trivial, nofun⟩).mp hbefore))
  intro e shown new v v' hrest here hbelow answer
  cases new with
  | some x =>
    refine (stands_of_expandExpr (admits_made ops) (fun op hop => ?_) hbelow answer).1.each
    exact here.2 op (by rwa [operation?_shown hrest] at hop)
  | none =>
    refine each_of_slots (Node.IsFrontEnd.made ?_) hbelow
    show shown.kind ≤ 12
    rw [← kind_hollow shown, hrest, kind_hollow]
    exact here.1

/-- A body in which everything is settled is expanded to itself. -/
theorem expandBody_of_settled (h : b.root.Each Node.Settled) (u : SupportUse) :
    ∃ u', expandBody tt b u = .ok ((b, true), u') := by
  have hleft : ∀ e ∈ b.root.slots, e.Each (Node.LeftBy (expandExpr tt b.func.declaringType)) := by
    refine (Stmt.each_iff fun _ => trivial).mp fun n hn => ?_
    exact leftBy_of_settled (h n hn)
  obtain ⟨u', hbody⟩ := Transform.body_eq_of_left hleft u
  refine ⟨u', ?_⟩
  unfold expandBody
  rw [hbody]

theorem mapM_of_settled : ∀ {l : List Body}, (∀ b ∈ l, b.root.Each Node.Settled) →
    ∀ u, ∃ u', l.mapM (expandBody tt) u = .ok (l.map (·, true), u')
  | [], _, u => ⟨u, rfl⟩
  | b :: rest, h, u => by
    obtain ⟨hb, hrest⟩ := List.forall_mem_cons.mp h
    obtain ⟨v, hfirst⟩ : ∃ v, expandBody tt b u = .ok ((b, true), v) :=
      expandBody_of_settled hb u
    obtain ⟨u', hmore⟩ := mapM_of_settled hrest v
    refine ⟨u', ?_⟩
    rw [List.mapM_cons]
    show (expandBody tt b u >>= fun x => _) = _
    rw [hfirst]
    show (rest.mapM (expandBody tt) v >>= fun x => _) = _
    rw [hmore]
    rfl

/-- Bodies are expanded one after the other, and what they declare is noted. -/
theorem mapM_ok : ∀ {l : List Body} {rs : List (Body × Bool)} {u u' : SupportUse},
    l.mapM (expandBody tt) u = .ok (rs, u') →
    List.Forall₂ (fun b r => ∃ v v', expandBody tt b v = .ok (r, v')) l rs
      ∧ Notes (l.flatMap Body.nodes) u u'
  | [], rs, u, u', h => by
    obtain ⟨rfl, rfl⟩ := Prod.mk.inj (Except.ok.inj h)
    exact ⟨.nil, notes_nil _⟩
  | b :: rest, rs, u, u', h => by
    rw [List.mapM_cons] at h
    obtain ⟨r, v, hfirst, h⟩ := bind_ok h
    obtain ⟨more, v', hmore, h⟩ := bind_ok h
    obtain ⟨rfl, rfl⟩ := Prod.mk.inj (Except.ok.inj h)
    obtain ⟨hruns, hnotes⟩ := mapM_ok hmore
    exact ⟨.cons ⟨u, v, hfirst⟩ hruns, (notes_expandBody hfirst).append hnotes⟩

end

/-- What expansion makes of the functions `l` of a program. -/
structure Complete (p : Program) (l : List Body) (x : Expanded) : Prop where
  /-- Every body is expanded. -/
  bodies : ∀ b ∈ l, ∃ b' ∈ x.bodies, BodyExpands p.types (· ∈ x.use.imports) b b'
  /-- Nothing else comes out. -/
  origins : ∀ b' ∈ x.bodies, ∃ b ∈ l, BodyExpands p.types (· ∈ x.use.imports) b b'
  /-- What is settled, calls of instructions with unfit operands too, is left as it is. -/
  left : ∀ owner (n : Node), n.Settled → n.LeftBy (expandExpr p.types owner)
  /-- The operations that are used are those that calls become. -/
  imports : ∀ op, op ∈ x.use.imports ↔ ∃ b ∈ l, ∃ n ∈ Node.all b.root, n.operation? = some op
  rising : (x.use.imports.map HarnessOp.code).Pairwise (· < ·)
  /-- A type has the heap size that a call in one of its functions declares, which is a literal, and
  there is no other such call. -/
  heapSizes : ∀ type, (l.filter (·.func.declaringType = type)).flatMap Body.heapSizes
    = (x.use.heapSizes.lookup type).toList.map fun n => some (Int64.ofNat n.toNat)
  /-- Expanding the bodies again leaves them all. -/
  again : ∃ y, expand (p.withBodies x.bodies) = .ok y
    ∧ y.bodies.map (·.root) = x.bodies.map (·.root) ∧ ∀ same ∈ y.untouched, same = true

/-- What the functions of one type declare, among what all declare. -/
theorem declared_of_type (type : Bytes) : ∀ l : List Body,
    (((l.flatMap Body.nodes).filterMap fun (type, n) => n.heapSize?.map (type, ·)).filter
        (·.1 = type)).map Prod.snd
      = (l.filter (·.func.declaringType = type)).flatMap Body.heapSizes
  | [] => rfl
  | b :: rest => by
    have hb : (b.nodes.filterMap fun (type, n) => n.heapSize?.map (type, ·))
        = b.heapSizes.map (b.func.declaringType, ·) := by
      rw [Body.nodes, Body.heapSizes, List.filterMap_map, List.map_filterMap]
      rfl
    rw [List.flatMap_cons, List.filterMap_append, List.filter_append, List.map_append, hb,
      declared_of_type type rest]
    by_cases htype : b.func.declaringType = type <;>
      simp [htype, List.filter_map, Function.comp_def]

/-- What is noted for one type, if no type is noted twice. -/
theorem noted_of_type (type : Bytes) : ∀ l : List (Bytes × UInt32), (l.map Prod.fst).Nodup →
    ((l.map fun (type, n) => (type, some (Int64.ofNat n.toNat))).filter
        (·.1 = type)).map Prod.snd
      = (l.lookup type).toList.map fun n => some (Int64.ofNat n.toNat)
  | [], _ => rfl
  | (t, n) :: rest, h => by
    obtain ⟨ht, hrest⟩ := List.nodup_cons.mp h
    have ih := noted_of_type type rest hrest
    rw [List.map_cons]
    by_cases htype : t = type
    · subst htype
      have hlookup : rest.lookup t = none := List.lookup_eq_none_iff.mpr fun x hx =>
        bne_iff_ne.mpr fun heq => ht (List.mem_map.mpr ⟨x, hx, heq.symm⟩)
      rw [hlookup] at ih
      simp only [decide_true, List.filter_cons_of_pos, List.map_cons, ih, List.lookup_cons_self]
      rfl
    · have hlookup : ((t, n) :: rest).lookup type = rest.lookup type := by
        rw [List.lookup_cons, beq_false_of_ne (Ne.symm htype)]
      rw [hlookup, ← ih]
      simp [htype]

/-- Lists of at most one element are equal if one is the other in another order. -/
theorem eq_of_perm_toList {α β : Type} {l : List β} {o : Option α} {f : α → β}
    (h : l.Perm (o.toList.map f)) : l = o.toList.map f := by
  cases o with
  | none => exact h.eq_nil
  | some a => exact h.eq_singleton

section

variable {p : Program} {x : Expanded}

/-- Expanding a program goes through its bodies. -/
theorem expand_ok (h : expand p = .ok x) :
    ∃ rs use, p.bodies.mapM (expandBody p.types) {} = .ok (rs, use)
      ∧ x = ⟨rs.map (·.1), rs.map (·.2), use⟩ := by
  unfold expand at h
  cases hrun : (p.bodies.mapM (expandBody p.types)).run {} with
  | error f =>
    rw [hrun] at h
    cases h
  | ok r =>
    rw [hrun] at h
    exact ⟨r.1, r.2, hrun, (Except.ok.inj h).symm⟩

/-- A program in which everything is settled is expanded to itself. -/
theorem expand_of_settled (h : ∀ b ∈ p.bodies, b.root.Each Node.Settled) :
    ∃ y, expand p = .ok y ∧ y.bodies = p.bodies ∧ ∀ same ∈ y.untouched, same = true := by
  obtain ⟨use, hmap⟩ : ∃ use, p.bodies.mapM (expandBody p.types) {}
      = .ok (p.bodies.map (·, true), use) := mapM_of_settled h {}
  refine ⟨⟨(p.bodies.map (·, true)).map (·.1), (p.bodies.map (·, true)).map (·.2), use⟩, ?_, ?_, ?_⟩
  · unfold expand
    rw [show (p.bodies.mapM (expandBody p.types)).run {} = _ from hmap]
    rfl
  · rw [List.map_map]
    exact List.map_id _
  · simp

theorem notes_of_expand (h : expand p = .ok x) :
    Notes (p.bodies.flatMap Body.nodes) {} x.use := by
  obtain ⟨rs, use, hmap, rfl⟩ := expand_ok h
  exact (mapM_ok hmap).2

theorem mem_imports (h : expand p = .ok x) (op : HarnessOp) : op ∈ x.use.imports ↔
    ∃ b ∈ p.bodies, ∃ n ∈ Node.all b.root, n.operation? = some op := by
  rw [(notes_of_expand h).imports]
  simp only [List.not_mem_nil, false_or, List.mem_flatMap, Body.nodes, List.mem_map]
  constructor
  · rintro ⟨_, ⟨b, hb, n, hn, rfl⟩, hop⟩
    exact ⟨b, hb, n, hn, hop⟩
  · rintro ⟨b, hb, n, hn, hop⟩
    exact ⟨_, ⟨b, hb, n, hn, rfl⟩, hop⟩

theorem bodyExpands_of_expand (h : expand p = .ok x) :
    List.Forall₂ (BodyExpands p.types (· ∈ x.use.imports)) p.bodies x.bodies := by
  have himports := mem_imports h
  obtain ⟨rs, use, hmap, rfl⟩ := expand_ok h
  rw [List.forall₂_map_right_iff]
  have hruns := (List.forall₂_and_left (p := (· ∈ p.bodies)) _ _).mpr
    ⟨fun _ => id, (mapM_ok hmap).1⟩
  refine hruns.imp ?_
  rintro b ⟨b', same⟩ ⟨hb, v, v', hrun⟩
  exact bodyExpands_of_expandBody (fun n hn op hop => (himports op).mpr ⟨b, hb, n, hn, hop⟩) hrun

/-- All that expansion makes in a program. -/
theorem made_of_expand (h : expand p = .ok x) (hfront : p.IsFrontEnd) :
    ∀ b ∈ x.bodies, ∀ n ∈ Node.all b.root, n.Made (· ∈ x.use.imports) := by
  intro b' hb'
  have hruns := (List.forall₂_and_left (p := (· ∈ p.bodies)) _ _).mpr
    ⟨fun _ => id, bodyExpands_of_expand h⟩
  obtain ⟨b, -, hb, hexpands⟩ := exists_of_forall₂ hruns hb'
  exact hexpands.made (hfront b hb) fun n hn op hop => (mem_imports h op).mpr ⟨b, hb, n, hn, hop⟩

/-- A body in which everything is settled is one of the bodies that come out. -/
theorem mem_bodies_of_settled {b : Body} (h : expand p = .ok x) (hb : b ∈ p.bodies)
    (hsettled : b.root.Each Node.Settled) : b ∈ x.bodies := by
  obtain ⟨rs, use, hmap, rfl⟩ := expand_ok h
  obtain ⟨r, hr, v, v', hrun⟩ := exists_of_forall₂ (mapM_ok hmap).1.flip hb
  obtain ⟨u', hleft⟩ : ∃ u', expandBody p.types b v = .ok ((b, true), u') :=
    expandBody_of_settled hsettled v
  obtain ⟨rfl, -⟩ := Prod.mk.inj (Except.ok.inj (hrun.symm.trans hleft))
  exact List.mem_map_of_mem hr

/-- Of the heap sizes for one type there is none, or the one that was noted. -/
theorem heapSizes_of_expand (h : expand p = .ok x) (type : Bytes) :
    (p.bodies.filter (·.func.declaringType = type)).flatMap Body.heapSizes
      = (x.use.heapSizes.lookup type).toList.map fun n => some (Int64.ofNat n.toNat) := by
  have hnotes := notes_of_expand h
  refine eq_of_perm_toList ?_
  rw [← noted_of_type type _ (hnotes.distinct List.nodup_nil), ← declared_of_type]
  exact ((hnotes.sizes.filter _).map _).symm

/-- Expanding the expanded bodies again leaves them all. -/
theorem expand_again (h : expand p = .ok x) :
    ∃ y, expand (p.withBodies x.bodies) = .ok y ∧ y.bodies.map (·.root) = x.bodies.map (·.root)
      ∧ ∀ same ∈ y.untouched, same = true := by
  have hbodies := bodyExpands_of_expand h
  have hfound : List.Forall₂ (fun b b' => (Program.rebuilt x.bodies b).root = b'.root) p.bodies
      x.bodies := by
    have hmem := (List.forall₂_and_left (p := (· ∈ x.bodies)) _ _).mpr ⟨fun _ => id, hbodies.flip⟩
    refine hmem.flip.imp fun b b' ⟨hb', hb⟩ => ?_
    have hfind := Program.find?_id (map_id_of_expand h ▸ p.nodup_ids_bodies) hb'
    rw [hb.id] at hfind
    unfold Program.rebuilt
    rw [hfind]
  have hroots : (p.withBodies x.bodies).bodies.map (·.root) = x.bodies.map (·.root) := by
    rw [Program.bodies_withBodies, List.map_map, ← List.forall₂_eq_eq_eq,
      List.forall₂_map_left_iff, List.forall₂_map_right_iff]
    exact hfound
  have hsettled : ∀ b ∈ (p.withBodies x.bodies).bodies, b.root.Each Node.Settled := by
    intro b hb
    have hroot := List.mem_map_of_mem (f := (·.root)) hb
    rw [hroots] at hroot
    obtain ⟨b', hb', heq⟩ := List.mem_map.mp hroot
    obtain ⟨_, _, hexpands⟩ := exists_of_forall₂ hbodies hb'
    rw [← heq]
    exact hexpands.settled
  obtain ⟨y, hy, hsame, huntouched⟩ := expand_of_settled hsettled
  exact ⟨y, hy, by rw [hsame, hroots], huntouched⟩

/-- Expansion is complete: it leaves no call to the support library but those of instructions with
unfit operands, it notes every operation and every heap size that calls declare, each once, and
expanding again changes nothing. All functions are among those that are worked on, if no type has a
second static constructor. -/
theorem expand_complete (h : expand p = .ok x) :
    Complete p p.bodies x ∧ (p.SingleCtors → Complete p p.functions x) := by
  have hbodies := bodyExpands_of_expand h
  have hcomplete : Complete p p.bodies x :=
    { bodies := fun b hb => exists_of_forall₂ hbodies.flip hb
      origins := fun b' hb' => exists_of_forall₂ hbodies hb'
      left := fun owner n => leftBy_of_settled
      imports := mem_imports h
      rising := (notes_of_expand h).rising .nil
      heapSizes := heapSizes_of_expand h
      again := expand_again h }
  refine ⟨hcomplete, fun hctors => ?_⟩
  have hperm := Program.perm_functions hctors
  exact
    { hcomplete with
      bodies := fun b hb => hcomplete.bodies b (hperm.mem_iff.mpr hb)
      origins := fun b' hb' =>
        let ⟨b, hb, hexpands⟩ := hcomplete.origins b' hb'
        ⟨b, hperm.mem_iff.mp hb, hexpands⟩
      imports := fun op => by simp only [hcomplete.imports, hperm.mem_iff]
      heapSizes := fun type => by
        refine eq_of_perm_toList ?_
        rw [← hcomplete.heapSizes]
        exact ((hperm.filter _).flatMap_right _).symm }

end

/-- A program of a type whose static constructors declare the given heap sizes. -/
def heapProgram (sizes : List Int64) : Program :=
  let declare (size : Int64) : Expr := .call { type := TypeTable.void } ⟨"Wasm.Heap", "SetHeapSize"⟩
    none true .missing (some [.literal { type := TypeTable.int32 } { kind := .int, int := size }])
  { name := "heap"
    decls := some [{
      name := "T"
      funcs := some (sizes.mapIdx fun i size =>
        { name := "Init" ++ Bytes.ofNat i, declaringType := "T", flags := 9
          result := TypeTable.void
          body := .block { id := 2 * UInt32.ofNat i + 1 } (some [
            .expr { id := 2 * UInt32.ofNat i + 2 } (declare size)]) }) }] }

/-- One constructor declares sixteen bytes. -/
theorem expand_complete_heap : ∃ x, expand (heapProgram [16]) = .ok x
    ∧ x.use.heapSizes = [(("T" : Bytes), 16)]
    ∧ Complete (heapProgram [16]) (heapProgram [16]).functions x := by
  have hexpand : (expand (heapProgram [16])).toOption.any
      fun x => x.use.heapSizes = [(("T" : Bytes), 16)] := by decide +kernel
  obtain ⟨x, hx, hsizes⟩ := (Option.any_eq_true _ _).mp hexpand
  have hctors : (heapProgram [16]).SingleCtors := by
    unfold Program.SingleCtors
    decide
  exact ⟨x, ok_of_toOption hx, of_decide_eq_true hsizes,
    (expand_complete (ok_of_toOption hx)).2 hctors⟩

/-- A second constructor may declare another size: it is not expanded, and the size is not noted. -/
theorem heap_size_lost : ∃ x, expand (heapProgram [16, 32]) = .ok x
    ∧ x.use.heapSizes = [(("T" : Bytes), 16)]
    ∧ ¬Complete (heapProgram [16, 32]) (heapProgram [16, 32]).functions x := by
  have hexpand : (expand (heapProgram [16, 32])).toOption.any
      fun x => x.use.heapSizes = [(("T" : Bytes), 16)] := by decide +kernel
  obtain ⟨x, hx, hsizes⟩ := (Option.any_eq_true _ _).mp hexpand
  have hnoted := of_decide_eq_true hsizes
  refine ⟨x, ok_of_toOption hx, hnoted, fun hcomplete => ?_⟩
  have hdeclared := hcomplete.heapSizes "T"
  rw [hnoted] at hdeclared
  exact absurd hdeclared (by decide +kernel)

end Support

end WastForge
