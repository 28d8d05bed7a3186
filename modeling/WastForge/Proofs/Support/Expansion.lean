import WastForge.Proofs.Support.Keeps

/-!
# Expanded programs

The expansion of a program has its functions with the same jumps, and if the program names no
instructions, the only ones that its expansion names are those of the support library.
-/

namespace WastForge

theorem ok_of_toOption {ε α : Type} {r : Except ε α} {x : α} (h : r.toOption = some x) :
    r = .ok x := by
  cases r with
  | error e => cases h
  | ok y => exact congrArg _ (Option.some.inj h)

theorem exists_of_forall₂ {α β : Type} {R : α → β → Prop} {l : List α} {l' : List β} {b : β}
    (h : List.Forall₂ R l l') (hb : b ∈ l') : ∃ a ∈ l, R a b := by
  induction h with
  | nil => cases hb
  | cons hab _ ih =>
    rcases List.mem_cons.mp hb with rfl | hb
    · exact ⟨_, List.mem_cons_self, hab⟩
    · obtain ⟨a, ha, hR⟩ := ih hb
      exact ⟨a, List.mem_cons_of_mem _ ha, hR⟩

/-- The instructions that calls to the support library may stand for. -/
def SupportMember.instructions : List Bytes :=
  ["f64.sqrt", "f64.floor", "f64.ceil", "f64.abs", "f64.min", "f64.max"]

theorem SupportMember.mem_instructions {name instruction : Bytes} {arity : Nat}
    (h : ofName? name = some (.math instruction arity)) : instruction ∈ instructions := by
  unfold ofName? at h
  iterate 21
    rcases ite_eq_iff.mp h with ⟨_, h⟩ | ⟨_, h⟩
    · cases h <;> decide
  cases h

/-- The operation of the harness that a call to a member becomes. -/
def SupportMember.operation? : SupportMember → Option HarnessOp
  | .setStdout => some .stdoutOpen
  | .write => some .stdoutWrite
  | _ => none

/-- How many operands an operation of the harness takes. -/
def HarnessOp.arity (op : HarnessOp) : Nat :=
  if op = stdoutOpen then 1 else if op = stdoutWrite then 2 else 0

namespace Support

open WastForge.Expr

/-- A property of nodes that holds of all nodes that expansion makes; the operations of the harness
are those of `ops`. -/
structure Admits (ops : HarnessOp → Prop) (P : Node → Prop) : Prop where
  literal : ∀ a l, P (.expr (.literal a l))
  binary : ∀ a op x y, P (.expr (.binary a op x y))
  memory : ∀ a isStore t aligned x y, P (.expr (.memory a isStore t aligned x y))
  stringLength : ∀ a x, P (.expr (.stringLength a x))
  comma : ∀ a xs, P (.expr (.comma a xs))
  intrinsic : ∀ a w xs, w ∈ SupportMember.instructions → P (.expr (.intrinsic a w xs))
  invoke : ∀ a name xs, P (.expr (.invoke a name xs))
  assertion : ∀ a isEq x name xs, P (.expr (.assertion a isEq x name xs))
  assertHeap : ∀ a offset count text fromFile,
    P (.expr (.assertHeap a offset count text fromFile))
  harnessCall : ∀ a op xs, ops op → (Rows.items xs).length = op.arity →
    P (.expr (.harnessCall a op xs))

variable {ops : HarnessOp → Prop} {P : Node → Prop}

theorem each_unbox : ∀ {e : Expr}, Each P e → Each P (unbox e)
  | .cast a x, h => by
    unfold unbox
    split
    · exact each_unbox (each_cast.mp h).2
    · exact h
  | .missing, h | .bare .., h | .literal .., h | .variable .., h | .binary .., h | .unary .., h
  | .call .., h | .field .., h | .property .., h | .reference .., h | .comma .., h
  | .conditional .., h | .arrayInit .., h | .memory .., h | .stringLength .., h
  | .intrinsic .., h | .invoke .., h | .assertion .., h | .assertHeap .., h
  | .harnessCall .., h => h

theorem each_combine (hP : Admits ops P) {tt : TypeTable} {op : BinaryOp}
    {fold : Int64 → Int64 → Int64} {x y : Expr} (hx : Each P x) (hy : Each P y) :
    Each P (Address.combine tt op fold x y) := by
  unfold Address.combine
  split
  · exact each_literal.mpr (hP.literal _ _)
  · exact each_binary.mpr ⟨hP.binary _ _ _ _, hx, hy⟩

theorem each_ofIndices (hP : Admits ops P) {tt : TypeTable} {view : HeapView} {first : Expr}
    {second : Option Expr} (hfirst : Each P first) (hsecond : ∀ e, second = some e → Each P e) :
    Each P (Address.ofIndices tt view first second) := by
  have hscaled : ∀ e, Each P e → Each P (Address.scaled tt view e) := by
    intro e he
    cases view with
    | u8 => exact he
    | i32 => exact each_combine hP he (each_literal.mpr (hP.literal _ _))
  cases second with
  | none => exact hscaled _ hfirst
  | some e => exact hscaled _ (each_combine hP hfirst (hsecond e rfl))

theorem gives_argumentList {e : Expr} (he : Each P e) : Gives (EachRow P) (argumentList e) := by
  unfold argumentList
  split
  · rename_i elements hasInit
    refine gives_ite (fun hinit => gives_pure ?_) fun _ => ?_
    · rw [each_arrayInit, if_pos hinit, eachRow_iff] at he
      rw [eachRow_some, eachOf_iff]
      intro x hx
      obtain ⟨y, hy, rfl⟩ := List.mem_map.mp hx
      exact each_unbox (he.2 y hy)
    · exact gives_ite (fun _ => gives_pure eachRow_none) fun _ => gives_problem _ _ _
  · exact gives_absent
  · exact gives_problem _ _ _

theorem gives_elementAddress (hP : Admits ops P) {tt : TypeTable} {view : HeapView} {first : Expr}
    {second : Option Expr} (hfirst : Each P first) (hsecond : ∀ e, second = some e → Each P e) :
    Gives (Each P) (elementAddress tt view first second) :=
  gives_ite (fun _ => gives_absent) fun _ => gives_pure (each_ofIndices hP hfirst hsecond)

/-- An expression that a call may become: it is there, is no literal, and its nodes have the
property. -/
structure Stands (P : Node → Prop) (e : Expr) : Prop where
  there : e.isMissing = false
  literal : e.literal? = none
  each : Each P e

theorem gives_assertion (hP : Admits ops P) {span : Span} {isEq : Bool}
    {expected name args : Expr} (hexpected : Each P expected) (hargs : Each P args) :
    Gives (Stands P) (assertion span isEq expected name args) := by
  refine gives_bind (gives_any _) fun exportName _ => ?_
  refine gives_bind (gives_argumentList hargs) fun list hlist => gives_pure ⟨rfl, rfl, ?_⟩
  rw [each_assertion]
  exact ⟨hP.assertion _ _ _ _ _, each_unbox hexpected, hlist⟩

theorem stands_assertHeap (hP : Admits ops P) (a : Annot) (offset count : Int64) (text : Bytes)
    (fromFile : Bool) : Stands P (.assertHeap a offset count text fromFile) :=
  ⟨rfl, rfl, each_assertHeap.mpr (hP.assertHeap _ _ _ _ _)⟩

theorem gives_assertHeap (hP : Admits ops P) (span : Span) (offset : Expr) (count : Option Expr)
    (expected : Expr) : Gives (Stands P) (assertHeap span offset count expected) := by
  unfold assertHeap
  split
  · exact gives_problem _ _ _
  split
  · exact gives_problem _ _ _
  exact gives_ite (fun _ => gives_pure (stands_assertHeap hP _ _ _ _ _))
    fun _ => gives_problem _ _ _

theorem gives_assertHeapFile (hP : Admits ops P) (span : Span) (offset count path : Expr) :
    Gives (Stands P) (assertHeapFile span offset count path) := by
  unfold assertHeapFile
  split
  · exact gives_ite (fun _ => gives_pure (stands_assertHeap hP _ _ _ _ _))
      fun _ => gives_problem _ _ _
  · exact gives_problem _ _ _

theorem gives_harnessCall (hP : Admits ops P) (span : Span) {op : HarnessOp} (hop : ops op)
    {args : Option (List Expr)} (hlength : (Rows.items args).length = op.arity)
    (hargs : EachRow P args) : Gives (Stands P) (harnessCall span op args) := by
  refine gives_bind (gives_any _) fun _ _ => gives_pure ⟨rfl, rfl, ?_⟩
  exact each_harnessCall.mpr ⟨hP.harnessCall _ _ _ hop hlength, hargs⟩

/-- The member is an instruction, but the operands are not as many numbers as it takes. None of them
is missing that has to be looked at to tell. -/
def Unfit (member : SupportMember) (params : Option (List TypeId)) (args : Option (List Expr)) :
    Prop :=
  ∃ instruction arity, member = .math instruction arity
    ∧ ((Rows.items args).length = arity && asksMissing (params.getD []) (Rows.items args)) = false
    ∧ ((Rows.items args).length = arity && allDouble (params.getD []) (Rows.items args)) = false

/-- What may come of a call: an expression in its place, or the call is left because the operands do
not fit. -/
structure Outcome (P : Node → Prop) (member : SupportMember) (params : Option (List TypeId))
    (args : Option (List Expr)) (new : Option Expr) : Prop where
  stands : ∀ e, new = some e → Stands P e
  unfit : new = none → Unfit member params args

variable {member : SupportMember} {params : Option (List TypeId)} {args : Option (List Expr)}

theorem outcome_some {e : Expr} (h : Stands P e) : Outcome P member params args (some e) where
  stands := fun e' he' => by
    obtain rfl := Option.some.inj he'
    exact h
  unfit := fun h => nomatch h

theorem gives_outcome {act : ExpandM Expr} (h : Gives (Stands P) act) :
    Gives (Outcome P member params args) (do return some (← act)) :=
  gives_bind h fun _ he => gives_pure (outcome_some he)

/-- What a call to the support library stands for has the properties that its receiver and its
arguments have. -/
theorem gives_expandCall (hP : Admits ops P) (hops : ∀ op, member.operation? = some op → ops op)
    {tt : TypeTable} {owner name : Bytes} {a : Annot} {target : MemberRef} {receiver : Expr}
    (hmember : SupportMember.ofName? name = some member) (hreceiver : Each P receiver)
    (hargs : EachRow P args) :
    Gives (Outcome P member params args)
      (expandCall tt owner member a target params receiver args) := by
  have hitems := eachRow_iff.mp hargs
  have hload : ∀ {member t address}, Each P address →
      Outcome P member params args (some (.memory a false t false address .missing)) :=
    fun haddress => outcome_some
      ⟨rfl, rfl, each_memory.mpr ⟨hP.memory _ _ _ _ _ _, haddress, each_missing⟩⟩
  have hstore : ∀ {member t address value}, Each P address → Each P value →
      Outcome P member params args
        (some (.memory ⟨TypeTable.void, a.span⟩ true t false address value)) :=
    fun haddress hvalue => outcome_some
      ⟨rfl, rfl, each_memory.mpr ⟨hP.memory _ _ _ _ _ _, haddress, hvalue⟩⟩
  have hremoved : ∀ {member}, Outcome P member params args (some (removed a.span)) :=
    outcome_some ⟨rfl, rfl, each_comma.mpr ⟨hP.comma _ _, eachRow_none⟩⟩
  unfold expandCall
  simp only
  split
  · rename_i instruction arity
    refine gives_ite (fun _ => gives_absent) fun hthere => ?_
    refine gives_ite (fun _ => gives_pure ?_) fun hfit => gives_pure ⟨fun _ h => (nomatch h), ?_⟩
    · refine outcome_some ⟨rfl, rfl, each_intrinsic.mpr ⟨hP.intrinsic _ _ _ ?_, hargs⟩⟩
      exact SupportMember.mem_instructions hmember
    · exact fun _ =>
        ⟨instruction, arity, rfl, Bool.eq_false_iff.mpr hthere, Bool.eq_false_iff.mpr hfit⟩
  · rename_i i heq
    rw [heq, List.forall_mem_singleton] at hitems
    refine gives_bind (gives_elementAddress hP hitems fun _ h => nomatch h) fun _ haddress => ?_
    exact gives_pure (hload haddress)
  · rename_i i j heq
    rw [heq, List.forall_mem_cons, List.forall_mem_singleton] at hitems
    refine gives_bind (gives_elementAddress hP hitems.1 fun e h => ?_) fun _ haddress =>
      gives_pure (hload haddress)
    cases h
    exact hitems.2
  · rename_i i v heq
    rw [heq, List.forall_mem_cons, List.forall_mem_singleton] at hitems
    refine gives_bind (gives_elementAddress hP hitems.1 fun _ h => nomatch h) fun _ haddress => ?_
    exact gives_pure (hstore haddress hitems.2)
  · rename_i i j v heq
    rw [heq, List.forall_mem_cons, List.forall_mem_cons, List.forall_mem_singleton] at hitems
    refine gives_bind (gives_elementAddress hP hitems.1 fun e h => ?_) fun _ haddress =>
      gives_pure (hstore haddress hitems.2.2)
    cases h
    exact hitems.2.1
  · rename_i i heq
    rw [heq, List.forall_mem_singleton] at hitems
    refine gives_ite (fun _ => gives_problem _ _ _) fun _ => ?_
    exact gives_pure (hload (each_combine hP hreceiver hitems))
  · refine gives_ite (fun _ => gives_problem _ _ _) fun _ => gives_pure (outcome_some ?_)
    exact ⟨rfl, rfl, each_stringLength.mpr ⟨hP.stringLength _ _, hreceiver⟩⟩
  · exact gives_bind (gives_any _) fun _ _ => gives_pure hremoved
  · exact gives_pure hremoved
  · rename_i list heq
    rw [heq, List.forall_mem_cons, List.forall_mem_singleton] at hitems
    refine gives_bind (gives_any _) fun exportName _ => ?_
    refine gives_bind (gives_argumentList hitems.2) fun l hl => gives_pure (outcome_some ?_)
    exact ⟨rfl, rfl, each_invoke.mpr ⟨hP.invoke _ _ _, hl⟩⟩
  · rename_i expected exportName list heq
    rw [heq, List.forall_mem_cons, List.forall_mem_cons, List.forall_mem_singleton] at hitems
    exact gives_outcome (gives_assertion hP hitems.1 hitems.2.2)
  · rename_i expected exportName list heq
    rw [heq, List.forall_mem_cons, List.forall_mem_cons, List.forall_mem_singleton] at hitems
    exact gives_outcome (gives_assertion hP hitems.1 hitems.2.2)
  · exact gives_outcome (gives_assertHeap hP _ _ _ _)
  · exact gives_outcome (gives_assertHeap hP _ _ _ _)
  · exact gives_outcome (gives_assertHeapFile hP _ _ _ _)
  · rename_i heq
    exact gives_outcome (gives_harnessCall hP _ (hops _ rfl) (congrArg List.length heq) hargs)
  · rename_i heq
    exact gives_outcome (gives_harnessCall hP _ (hops _ rfl) (congrArg List.length heq) hargs)
  · exact gives_problem _ _ _

variable {Q : Bytes → Prop}

/-- The only instructions that expansion makes are those of the support library. -/
theorem admits_names (hQ : ∀ w ∈ SupportMember.instructions, Q w) :
    Admits (fun _ => True) (Node.Names Q) where
  literal := fun _ _ => trivial
  binary := fun _ _ _ _ => trivial
  memory := fun _ _ _ _ _ _ => trivial
  stringLength := fun _ _ => trivial
  comma := fun _ _ => trivial
  intrinsic := fun _ _ _ => hQ _
  invoke := fun _ _ _ => trivial
  assertion := fun _ _ _ _ _ => trivial
  assertHeap := fun _ _ _ _ _ => trivial
  harnessCall := fun _ _ _ _ _ => trivial

theorem names_true (x : Node) : x.Names fun _ => True := by
  cases x with
  | stmt s => trivial
  | expr e => cases e <;> trivial

theorem keeps_expandExpr (hQ : ∀ w ∈ SupportMember.instructions, Q w) (tt : TypeTable)
    (owner : Bytes) : Transform.Keeps Q (expandExpr tt owner) := by
  intro e
  cases e with
  | call a target params isStatic receiver args =>
    simp only [expandExpr]
    cases hmember : SupportMember.ofName? target.text with
    | none => exact gives_pure (Becomes.refl (.call a target params isStatic receiver args))
    | some member =>
      intro u new u' hrun
      cases new with
      | none => exact Becomes.refl _
      | some e' =>
        refine ⟨?_, fun hnames => ?_⟩
        · -- whatever the arguments name, the replacement is there
          have hthere := gives_expandCall (admits_names (Q := fun _ => True) fun _ _ => trivial)
            (fun _ _ => trivial) hmember (fun x _ => names_true x) (fun x _ => names_true x) u _ u'
            hrun
          exact (hthere.stands e' rfl).there
        · rw [each_call] at hnames
          exact ((gives_expandCall (admits_names hQ) (fun _ _ => trivial) hmember hnames.2.1
            hnames.2.2 u _ u' hrun).stands e' rfl).each
  | _ => exact gives_pure (Becomes.refl _)

/-- A body and its expansion. -/
structure BodyBecomes (Q : Bytes → Prop) (b b' : Body) : Prop where
  id : b'.id = b.id
  func : b'.func = b.func
  root : Stmt.Becomes Q b.root b'.root

theorem gives_expandBody (hQ : ∀ w ∈ SupportMember.instructions, Q w) (tt : TypeTable) (b : Body) :
    Gives (fun r => BodyBecomes Q b r.1) (expandBody tt b) := by
  intro u r u' h
  unfold expandBody at h
  have hbody := Transform.gives_body (keeps_expandExpr hQ tt b.func.declaringType) b.root
  split at h
  · rename_i root same use hrun
    cases h
    exact ⟨rfl, rfl, hbody _ _ _ hrun⟩
  · cases h
  · cases h

/-- The bodies of a program and their expansions. -/
theorem forall₂_of_expand (hQ : ∀ w ∈ SupportMember.instructions, Q w) {p : Program} {x : Expanded}
    (h : expand p = .ok x) : List.Forall₂ (BodyBecomes Q) p.bodies x.bodies := by
  unfold expand at h
  have hmap := gives_mapM (gives_expandBody hQ p.types) p.bodies
  cases hrun : (p.bodies.mapM (expandBody p.types)).run {} with
  | error e =>
    rw [hrun] at h
    cases h
  | ok r =>
    rw [hrun] at h
    cases h
    exact List.forall₂_map_right_iff.mpr (hmap _ _ _ hrun)

/-- Every function has a body again. -/
theorem ids_of_expand {p : Program} {x : Expanded} (h : expand p = .ok x) :
    List.Forall₂ (fun b b' => b'.id = b.id ∧ b'.func = b.func) p.bodies x.bodies :=
  (forall₂_of_expand (Q := fun _ => True) (fun _ _ => trivial) h).imp
    fun _ _ hb => ⟨hb.id, hb.func⟩

theorem map_id_of_expand {p : Program} {x : Expanded} (h : expand p = .ok x) :
    x.bodies.map (·.id) = p.bodies.map (·.id) := by
  rw [← List.forall₂_eq_eq_eq, List.forall₂_map_left_iff, List.forall₂_map_right_iff]
  exact (ids_of_expand h).flip.imp fun _ _ hb => hb.1

end Support

end WastForge
