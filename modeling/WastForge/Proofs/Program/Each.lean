import WastForge.Program.Basic
import WastForge.Program.Walk

/-!
# Properties of all nodes

What it means for a property of nodes to hold everywhere in an expression or statement, one
constructor at a time. A statement that is met in a body has all its nodes in the body. A property
of all parts holds also where no visitor comes: of the size of an array that is made from its
elements, and of the elements of one that is made from its size.

Only one kind of expression gives an instruction by its name. Programs as they are handed over have
none of that kind, nor any other kind that the expansion of support calls makes.
-/

namespace WastForge

/-- Every node of an expression has the property. -/
def Expr.Each (P : Node → Prop) (e : Expr) : Prop := ∀ x ∈ Node.ofExpr (fun _ => true) e, P x

/-- Every node of a list of expressions that may be left out has the property. -/
def Expr.EachRow (P : Node → Prop) (rows : Option (List Expr)) : Prop :=
  ∀ x ∈ Node.ofExprRows (fun _ => true) rows, P x

/-- Every node of a list of expressions has the property. -/
def Expr.EachOf (P : Node → Prop) (l : List Expr) : Prop :=
  ∀ x ∈ Node.ofExprs (fun _ => true) l, P x

namespace Expr

variable {P : Node → Prop}

/-- What holds of all nodes holds of the first one and of what stands below it. -/
theorem forall_below {n : Node} {parts : List Node} :
    (∀ x ∈ Node.below (fun _ => true) n parts, P x) ↔ P n ∧ ∀ x ∈ parts, P x := by
  simp [Node.below]

theorem forall_append {a b : List Node} :
    (∀ x ∈ a ++ b, P x) ↔ (∀ x ∈ a, P x) ∧ ∀ x ∈ b, P x := by
  simp only [List.mem_append, or_imp, forall_and]

@[simp] theorem each_missing : Each P .missing :=
  List.forall_mem_nil _

@[simp] theorem eachRow_none : EachRow P none :=
  List.forall_mem_nil _

@[simp] theorem eachRow_some {l : List Expr} : EachRow P (some l) ↔ EachOf P l := Iff.rfl

@[simp] theorem eachOf_nil : EachOf P [] :=
  List.forall_mem_nil _

@[simp] theorem eachOf_cons {e : Expr} {l : List Expr} :
    EachOf P (e :: l) ↔ Each P e ∧ EachOf P l := forall_append

theorem eachRow_items {rows : Option (List Expr)} (h : EachRow P rows) :
    EachOf P (Rows.items rows) := by
  cases rows with
  | none => exact eachOf_nil
  | some l => exact h

theorem eachOf_iff {l : List Expr} : EachOf P l ↔ ∀ e ∈ l, Each P e := by
  induction l with
  | nil => simp
  | cons e rest ih => simp [ih]

theorem eachRow_iff {rows : Option (List Expr)} :
    EachRow P rows ↔ ∀ e ∈ Rows.items rows, Each P e := by
  cases rows with
  | none => simp [Rows.items]
  | some l => exact eachOf_iff

variable {a : Annot}

@[simp] theorem each_bare {k : UInt8} : Each P (.bare a k) ↔ P (.expr (.bare a k)) :=
  List.forall_mem_singleton

@[simp] theorem each_literal {l : Literal} :
    Each P (.literal a l) ↔ P (.expr (.literal a l)) :=
  List.forall_mem_singleton

@[simp] theorem each_variable {name : Bytes} {isParam : Bool} :
    Each P (.variable a name isParam) ↔ P (.expr (.variable a name isParam)) :=
  List.forall_mem_singleton

@[simp] theorem each_binary {op : BinaryOp} {l r : Expr} :
    Each P (.binary a op l r) ↔ P (.expr (.binary a op l r)) ∧ Each P l ∧ Each P r :=
  forall_below.trans (and_congr_right fun _ => forall_append)

@[simp] theorem each_unary {op : UnaryOp} {x : Expr} :
    Each P (.unary a op x) ↔ P (.expr (.unary a op x)) ∧ Each P x :=
  forall_below

@[simp] theorem each_call {target : MemberRef} {params : Option (List TypeId)} {isStatic : Bool}
    {receiver : Expr} {args : Option (List Expr)} :
    Each P (.call a target params isStatic receiver args) ↔
      P (.expr (.call a target params isStatic receiver args)) ∧ Each P receiver
        ∧ EachRow P args :=
  forall_below.trans (and_congr_right fun _ => forall_append)

@[simp] theorem each_field {target : MemberRef} {isStatic : Bool} {receiver : Expr} :
    Each P (.field a target isStatic receiver) ↔
      P (.expr (.field a target isStatic receiver)) ∧ Each P receiver :=
  forall_below

@[simp] theorem each_property {target getter setter : MemberRef} {isStatic : Bool}
    {receiver : Expr} :
    Each P (.property a target getter setter isStatic receiver) ↔
      P (.expr (.property a target getter setter isStatic receiver)) ∧ Each P receiver :=
  forall_below

@[simp] theorem each_cast {x : Expr} :
    Each P (.cast a x) ↔ P (.expr (.cast a x)) ∧ Each P x :=
  forall_below

@[simp] theorem each_reference {x : Expr} :
    Each P (.reference a x) ↔ P (.expr (.reference a x)) ∧ Each P x :=
  forall_below

@[simp] theorem each_comma {xs : Option (List Expr)} :
    Each P (.comma a xs) ↔ P (.expr (.comma a xs)) ∧ EachRow P xs :=
  forall_below

@[simp] theorem each_conditional {c x y : Expr} :
    Each P (.conditional a c x y) ↔
      P (.expr (.conditional a c x y)) ∧ Each P c ∧ Each P x ∧ Each P y := by
  rw [Each, Node.ofExpr, forall_below, forall_append, forall_append, and_assoc]
  rfl

@[simp] theorem each_arrayInit {elem : TypeId} {size : Expr} {elements : Option (List Expr)}
    {hasInit : Bool} :
    Each P (.arrayInit a elem size elements hasInit) ↔
      P (.expr (.arrayInit a elem size elements hasInit))
        ∧ if hasInit then EachRow P elements else Each P size := by
  rw [Each, Node.ofExpr, forall_below]
  cases hasInit <;> rfl

@[simp] theorem each_memory {isStore aligned : Bool} {target : TypeId} {address value : Expr} :
    Each P (.memory a isStore target aligned address value) ↔
      P (.expr (.memory a isStore target aligned address value)) ∧ Each P address
        ∧ Each P value :=
  forall_below.trans (and_congr_right fun _ => forall_append)

@[simp] theorem each_stringLength {x : Expr} :
    Each P (.stringLength a x) ↔ P (.expr (.stringLength a x)) ∧ Each P x :=
  forall_below

@[simp] theorem each_intrinsic {op : Bytes} {args : Option (List Expr)} :
    Each P (.intrinsic a op args) ↔ P (.expr (.intrinsic a op args)) ∧ EachRow P args :=
  forall_below

@[simp] theorem each_invoke {name : Bytes} {args : Option (List Expr)} :
    Each P (.invoke a name args) ↔ P (.expr (.invoke a name args)) ∧ EachRow P args :=
  forall_below

@[simp] theorem each_assertion {isEq : Bool} {expected : Expr} {name : Bytes}
    {args : Option (List Expr)} :
    Each P (.assertion a isEq expected name args) ↔
      P (.expr (.assertion a isEq expected name args)) ∧ Each P expected ∧ EachRow P args :=
  forall_below.trans (and_congr_right fun _ => forall_append)

@[simp] theorem each_assertHeap {offset count : Int64} {expected : Bytes} {fromFile : Bool} :
    Each P (.assertHeap a offset count expected fromFile) ↔
      P (.expr (.assertHeap a offset count expected fromFile)) :=
  List.forall_mem_singleton

@[simp] theorem each_harnessCall {op : HarnessOp} {args : Option (List Expr)} :
    Each P (.harnessCall a op args) ↔ P (.expr (.harnessCall a op args)) ∧ EachRow P args :=
  forall_below

end Expr

/-- Every node of a statement has the property. -/
def Stmt.Each (P : Node → Prop) (s : Stmt) : Prop := ∀ x ∈ Node.ofStmt (fun _ => true) s, P x

/-- Every node of a list of statements that may be left out has the property. -/
def Stmt.EachRow (P : Node → Prop) (rows : Option (List Stmt)) : Prop :=
  ∀ x ∈ Node.ofStmtRows (fun _ => true) rows, P x

/-- Every node of a list of statements has the property. -/
def Stmt.EachOf (P : Node → Prop) (l : List Stmt) : Prop :=
  ∀ x ∈ Node.ofStmts (fun _ => true) l, P x

/-- Every node of the labels of a group that may be left out has the property. -/
def Label.EachRow (P : Node → Prop) (rows : Option (List Label)) : Prop :=
  ∀ x ∈ Node.ofLabelRows (fun _ => true) rows, P x

/-- Every node of labels has the property. -/
def Label.EachOf (P : Node → Prop) (l : List Label) : Prop :=
  ∀ x ∈ Node.ofLabels (fun _ => true) l, P x

/-- Every node of the arms of a switch that may be left out has the property. -/
def Case.EachRow (P : Node → Prop) (rows : Option (List Case)) : Prop :=
  ∀ x ∈ Node.ofCaseRows (fun _ => true) rows, P x

/-- Every node of arms has the property. -/
def Case.EachOf (P : Node → Prop) (l : List Case) : Prop :=
  ∀ x ∈ Node.ofCases (fun _ => true) l, P x

namespace Stmt

open WastForge.Expr (forall_below forall_append)

variable {P : Node → Prop} {m : Mark}

@[simp] theorem each_missing : Each P .missing :=
  List.forall_mem_nil _

@[simp] theorem eachRow_none : EachRow P none :=
  List.forall_mem_nil _

@[simp] theorem eachRow_some {l : List Stmt} : EachRow P (some l) ↔ EachOf P l := Iff.rfl

@[simp] theorem eachOf_nil : EachOf P [] :=
  List.forall_mem_nil _

@[simp] theorem eachOf_cons {s : Stmt} {l : List Stmt} :
    EachOf P (s :: l) ↔ Each P s ∧ EachOf P l := forall_append

@[simp] theorem eachLabelRow_none : Label.EachRow P none :=
  List.forall_mem_nil _

@[simp] theorem eachLabelRow_some {l : List Label} :
    Label.EachRow P (some l) ↔ Label.EachOf P l := Iff.rfl

@[simp] theorem eachLabel_nil : Label.EachOf P [] :=
  List.forall_mem_nil _

@[simp] theorem eachLabel_cons {name : Bytes} {body : Option (List Stmt)} {l : List Label} :
    Label.EachOf P (.mk name body :: l) ↔ EachRow P body ∧ Label.EachOf P l := forall_append

@[simp] theorem eachCaseRow_none : Case.EachRow P none :=
  List.forall_mem_nil _

@[simp] theorem eachCaseRow_some {l : List Case} :
    Case.EachRow P (some l) ↔ Case.EachOf P l := Iff.rfl

@[simp] theorem eachCase_nil : Case.EachOf P [] :=
  List.forall_mem_nil _

@[simp] theorem eachCase_cons {values : Option (List Expr)} {isDefault : Bool}
    {body : Option (List Stmt)} {l : List Case} :
    Case.EachOf P (.mk values isDefault body :: l) ↔
      Expr.EachRow P values ∧ EachRow P body ∧ Case.EachOf P l := by
  rw [Case.EachOf, Node.ofCases, forall_append, forall_append, and_assoc]
  rfl

@[simp] theorem each_bare {k : UInt8} : Each P (.bare m k) ↔ P (.stmt (.bare m k)) :=
  List.forall_mem_singleton

@[simp] theorem each_goto {label : Bytes} : Each P (.goto m label) ↔ P (.stmt (.goto m label)) :=
  List.forall_mem_singleton

@[simp] theorem each_branch {isContinue : Bool} {target : LoopIndex} :
    Each P (.branch m isContinue target) ↔ P (.stmt (.branch m isContinue target)) :=
  List.forall_mem_singleton

@[simp] theorem each_block {rows : Option (List Stmt)} :
    Each P (.block m rows) ↔ P (.stmt (.block m rows)) ∧ EachRow P rows :=
  forall_below

@[simp] theorem each_expr {e : Expr} :
    Each P (.expr m e) ↔ P (.stmt (.expr m e)) ∧ Expr.Each P e :=
  forall_below

@[simp] theorem each_ite {c : Expr} {yes no : Stmt} :
    Each P (.ite m c yes no) ↔
      P (.stmt (.ite m c yes no)) ∧ Expr.Each P c ∧ Each P yes ∧ Each P no := by
  rw [Each, Node.ofStmt, forall_below, forall_append, forall_append, and_assoc]
  rfl

@[simp] theorem each_forLoop {index : LoopIndex} {init : Option (List Stmt)} {cond : Expr}
    {post : Option (List Expr)} {body : Stmt} :
    Each P (.forLoop m index init cond post body) ↔
      P (.stmt (.forLoop m index init cond post body)) ∧ EachRow P init ∧ Expr.Each P cond
        ∧ Each P body ∧ Expr.EachRow P post := by
  rw [Each, Node.ofStmt, forall_below, forall_append, forall_append, forall_append, and_assoc,
    and_assoc]
  rfl

@[simp] theorem each_whileLoop {testLast : Bool} {index : LoopIndex} {cond : Expr}
    {body : Stmt} :
    Each P (.whileLoop m testLast index cond body) ↔
      P (.stmt (.whileLoop m testLast index cond body)) ∧ Expr.Each P cond ∧ Each P body := by
  rw [Each, Node.ofStmt, forall_below]
  cases testLast with
  | true =>
    rw [if_pos rfl, forall_append, and_comm (a := ∀ x ∈ Node.ofStmt _ body, P x)]
    rfl
  | false =>
    rw [if_neg Bool.false_ne_true, forall_append]
    rfl

@[simp] theorem each_labelGroup {rows : Option (List Label)} :
    Each P (.labelGroup m rows) ↔ P (.stmt (.labelGroup m rows)) ∧ Label.EachRow P rows :=
  forall_below

@[simp] theorem each_ret {value : Expr} :
    Each P (.ret m value) ↔ P (.stmt (.ret m value)) ∧ Expr.Each P value :=
  forall_below

@[simp] theorem each_switch {index : LoopIndex} {key : Expr} {cases : Option (List Case)} :
    Each P (.switch m index key cases) ↔
      P (.stmt (.switch m index key cases)) ∧ Expr.Each P key ∧ Case.EachRow P cases :=
  forall_below.trans (and_congr_right fun _ => forall_append)

@[simp] theorem each_varDecl {vars : Option (List VarInit)} :
    Each P (.varDecl m vars) ↔
      P (.stmt (.varDecl m vars)) ∧ ∀ v ∈ Rows.items vars, Expr.Each P v.init := by
  rw [Each, Node.ofStmt, forall_below]
  refine and_congr_right fun _ => ?_
  simp only [List.mem_flatMap, forall_exists_index, and_imp]
  exact ⟨fun h v hv x hx => h x v hv hx, fun h x v hv hx => h v hv x hx⟩

end Stmt

namespace Node

variable (descend : Node → Bool) {s : Stmt}

theorem mem_below {n x : Node} {parts : List Node} (h : x ∈ below descend n parts) :
    x = n ∨ x ∈ parts := by
  rcases List.mem_cons.mp h with rfl | h
  · exact .inl rfl
  · split at h
    · exact .inr h
    · cases h

mutual

/-- There are no statements in expressions. -/
theorem stmt_not_mem_ofExpr : ∀ e : Expr, Node.stmt s ∉ ofExpr descend e
  | .missing => List.not_mem_nil
  | .binary m op l r => fun h => by
    rcases mem_below descend h with h | h
    · cases h
    · rcases List.mem_append.mp h with h | h
      · exact stmt_not_mem_ofExpr l h
      · exact stmt_not_mem_ofExpr r h
  | .call m a b d receiver args => fun h => by
    rcases mem_below descend h with h | h
    · cases h
    · rcases List.mem_append.mp h with h | h
      · exact stmt_not_mem_ofExpr receiver h
      · exact stmt_not_mem_ofExprRows args h
  | .conditional m c a b => fun h => by
    rcases mem_below descend h with h | h
    · cases h
    · rcases List.mem_append.mp h with h | h
      · rcases List.mem_append.mp h with h | h
        · exact stmt_not_mem_ofExpr c h
        · exact stmt_not_mem_ofExpr a h
      · exact stmt_not_mem_ofExpr b h
  | .arrayInit m a size elements hasInit => fun h => by
    rcases mem_below descend h with h | h
    · cases h
    · split at h
      · exact stmt_not_mem_ofExprRows elements h
      · exact stmt_not_mem_ofExpr size h
  | .memory m a b d address value => fun h => by
    rcases mem_below descend h with h | h
    · cases h
    · rcases List.mem_append.mp h with h | h
      · exact stmt_not_mem_ofExpr address h
      · exact stmt_not_mem_ofExpr value h
  | .assertion m a expected b args => fun h => by
    rcases mem_below descend h with h | h
    · cases h
    · rcases List.mem_append.mp h with h | h
      · exact stmt_not_mem_ofExpr expected h
      · exact stmt_not_mem_ofExprRows args h
  | .unary m a x | .field m a b x | .property m a b d e x | .cast m x | .reference m x
  | .stringLength m x => fun h => by
    rcases mem_below descend h with h | h
    · cases h
    · exact stmt_not_mem_ofExpr x h
  | .comma m xs | .intrinsic m a xs | .invoke m a xs | .harnessCall m a xs => fun h => by
    rcases mem_below descend h with h | h
    · cases h
    · exact stmt_not_mem_ofExprRows xs h
  | .bare .. | .literal .. | .variable .. | .assertHeap .. => fun h => by
    cases List.mem_singleton.mp h

theorem stmt_not_mem_ofExprRows : ∀ xs : Option (List Expr), Node.stmt s ∉ ofExprRows descend xs
  | none => List.not_mem_nil
  | some l => stmt_not_mem_ofExprs l

theorem stmt_not_mem_ofExprs : ∀ l : List Expr, Node.stmt s ∉ ofExprs descend l
  | [] => List.not_mem_nil
  | e :: rest => fun h => by
    rcases List.mem_append.mp h with h | h
    · exact stmt_not_mem_ofExpr e h
    · exact stmt_not_mem_ofExprs rest h

end

/-- What a statement among nodes is made of is among them too. -/
def Closed (nodes : List Node) : Prop :=
  ∀ s, Node.stmt s ∈ nodes → ∀ x ∈ all s, x ∈ nodes

theorem closed_of_none {nodes : List Node} (h : ∀ s, Node.stmt s ∉ nodes) : Closed nodes :=
  fun s hs => absurd hs (h s)

theorem closed_append {a b : List Node} (ha : Closed a) (hb : Closed b) : Closed (a ++ b) := by
  intro s hs x hx
  rcases List.mem_append.mp hs with hs | hs
  · exact List.mem_append_left b (ha s hs x hx)
  · exact List.mem_append_right a (hb s hs x hx)

/-- The nodes of a statement are itself and what it is made of. -/
theorem closed_cons {s : Stmt} {parts : List Node} (hall : all s = .stmt s :: parts)
    (h : Closed parts) : Closed (.stmt s :: parts) := by
  intro t ht x hx
  rcases List.mem_cons.mp ht with ht | ht
  · cases ht
    rwa [hall] at hx
  · exact List.mem_cons_of_mem _ (h t ht x hx)

theorem closed_ofExpr (e : Expr) : Closed (ofExpr (fun _ => true) e) :=
  closed_of_none fun _ => stmt_not_mem_ofExpr _ e

theorem closed_ofExprRows (xs : Option (List Expr)) : Closed (ofExprRows (fun _ => true) xs) :=
  closed_of_none fun _ => stmt_not_mem_ofExprRows _ xs

mutual

theorem closed_ofStmt : ∀ s : Stmt, Closed (ofStmt (fun _ => true) s)
  | .missing => closed_of_none fun _ => List.not_mem_nil
  | .block m stmts => closed_cons rfl (closed_ofStmtRows stmts)
  | .expr m e => closed_cons rfl (closed_ofExpr e)
  | .ite m c a b =>
    closed_cons rfl
      (closed_append (closed_append (closed_ofExpr c) (closed_ofStmt a)) (closed_ofStmt b))
  | .forLoop m own init cond post body =>
    closed_cons rfl (closed_append
      (closed_append (closed_append (closed_ofStmtRows init) (closed_ofExpr cond))
        (closed_ofStmt body)) (closed_ofExprRows post))
  | .whileLoop m true own cond body =>
    closed_cons rfl (closed_append (closed_ofStmt body) (closed_ofExpr cond))
  | .whileLoop m false own cond body =>
    closed_cons rfl (closed_append (closed_ofExpr cond) (closed_ofStmt body))
  | .labelGroup m labels => closed_cons rfl (closed_ofLabelRows labels)
  | .ret m value => closed_cons rfl (closed_ofExpr value)
  | .switch m own key cases =>
    closed_cons rfl (closed_append (closed_ofExpr key) (closed_ofCaseRows cases))
  | .varDecl m vars => by
    refine closed_cons rfl (closed_of_none fun s hs => ?_)
    obtain ⟨v, _, hv⟩ := List.mem_flatMap.mp hs
    exact stmt_not_mem_ofExpr _ v.init hv
  | .bare .. | .goto .. | .branch .. => closed_cons rfl (closed_of_none fun _ => List.not_mem_nil)

theorem closed_ofStmtRows : ∀ rows : Option (List Stmt), Closed (ofStmtRows (fun _ => true) rows)
  | none => closed_of_none fun _ => List.not_mem_nil
  | some l => closed_ofStmts l

theorem closed_ofStmts : ∀ l : List Stmt, Closed (ofStmts (fun _ => true) l)
  | [] => closed_of_none fun _ => List.not_mem_nil
  | s :: rest => closed_append (closed_ofStmt s) (closed_ofStmts rest)

theorem closed_ofLabelRows :
    ∀ rows : Option (List Label), Closed (ofLabelRows (fun _ => true) rows)
  | none => closed_of_none fun _ => List.not_mem_nil
  | some l => closed_ofLabels l

theorem closed_ofLabels : ∀ l : List Label, Closed (ofLabels (fun _ => true) l)
  | [] => closed_of_none fun _ => List.not_mem_nil
  | .mk _ body :: rest => closed_append (closed_ofStmtRows body) (closed_ofLabels rest)

theorem closed_ofCaseRows : ∀ rows : Option (List Case), Closed (ofCaseRows (fun _ => true) rows)
  | none => closed_of_none fun _ => List.not_mem_nil
  | some l => closed_ofCases l

theorem closed_ofCases : ∀ l : List Case, Closed (ofCases (fun _ => true) l)
  | [] => closed_of_none fun _ => List.not_mem_nil
  | .mk values _ body :: rest =>
    closed_append (closed_append (closed_ofExprRows values) (closed_ofStmtRows body))
      (closed_ofCases rest)

end

/-- A statement that is met in a body has all its nodes there. -/
theorem mem_all_of_mem {root s : Stmt} {x : Node} (hs : Node.stmt s ∈ all root) (hx : x ∈ all s) :
    x ∈ all root :=
  closed_ofStmt root s hs x hx

end Node

/-- The expressions that an expression is made of. -/
def Expr.parts : Expr → List Expr
  | .binary _ _ l r => [l, r]
  | .unary _ _ x | .cast _ x | .reference _ x | .stringLength _ x => [x]
  | .call _ _ _ _ receiver args => receiver :: Rows.items args
  | .field _ _ _ receiver | .property _ _ _ _ _ receiver => [receiver]
  | .comma _ xs => Rows.items xs
  | .conditional _ c x y => [c, x, y]
  | .arrayInit _ _ size elements _ => size :: Rows.items elements
  | .memory _ _ _ _ address value => [address, value]
  | .intrinsic _ _ args | .invoke _ _ args | .harnessCall _ _ args => Rows.items args
  | .assertion _ _ expected _ args => expected :: Rows.items args
  | .missing | .bare .. | .literal .. | .variable .. | .assertHeap .. => []

/-- The expressions that stand in a statement itself. -/
def Stmt.exprs : Stmt → List Expr
  | .expr _ e => [e]
  | .ite _ c _ _ => [c]
  | .forLoop _ _ _ cond post _ => cond :: Rows.items post
  | .whileLoop _ _ _ cond _ => [cond]
  | .ret _ value => [value]
  | .switch _ _ key cases => key :: (Rows.items cases).flatMap fun c => Rows.items c.values
  | .varDecl _ vars => (Rows.items vars).map (·.init)
  | .missing | .bare .. | .block .. | .labelGroup .. | .goto .. | .branch .. => []

/-- The statements that a statement is made of. -/
def Stmt.parts : Stmt → List Stmt
  | .block _ stmts => Rows.items stmts
  | .ite _ _ x y => [x, y]
  | .forLoop _ _ init _ _ body => body :: Rows.items init
  | .whileLoop _ _ _ _ body => [body]
  | .labelGroup _ labels => (Rows.items labels).flatMap fun l => Rows.items l.body
  | .switch _ _ _ cases => (Rows.items cases).flatMap fun c => Rows.items c.body
  | .missing | .bare .. | .expr .. | .goto .. | .branch .. | .ret .. | .varDecl .. => []

/-- The property holds of an expression and of all that it is made of. -/
inductive Expr.Throughout (P : Expr → Prop) : Expr → Prop where
  | intro {e : Expr} (here : P e) (below : ∀ x ∈ e.parts, Expr.Throughout P x) :
      Expr.Throughout P e

/-- The property `P` holds of all expressions in a statement, and `Q` of the statement and of all
statements that it is made of. -/
inductive Stmt.Throughout (P : Expr → Prop) (Q : Stmt → Prop) : Stmt → Prop where
  | intro {s : Stmt} (here : Q s) (exprs : ∀ x ∈ s.exprs, x.Throughout P)
      (below : ∀ t ∈ s.parts, Stmt.Throughout P Q t) : Stmt.Throughout P Q s

theorem Expr.Throughout.and {P P' : Expr → Prop} {e : Expr} (h : e.Throughout P)
    (h' : e.Throughout P') : e.Throughout fun x => P x ∧ P' x := by
  induction h with
  | intro here _ ih =>
    obtain ⟨here', below'⟩ := h'
    exact .intro ⟨here, here'⟩ fun x hx => ih x hx (below' x hx)

theorem Stmt.Throughout.and {P P' : Expr → Prop} {Q Q' : Stmt → Prop} {s : Stmt}
    (h : s.Throughout P Q) (h' : s.Throughout P' Q') :
    s.Throughout (fun x => P x ∧ P' x) fun t => Q t ∧ Q' t := by
  induction h with
  | intro here exprs _ ih =>
    obtain ⟨here', exprs', below'⟩ := h'
    exact .intro ⟨here, here'⟩ (fun x hx => (exprs x hx).and (exprs' x hx))
      fun t ht => ih t ht (below' t ht)

/-- The properties hold of all expressions and statements in the bodies of a program. -/
def Program.Throughout (P : Expr → Prop) (Q : Stmt → Prop) (p : Program) : Prop :=
  ∀ d ∈ Rows.items p.decls, ∀ f ∈ Rows.items d.funcs, f.body.Throughout P Q

namespace Node

/-- An instruction that the node gives by its name has the property. -/
def Names (P : Bytes → Prop) : Node → Prop
  | .expr (.intrinsic _ op _) => P op
  | _ => True

/-- The node is of a kind that a program may have before support calls are expanded. -/
def IsFrontEnd : Node → Prop
  | .expr e => e.kind ≤ 12
  | .stmt _ => True

instance : DecidablePred IsFrontEnd
  | .expr e => inferInstanceAs (Decidable (e.kind ≤ 12))
  | .stmt _ => inferInstanceAs (Decidable True)

theorem IsFrontEnd.names {P : Bytes → Prop} {x : Node} (h : x.IsFrontEnd) : x.Names P := by
  cases x with
  | stmt s => trivial
  | expr e =>
    cases e with
    | intrinsic a op args => exact absurd (show (16 : UInt8) ≤ 12 from h) (by decide)
    | _ => trivial

end Node

/-- Every body has only expressions that a program may have before support calls are expanded. -/
def Program.IsFrontEnd (p : Program) : Prop :=
  ∀ b ∈ p.bodies, ∀ x ∈ Node.all b.root, x.IsFrontEnd

instance (p : Program) : Decidable p.IsFrontEnd :=
  inferInstanceAs (Decidable (∀ b ∈ p.bodies, ∀ x ∈ Node.all b.root, x.IsFrontEnd))

end WastForge
