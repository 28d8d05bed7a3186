import WastForge.Proofs.Program.Each

/-!
# Slots

An expression has slots, in which other expressions stand or nothing does, and so has a statement
together with all statements below it. What stands in the slots and the rest, in which the slots
are hollow, are the whole tree, and the expressions that a visitor meets are those in the slots.
-/

namespace WastForge

namespace Expr

/-- The slots of an expression, in the order in which they are mapped. -/
def slots : Expr → List Expr
  | .binary _ _ l r => [l, r]
  | .unary _ _ x | .field _ _ _ x | .property _ _ _ _ _ x | .cast _ x | .reference _ x
  | .stringLength _ x => [x]
  | .call _ _ _ _ receiver args => receiver :: Rows.items args
  | .comma _ xs | .intrinsic _ _ xs | .invoke _ _ xs | .harnessCall _ _ xs => Rows.items xs
  | .conditional _ c x y => [c, x, y]
  | .arrayInit _ _ size elements hasInit => if hasInit then Rows.items elements else [size]
  | .memory _ _ _ _ address value => [address, value]
  | .assertion _ _ expected _ args => expected :: Rows.items args
  | .missing | .bare .. | .literal .. | .variable .. | .assertHeap .. => []

/-- As many slots with nothing in them. -/
def hollowAll (l : List Expr) : List Expr := l.map fun _ => .missing

/-- The expression with nothing in its slots. -/
def hollow : Expr → Expr
  | .binary a op _ _ => .binary a op .missing .missing
  | .unary a op _ => .unary a op .missing
  | .call a target params isStatic _ args =>
    .call a target params isStatic .missing (args.map hollowAll)
  | .field a target isStatic _ => .field a target isStatic .missing
  | .property a target getter setter isStatic _ =>
    .property a target getter setter isStatic .missing
  | .cast a _ => .cast a .missing
  | .reference a _ => .reference a .missing
  | .comma a xs => .comma a (xs.map hollowAll)
  | .conditional a _ _ _ => .conditional a .missing .missing .missing
  | .arrayInit a elem size elements hasInit =>
    if hasInit then .arrayInit a elem size (elements.map hollowAll) hasInit
    else .arrayInit a elem .missing elements hasInit
  | .memory a isStore target aligned _ _ => .memory a isStore target aligned .missing .missing
  | .stringLength a _ => .stringLength a .missing
  | .intrinsic a op args => .intrinsic a op (args.map hollowAll)
  | .invoke a name args => .invoke a name (args.map hollowAll)
  | .assertion a isEq _ name args => .assertion a isEq .missing name (args.map hollowAll)
  | .harnessCall a op args => .harnessCall a op (args.map hollowAll)
  | e => e

/-- The expression with the expressions `l` in its slots. -/
def fill : Expr → List Expr → Expr
  | .binary a op _ _, [l, r] => .binary a op l r
  | .unary a op _, [x] => .unary a op x
  | .call a target params isStatic _ args, x :: l =>
    .call a target params isStatic x (args.map fun _ => l)
  | .field a target isStatic _, [x] => .field a target isStatic x
  | .property a target getter setter isStatic _, [x] => .property a target getter setter isStatic x
  | .cast a _, [x] => .cast a x
  | .reference a _, [x] => .reference a x
  | .comma a xs, l => .comma a (xs.map fun _ => l)
  | .conditional a _ _ _, [c, x, y] => .conditional a c x y
  | .arrayInit a elem size elements true, l => .arrayInit a elem size (elements.map fun _ => l) true
  | .arrayInit a elem _ elements false, [x] => .arrayInit a elem x elements false
  | .memory a isStore target aligned _ _, [x, y] => .memory a isStore target aligned x y
  | .stringLength a _, [x] => .stringLength a x
  | .intrinsic a op args, l => .intrinsic a op (args.map fun _ => l)
  | .invoke a name args, l => .invoke a name (args.map fun _ => l)
  | .assertion a isEq _ name args, x :: l => .assertion a isEq x name (args.map fun _ => l)
  | .harnessCall a op args, l => .harnessCall a op (args.map fun _ => l)
  | e, _ => e

theorem map_items (xs : Option (List Expr)) :
    ((xs.map hollowAll).map fun _ => Rows.items xs) = xs := by
  cases xs <;> rfl

/-- Nothing is lost between the slots and the rest. -/
theorem fill_slots (e : Expr) : e.hollow.fill e.slots = e := by
  cases e with
  | arrayInit a elem size elements hasInit =>
    cases hasInit with
    | true => exact congrArg (Expr.arrayInit a elem size · true) (map_items elements)
    | false => rfl
  | call a target params isStatic receiver args =>
    exact congrArg (Expr.call a target params isStatic receiver) (map_items args)
  | assertion a isEq expected name args =>
    exact congrArg (Expr.assertion a isEq expected name) (map_items args)
  | comma a xs => exact congrArg (Expr.comma a) (map_items xs)
  | intrinsic a op args => exact congrArg (Expr.intrinsic a op) (map_items args)
  | invoke a name args => exact congrArg (Expr.invoke a name) (map_items args)
  | harnessCall a op args => exact congrArg (Expr.harnessCall a op) (map_items args)
  | _ => rfl

/-- What stands in the slots and the rest are the whole expression. -/
theorem eq_of_hollow_of_slots {e e' : Expr} (hrest : e.hollow = e'.hollow)
    (hslots : e.slots = e'.slots) : e = e' := by
  rw [← fill_slots e, hrest, hslots, fill_slots]

/-- All nodes of an expression. -/
def nodes (e : Expr) : List Node := Node.ofExpr (fun _ => true) e

theorem nodes_rows (rows : Option (List Expr)) :
    Node.ofExprRows (fun _ => true) rows = (Rows.items rows).flatMap nodes := by
  cases rows with
  | none => rfl
  | some l =>
    show Node.ofExprs (fun _ => true) l = l.flatMap nodes
    induction l with
    | nil => rfl
    | cons e rest ih => exact congrArg (e.nodes ++ ·) ih

/-- The nodes of an expression are itself and those of its slots. -/
theorem nodes_eq {e : Expr} (h : e.isMissing = false) :
    e.nodes = .expr e :: e.slots.flatMap nodes := by
  cases e with
  | missing => cases h
  | arrayInit a elem size elements hasInit =>
    cases hasInit <;> simp [nodes, slots, Node.ofExpr, Node.below, nodes_rows]
  | _ => simp [nodes, slots, Node.ofExpr, Node.below, nodes_rows]

theorem each_iff {P : Node → Prop} {e : Expr} (h : e.isMissing = false) :
    Each P e ↔ P (.expr e) ∧ ∀ x ∈ e.slots, Each P x := by
  unfold Each
  rw [show Node.ofExpr (fun _ => true) e = _ from nodes_eq h, List.forall_mem_cons]
  refine and_congr_right fun _ => ?_
  simp only [List.mem_flatMap, forall_exists_index, and_imp]
  exact ⟨fun h x hx n hn => h n x hx hn, fun h n x hx hn => h x hx n hn⟩

theorem each_of_slots {P : Node → Prop} {e : Expr} (here : P (.expr e))
    (hbelow : ∀ x ∈ e.slots, Each P x) : Each P e := by
  cases h : e.isMissing with
  | false => exact (each_iff h).mpr ⟨here, hbelow⟩
  | true =>
    cases e <;> cases h
    exact each_missing

end Expr

namespace Stmt

mutual

/-- The slots of a statement and of all statements below it, in the order in which they are
mapped. -/
def slots : Stmt → List Expr
  | .block _ stmts => slotsRows stmts
  | .expr _ e => [e]
  | .ite _ c x y => c :: (x.slots ++ y.slots)
  | .forLoop _ _ init cond post body => slotsRows init ++ cond :: (body.slots ++ Rows.items post)
  | .whileLoop _ _ _ cond body => cond :: body.slots
  | .labelGroup _ labels => slotsLabelRows labels
  | .ret _ value => [value]
  | .switch _ _ key cases => key :: slotsCaseRows cases
  | .varDecl _ vars => (Rows.items vars).map (·.init)
  | .missing | .bare .. | .goto .. | .branch .. => []

/-- The slots of a list of statements that may be left out. -/
def slotsRows : Option (List Stmt) → List Expr
  | none => []
  | some l => slotsAll l

/-- The slots of a list of statements. -/
def slotsAll : List Stmt → List Expr
  | [] => []
  | s :: rest => s.slots ++ slotsAll rest

/-- The slots of the labels of a group that may be left out. -/
def slotsLabelRows : Option (List Label) → List Expr
  | none => []
  | some l => slotsLabels l

/-- The slots of the labels of a group. -/
def slotsLabels : List Label → List Expr
  | [] => []
  | .mk _ body :: rest => slotsRows body ++ slotsLabels rest

/-- The slots of the arms of a switch that may be left out. -/
def slotsCaseRows : Option (List Case) → List Expr
  | none => []
  | some l => slotsCases l

/-- The slots of the arms of a switch. -/
def slotsCases : List Case → List Expr
  | [] => []
  | .mk values _ body :: rest => (Rows.items values ++ slotsRows body) ++ slotsCases rest

end

mutual

/-- The statement with nothing in its slots. -/
def hollow : Stmt → Stmt
  | .block m stmts => .block m (hollowRows stmts)
  | .expr m _ => .expr m .missing
  | .ite m _ x y => .ite m .missing x.hollow y.hollow
  | .forLoop m index init _ post body =>
    .forLoop m index (hollowRows init) .missing (post.map Expr.hollowAll) body.hollow
  | .whileLoop m testLast index _ body => .whileLoop m testLast index .missing body.hollow
  | .labelGroup m labels => .labelGroup m (hollowLabelRows labels)
  | .ret m _ => .ret m .missing
  | .switch m index _ cases => .switch m index .missing (hollowCaseRows cases)
  | .varDecl m vars => .varDecl m (vars.map fun l => l.map fun v => { v with init := .missing })
  | .missing => .missing
  | .bare m kind => .bare m kind
  | .goto m label => .goto m label
  | .branch m isContinue target => .branch m isContinue target

/-- The statements of a list that may be left out, with nothing in their slots. -/
def hollowRows : Option (List Stmt) → Option (List Stmt)
  | none => none
  | some l => some (hollowAll l)

/-- The statements of a list, with nothing in their slots. -/
def hollowAll : List Stmt → List Stmt
  | [] => []
  | s :: rest => s.hollow :: hollowAll rest

/-- The labels of a group that may be left out, with nothing in their slots. -/
def hollowLabelRows : Option (List Label) → Option (List Label)
  | none => none
  | some l => some (hollowLabels l)

/-- The labels of a group, with nothing in their slots. -/
def hollowLabels : List Label → List Label
  | [] => []
  | .mk name body :: rest => .mk name (hollowRows body) :: hollowLabels rest

/-- The arms of a switch that may be left out, with nothing in their slots. -/
def hollowCaseRows : Option (List Case) → Option (List Case)
  | none => none
  | some l => some (hollowCases l)

/-- The arms of a switch, with nothing in their slots. -/
def hollowCases : List Case → List Case
  | [] => []
  | .mk values isDefault body :: rest =>
    .mk (values.map Expr.hollowAll) isDefault (hollowRows body) :: hollowCases rest

end

theorem items_append_inj {xs ys : Option (List Expr)} {r r' : List Expr}
    (hrest : xs.map Expr.hollowAll = ys.map Expr.hollowAll)
    (hslots : Rows.items xs ++ r = Rows.items ys ++ r') : xs = ys ∧ r = r' := by
  cases xs with
  | none =>
    cases ys with
    | none => exact ⟨rfl, hslots⟩
    | some l => cases hrest
  | some l =>
    cases ys with
    | none => cases hrest
    | some l' =>
      have hlength : l.length = l'.length := by
        simpa [Expr.hollowAll] using congrArg List.length (Option.some.inj hrest)
      obtain ⟨rfl, rfl⟩ := List.append_inj hslots hlength
      exact ⟨rfl, rfl⟩

theorem inits_append_inj : ∀ {l l' : List VarInit} {r r' : List Expr},
    l.map (fun v => { v with init := .missing }) = l'.map (fun v => { v with init := .missing }) →
    l.map (·.init) ++ r = l'.map (·.init) ++ r' → l = l' ∧ r = r'
  | [], [], _, _, _, hslots => ⟨rfl, hslots⟩
  | [], _ :: _, _, _, hrest, _ => nomatch hrest
  | _ :: _, [], _, _, hrest, _ => nomatch hrest
  | ⟨name, init⟩ :: l, ⟨name', init'⟩ :: l', _, _, hrest, hslots => by
    obtain ⟨hname, htail⟩ := List.cons_eq_cons.mp hrest
    obtain ⟨hinit, hmore⟩ := List.cons_eq_cons.mp hslots
    obtain ⟨rfl, rfl⟩ := inits_append_inj htail hmore
    obtain ⟨rfl, -⟩ := (VarInit.mk.injEq ..).mp hname
    obtain rfl : init = init' := hinit
    exact ⟨rfl, rfl⟩

mutual

/-- What stands in the slots and the rest are the whole statement, also when other slots follow. -/
theorem slots_append_inj : ∀ {s s' : Stmt} {r r' : List Expr}, s.hollow = s'.hollow →
    s.slots ++ r = s'.slots ++ r' → s = s' ∧ r = r'
  | .missing, s', r, r', hrest, hslots => by
    cases s' <;> cases hrest
    exact ⟨rfl, hslots⟩
  | .bare m k, s', r, r', hrest, hslots => by
    cases s' <;> cases hrest
    exact ⟨rfl, hslots⟩
  | .goto m label, s', r, r', hrest, hslots => by
    cases s' <;> cases hrest
    exact ⟨rfl, hslots⟩
  | .branch m isContinue target, s', r, r', hrest, hslots => by
    cases s' <;> cases hrest
    exact ⟨rfl, hslots⟩
  | .block m rows, s', r, r', hrest, hslots => by
    cases s' with
    | block m' rows' =>
      obtain ⟨rfl, hrows⟩ := (block.injEq ..).mp hrest
      obtain ⟨rfl, rfl⟩ := slotsRows_append_inj hrows hslots
      exact ⟨rfl, rfl⟩
    | _ => cases hrest
  | .expr m e, s', r, r', hrest, hslots => by
    cases s' with
    | expr m' e' =>
      obtain ⟨rfl, -⟩ := (expr.injEq ..).mp hrest
      obtain ⟨rfl, rfl⟩ := List.cons_eq_cons.mp hslots
      exact ⟨rfl, rfl⟩
    | _ => cases hrest
  | .ret m e, s', r, r', hrest, hslots => by
    cases s' with
    | ret m' e' =>
      obtain ⟨rfl, -⟩ := (ret.injEq ..).mp hrest
      obtain ⟨rfl, rfl⟩ := List.cons_eq_cons.mp hslots
      exact ⟨rfl, rfl⟩
    | _ => cases hrest
  | .ite m c x y, s', r, r', hrest, hslots => by
    cases s' with
    | ite m' c' x' y' =>
      obtain ⟨rfl, -, hx, hy⟩ := (ite.injEq ..).mp hrest
      simp only [slots, List.append_assoc, List.cons_append] at hslots
      obtain ⟨rfl, hbelow⟩ := List.cons_eq_cons.mp hslots
      obtain ⟨rfl, helse⟩ := slots_append_inj hx hbelow
      obtain ⟨rfl, rfl⟩ := slots_append_inj hy helse
      exact ⟨rfl, rfl⟩
    | _ => cases hrest
  | .forLoop m index init cond post body, s', r, r', hrest, hslots => by
    cases s' with
    | forLoop m' index' init' cond' post' body' =>
      obtain ⟨rfl, rfl, hinit, -, hpost, hbody⟩ := (forLoop.injEq ..).mp hrest
      simp only [slots, List.append_assoc, List.cons_append] at hslots
      obtain ⟨rfl, hloop⟩ := slotsRows_append_inj hinit hslots
      obtain ⟨rfl, hbelow⟩ := List.cons_eq_cons.mp hloop
      obtain ⟨rfl, hafter⟩ := slots_append_inj hbody hbelow
      obtain ⟨rfl, rfl⟩ := items_append_inj hpost hafter
      exact ⟨rfl, rfl⟩
    | _ => cases hrest
  | .whileLoop m testLast index cond body, s', r, r', hrest, hslots => by
    cases s' with
    | whileLoop m' testLast' index' cond' body' =>
      obtain ⟨rfl, rfl, rfl, -, hbody⟩ := (whileLoop.injEq ..).mp hrest
      obtain ⟨rfl, hbelow⟩ := List.cons_eq_cons.mp hslots
      obtain ⟨rfl, rfl⟩ := slots_append_inj hbody hbelow
      exact ⟨rfl, rfl⟩
    | _ => cases hrest
  | .labelGroup m rows, s', r, r', hrest, hslots => by
    cases s' with
    | labelGroup m' rows' =>
      obtain ⟨rfl, hrows⟩ := (labelGroup.injEq ..).mp hrest
      obtain ⟨rfl, rfl⟩ := slotsLabelRows_append_inj hrows hslots
      exact ⟨rfl, rfl⟩
    | _ => cases hrest
  | .switch m index key cases, s', r, r', hrest, hslots => by
    cases s' with
    | switch m' index' key' cases' =>
      obtain ⟨rfl, rfl, -, hcases⟩ := (switch.injEq ..).mp hrest
      obtain ⟨rfl, hbelow⟩ := List.cons_eq_cons.mp hslots
      obtain ⟨rfl, rfl⟩ := slotsCaseRows_append_inj hcases hbelow
      exact ⟨rfl, rfl⟩
    | _ => cases hrest
  | .varDecl m vars, s', r, r', hrest, hslots => by
    cases s' with
    | varDecl m' vars' =>
      obtain ⟨rfl, hvars⟩ := (varDecl.injEq ..).mp hrest
      cases vars <;> cases vars'
      · exact ⟨rfl, hslots⟩
      · cases hvars
      · cases hvars
      · obtain ⟨rfl, rfl⟩ := inits_append_inj (Option.some.inj hvars) hslots
        exact ⟨rfl, rfl⟩
    | _ => cases hrest

theorem slotsRows_append_inj : ∀ {rows rows' : Option (List Stmt)} {r r' : List Expr},
    hollowRows rows = hollowRows rows' → slotsRows rows ++ r = slotsRows rows' ++ r' →
    rows = rows' ∧ r = r'
  | none, none, _, _, _, hslots => ⟨rfl, hslots⟩
  | none, some _, _, _, hrest, _ => nomatch hrest
  | some _, none, _, _, hrest, _ => nomatch hrest
  | some _, some _, _, _, hrest, hslots => by
    obtain ⟨rfl, rfl⟩ := slotsAll_append_inj (Option.some.inj hrest) hslots
    exact ⟨rfl, rfl⟩

theorem slotsAll_append_inj : ∀ {l l' : List Stmt} {r r' : List Expr},
    hollowAll l = hollowAll l' → slotsAll l ++ r = slotsAll l' ++ r' → l = l' ∧ r = r'
  | [], [], _, _, _, hslots => ⟨rfl, hslots⟩
  | [], _ :: _, _, _, hrest, _ => nomatch hrest
  | _ :: _, [], _, _, hrest, _ => nomatch hrest
  | s :: l, s' :: l', _, _, hrest, hslots => by
    obtain ⟨hs, htail⟩ := List.cons_eq_cons.mp hrest
    simp only [slotsAll, List.append_assoc] at hslots
    obtain ⟨rfl, hmore⟩ := slots_append_inj hs hslots
    obtain ⟨rfl, rfl⟩ := slotsAll_append_inj htail hmore
    exact ⟨rfl, rfl⟩

theorem slotsLabelRows_append_inj : ∀ {rows rows' : Option (List Label)} {r r' : List Expr},
    hollowLabelRows rows = hollowLabelRows rows' →
    slotsLabelRows rows ++ r = slotsLabelRows rows' ++ r' → rows = rows' ∧ r = r'
  | none, none, _, _, _, hslots => ⟨rfl, hslots⟩
  | none, some _, _, _, hrest, _ => nomatch hrest
  | some _, none, _, _, hrest, _ => nomatch hrest
  | some _, some _, _, _, hrest, hslots => by
    obtain ⟨rfl, rfl⟩ := slotsLabels_append_inj (Option.some.inj hrest) hslots
    exact ⟨rfl, rfl⟩

theorem slotsLabels_append_inj : ∀ {l l' : List Label} {r r' : List Expr},
    hollowLabels l = hollowLabels l' → slotsLabels l ++ r = slotsLabels l' ++ r' →
    l = l' ∧ r = r'
  | [], [], _, _, _, hslots => ⟨rfl, hslots⟩
  | [], .mk .. :: _, _, _, hrest, _ => nomatch hrest
  | .mk .. :: _, [], _, _, hrest, _ => nomatch hrest
  | .mk _ body :: l, .mk _ body' :: l', _, _, hrest, hslots => by
    obtain ⟨hlabel, htail⟩ := List.cons_eq_cons.mp hrest
    obtain ⟨rfl, hbody⟩ := (Label.mk.injEq ..).mp hlabel
    simp only [slotsLabels, List.append_assoc] at hslots
    obtain ⟨rfl, hmore⟩ := slotsRows_append_inj hbody hslots
    obtain ⟨rfl, rfl⟩ := slotsLabels_append_inj htail hmore
    exact ⟨rfl, rfl⟩

theorem slotsCaseRows_append_inj : ∀ {rows rows' : Option (List Case)} {r r' : List Expr},
    hollowCaseRows rows = hollowCaseRows rows' →
    slotsCaseRows rows ++ r = slotsCaseRows rows' ++ r' → rows = rows' ∧ r = r'
  | none, none, _, _, _, hslots => ⟨rfl, hslots⟩
  | none, some _, _, _, hrest, _ => nomatch hrest
  | some _, none, _, _, hrest, _ => nomatch hrest
  | some _, some _, _, _, hrest, hslots => by
    obtain ⟨rfl, rfl⟩ := slotsCases_append_inj (Option.some.inj hrest) hslots
    exact ⟨rfl, rfl⟩

theorem slotsCases_append_inj : ∀ {l l' : List Case} {r r' : List Expr},
    hollowCases l = hollowCases l' → slotsCases l ++ r = slotsCases l' ++ r' → l = l' ∧ r = r'
  | [], [], _, _, _, hslots => ⟨rfl, hslots⟩
  | [], .mk .. :: _, _, _, hrest, _ => nomatch hrest
  | .mk .. :: _, [], _, _, hrest, _ => nomatch hrest
  | .mk values _ body :: l, .mk values' _ body' :: l', _, _, hrest, hslots => by
    obtain ⟨hcase, htail⟩ := List.cons_eq_cons.mp hrest
    obtain ⟨hvalues, rfl, hbody⟩ := (Case.mk.injEq ..).mp hcase
    simp only [slotsCases, List.append_assoc] at hslots
    obtain ⟨rfl, hbelow⟩ := items_append_inj hvalues hslots
    obtain ⟨rfl, hmore⟩ := slotsRows_append_inj hbody hbelow
    obtain ⟨rfl, rfl⟩ := slotsCases_append_inj htail hmore
    exact ⟨rfl, rfl⟩

end

/-- What stands in the slots and the rest are the whole statement. -/
theorem eq_of_hollow_of_slots {s s' : Stmt} (hrest : s.hollow = s'.hollow)
    (hslots : s.slots = s'.slots) : s = s' :=
  (slots_append_inj hrest (congrArg (· ++ []) hslots)).1

end Stmt

namespace Node

/-- Whether a node is an expression. -/
def isExpr : Node → Bool
  | .stmt _ => false
  | .expr _ => true

/-- The expressions among the nodes are those of `l`, up to their order: a loop that tests its
condition last is mapped like the others, but visited from its body on. -/
def Gathers (nodes : List Node) (l : List Expr) : Prop :=
  (nodes.filter isExpr).Perm (l.flatMap Expr.nodes)

theorem gathers_nil : Gathers [] [] := .nil

theorem gathers_append {nodes more : List Node} {l r : List Expr} (h : Gathers nodes l)
    (h' : Gathers more r) : Gathers (nodes ++ more) (l ++ r) := by
  unfold Gathers
  rw [List.filter_append, List.flatMap_append]
  exact h.append h'

/-- The node of a statement is not an expression. -/
theorem Gathers.below {s : Stmt} {n : List Node} {l : List Expr} (h : Gathers n l) :
    Gathers (Node.below (fun _ => true) (.stmt s) n) l := h

theorem gathers_expr (e : Expr) : Gathers (ofExpr (fun _ => true) e) [e] := by
  have hall : (ofExpr (fun _ => true) e).filter isExpr = ofExpr (fun _ => true) e := by
    refine List.filter_eq_self.mpr fun n hn => ?_
    cases n with
    | stmt s => exact absurd hn (stmt_not_mem_ofExpr _ e)
    | expr x => rfl
  unfold Gathers
  rw [hall, List.flatMap_singleton]
  exact .refl _

theorem gathers_exprRows (rows : Option (List Expr)) :
    Gathers (ofExprRows (fun _ => true) rows) (Rows.items rows) := by
  cases rows with
  | none => exact gathers_nil
  | some l =>
    show Gathers (ofExprs (fun _ => true) l) l
    induction l with
    | nil => exact gathers_nil
    | cons e rest ih => exact gathers_append (gathers_expr e) ih

theorem gathers_vars : ∀ l : List VarInit,
    Gathers (l.flatMap fun v => ofExpr (fun _ => true) v.init) (l.map (·.init))
  | [] => gathers_nil
  | v :: rest => gathers_append (gathers_expr v.init) (gathers_vars rest)

mutual

/-- The expressions that are met in a statement are those in its slots. -/
theorem gathers_stmt : ∀ s : Stmt, Gathers (ofStmt (fun _ => true) s) s.slots
  | .missing => gathers_nil
  | .bare .. | .goto .. | .branch .. => .below (n := []) gathers_nil
  | .block _ rows => .below (gathers_stmtRows rows)
  | .expr _ e | .ret _ e => .below (gathers_expr e)
  | .ite _ c x y => by
    refine .below ?_
    rw [List.append_assoc]
    exact gathers_append (gathers_expr c) (gathers_append (gathers_stmt x) (gathers_stmt y))
  | .forLoop _ _ init cond post body => by
    refine .below ?_
    rw [List.append_assoc, List.append_assoc]
    exact gathers_append (gathers_stmtRows init) (gathers_append (gathers_expr cond)
      (gathers_append (gathers_stmt body) (gathers_exprRows post)))
  | .whileLoop _ false _ cond body =>
    .below (gathers_append (gathers_expr cond) (gathers_stmt body))
  | .whileLoop _ true _ cond body => by
    refine .below ?_
    have hswap : (body.slots ++ [cond]).Perm (cond :: body.slots) := List.perm_append_comm
    exact (gathers_append (gathers_stmt body) (gathers_expr cond)).trans (hswap.flatMap_right _)
  | .labelGroup _ rows => .below (gathers_labelRows rows)
  | .switch _ _ key cases => .below (gathers_append (gathers_expr key) (gathers_caseRows cases))
  | .varDecl _ vars => .below (gathers_vars (Rows.items vars))

theorem gathers_stmtRows : ∀ rows : Option (List Stmt),
    Gathers (ofStmtRows (fun _ => true) rows) (Stmt.slotsRows rows)
  | none => gathers_nil
  | some l => gathers_stmts l

theorem gathers_stmts : ∀ l : List Stmt, Gathers (ofStmts (fun _ => true) l) (Stmt.slotsAll l)
  | [] => gathers_nil
  | s :: rest => gathers_append (gathers_stmt s) (gathers_stmts rest)

theorem gathers_labelRows : ∀ rows : Option (List Label),
    Gathers (ofLabelRows (fun _ => true) rows) (Stmt.slotsLabelRows rows)
  | none => gathers_nil
  | some l => gathers_labels l

theorem gathers_labels : ∀ l : List Label,
    Gathers (ofLabels (fun _ => true) l) (Stmt.slotsLabels l)
  | [] => gathers_nil
  | .mk _ body :: rest => gathers_append (gathers_stmtRows body) (gathers_labels rest)

theorem gathers_caseRows : ∀ rows : Option (List Case),
    Gathers (ofCaseRows (fun _ => true) rows) (Stmt.slotsCaseRows rows)
  | none => gathers_nil
  | some l => gathers_cases l

theorem gathers_cases : ∀ l : List Case,
    Gathers (ofCases (fun _ => true) l) (Stmt.slotsCases l)
  | [] => gathers_nil
  | .mk values _ body :: rest =>
    gathers_append (gathers_append (gathers_exprRows values) (gathers_stmtRows body))
      (gathers_cases rest)

end

end Node

/-- A property that all statements have holds of all nodes if it holds of those in the slots. -/
theorem Stmt.each_iff {P : Node → Prop} (hP : ∀ s, P (.stmt s)) {s : Stmt} :
    s.Each P ↔ ∀ e ∈ s.slots, e.Each P := by
  have hmem : ∀ n, n ∈ (Node.all s).filter Node.isExpr ↔ ∃ e ∈ s.slots, n ∈ e.nodes := fun n =>
    (Node.gathers_stmt s).mem_iff.trans List.mem_flatMap
  constructor
  · intro h e he n hn
    exact h n ((List.mem_filter.mp ((hmem n).mpr ⟨e, he, hn⟩)).1)
  · intro h n hn
    cases n with
    | stmt t => exact hP t
    | expr x =>
      obtain ⟨e, he, hx⟩ := (hmem _).mp (List.mem_filter.mpr ⟨hn, rfl⟩)
      exact h e he _ hx

end WastForge
