import WastForge.Document.Tree
import WastForge.Proofs.Document.Packed
import WastForge.Proofs.Program.Each

/-!
# Trees are read back

An expression or statement whose nodes carry the contents of their kinds is read back from its
own encoding. The level of the reader goes down by one at each node, and the encoding of a part is
shorter than that of the whole, so that the length of the encoding is enough for the level.
-/

namespace WastForge.Document

open Pack

/-! ## What can be written -/

/-- A text or list whose length can be written. -/
def Short {α : Type} (l : List α) : Prop := l.length < limit

end WastForge.Document

namespace WastForge

open Document (Short)

/-- A member whose names can be written. -/
def MemberRef.Short (m : MemberRef) : Prop := Document.Short m.type ∧ Document.Short m.name

/-- An expression that is missing, or carries the contents of its kind. -/
def Expr.Carries : Expr → Prop
  | .bare .. => False
  | _ => True

/-- The texts and lists that stand in an expression itself can be written, and its operators and
kinds are the ones that their numbers mean. -/
def Expr.Fits : Expr → Prop
  | .literal _ l => LiteralKind.ofCode l.kind.code = l.kind ∧ Short l.string
  | .variable _ name _ => Short name
  | .binary _ op _ _ => BinaryOp.ofCode op.code = op
  | .unary _ op _ => UnaryOp.ofCode op.code = op
  | .call _ target params _ _ args =>
    target.Short ∧ Short (Rows.items params) ∧ Short (Rows.items args)
  | .field _ target _ _ => target.Short
  | .property _ target getter setter _ _ => target.Short ∧ getter.Short ∧ setter.Short
  | .comma _ xs => Short (Rows.items xs)
  | .arrayInit _ _ _ elements _ => Short (Rows.items elements)
  | .intrinsic _ name args | .invoke _ name args | .assertion _ _ _ name args =>
    Short name ∧ Short (Rows.items args)
  | .assertHeap _ _ _ expected _ => Short expected
  | .harnessCall _ _ args => Short (Rows.items args)
  | .missing | .bare .. | .cast .. | .reference .. | .conditional .. | .memory ..
  | .stringLength .. => True

/-- A statement that is missing, or carries the contents of its kind. -/
def Stmt.Carries : Stmt → Prop
  | .bare .. => False
  | _ => True

/-- The texts and lists that stand in a statement itself can be written. -/
def Stmt.Fits : Stmt → Prop
  | .block _ stmts => Short (Rows.items stmts)
  | .forLoop _ _ init _ post _ => Short (Rows.items init) ∧ Short (Rows.items post)
  | .labelGroup _ labels =>
    Short (Rows.items labels) ∧
      ∀ l ∈ Rows.items labels, Short l.name ∧ Short (Rows.items l.body)
  | .goto _ label => Short label
  | .switch _ _ _ cases =>
    Short (Rows.items cases) ∧
      ∀ c ∈ Rows.items cases, Short (Rows.items c.values) ∧ Short (Rows.items c.body)
  | .varDecl _ vars => Short (Rows.items vars) ∧ ∀ v ∈ Rows.items vars, Short v.name
  | .missing | .bare .. | .expr .. | .ite .. | .whileLoop .. | .branch .. | .ret .. => True

end WastForge

namespace WastForge.Document

open Pack

/-! ## Nodes -/

theorem reads_span (s : Span) : Reads (updateSpan {}) (writeSpan s) s :=
  Aligned.reads
    (.cons ((reads_u32 s.file).map _) (.cons ((reads_u32 s.line).map _)
      (.cons ((reads_u32 s.col).map _) .nil))) (by decide +kernel)

theorem reads_ref {m : MemberRef} (h : m.Short) : Reads (updateRef {}) (writeRef m) m :=
  Aligned.reads
    (.cons ((reads_text h.1).map _) (.cons ((reads_text h.2).map _) .nil)) (by decide +kernel)

theorem reads_nodeStart (what : Bytes) (kind : UInt8) (word : UInt32) (s : Span) :
    Reads (readNodeStart what {}) (arrayHeader 4 ++ (u8 kind ++ (u32 word ++ writeSpan s)))
      (some (kind, word, s)) :=
  (reads_arrayHeader (by decide)).bind
    ((reads_u8 kind).bind ((reads_u32 word).bind ((reads_span s).last rfl)))

theorem writeNode_eq (kind : UInt8) (word : UInt32) (s : Span) (contents : Bytes) :
    writeNode kind word s contents
      = (arrayHeader 4 ++ (u8 kind ++ (u32 word ++ writeSpan s))) ++ contents := by
  simp [writeNode, array]

/-- A node is read back if its contents are. -/
theorem reads_exprNode {depth : Nat} {kind : UInt8} {a : Annot} {contents : Bytes} {e : Expr}
    (h : Reads (readExprContents (updateExpr depth) kind a) contents e) :
    Reads (updateExpr (depth + 1) .missing) (writeNode kind a.type a.span contents) e := by
  rw [writeNode_eq]
  exact (reads_nodeStart _ kind a.type a.span).bind h

/-- A node whose contents are a record is read back if the fields of the record are. -/
theorem reads_exprRecord {α : Type} {depth : Nat} {kind : UInt8} {a : Annot}
    {names : List Bytes} {fields : Fields α} {zero b : α} {parts : List (Bytes × Bytes)}
    {f : α → Reader Expr} {e : Expr}
    (hkind : readExprContents (updateExpr depth) kind a = readRecord zero fields >>= f)
    (h : Aligned names fields zero parts b) (he : f b = pure e) (hn : distinct names = true) :
    Reads (updateExpr (depth + 1) .missing) (writeNode kind a.type a.span (record parts)) e :=
  reads_exprNode (hkind ▸ (h.reads hn).last he)

theorem writeExprs_eq (l : List Expr) : writeExprs l = l.map writeExpr := by
  induction l with
  | nil => rfl
  | cons e rest ih => rw [writeExprs, ih, List.map_cons]

theorem writeExprRows_eq (rows : Option (List Expr)) :
    writeExprRows rows = Pack.rows writeExpr rows := by
  cases rows with
  | none => rfl
  | some l => rw [writeExprRows, writeExprs_eq, Pack.rows]

theorem reads_exprs {expr : Update Expr} {rows : Option (List Expr)}
    (hlen : Short (Rows.items rows))
    (h : ∀ x ∈ Rows.items rows, Reads (expr .missing) (writeExpr x) x) :
    Reads (updateSlots .missing expr {}) (writeExprRows rows) (.ofRows rows) := by
  rw [writeExprRows_eq]
  exact reads_slots hlen h

/-! ## Expressions -/

theorem reads_literal {l : Literal} (hk : LiteralKind.ofCode l.kind.code = l.kind)
    (hs : Short l.string) : Reads readLiteral (writeLiteral l) l := by
  unfold readLiteral writeLiteral
  exact Aligned.reads
    (.cons (b := { kind := l.kind }) ((reads_u8 _).last (by rw [hk]))
      (.cons ((reads_i64 l.int).map _) (.cons ((reads_double l.float).map _)
        (.cons ((reads_bool l.bool).map _) (.cons ((reads_text hs).map _) .nil)))))
    (by decide +kernel)

/-- An expression is read back if its parts are. -/
theorem reads_expr_step {depth : Nat} {e : Expr} (hc : e.Carries) (hf : e.Fits)
    (hparts : ∀ x ∈ e.parts, Reads (updateExpr depth .missing) (writeExpr x) x) :
    Reads (updateExpr (depth + 1) .missing) (writeExpr e) e := by
  cases e with
  | missing => exact (reads_head_nil.last rfl : Reads (readNodeStart _ _) _ none).last rfl
  | bare => exact hc.elim
  | literal a l => exact reads_exprNode ((reads_literal hf.1 hf.2).last rfl)
  | «variable» a name isParam =>
    exact reads_exprRecord rfl
      (.cons ((reads_text hf).map _) (.cons ((reads_bool isParam).map _) .nil)) rfl
      (by decide +kernel)
  | binary a op l r =>
    have hop : Reads readU8 (u8 op.code) op.code := reads_u8 _
    have hl := hparts l (by simp [Expr.parts])
    have hr := hparts r (by simp [Expr.parts])
    exact reads_exprRecord rfl (.cons (hop.map _) (.cons (hl.map _) (.cons (hr.map _) .nil)))
      (congrArg (fun o => pure (Expr.binary a o l r)) hf) (by decide +kernel)
  | unary a op x =>
    have hop : Reads readU8 (u8 op.code) op.code := reads_u8 _
    have hx := hparts x (by simp [Expr.parts])
    exact reads_exprRecord rfl (.cons (hop.map _) (.cons (hx.map _) .nil))
      (congrArg (fun o => pure (Expr.unary a o x)) hf) (by decide +kernel)
  | call a target params isStatic receiver args =>
    obtain ⟨htarget, hparams, hargs⟩ := hf
    have hr := hparts receiver (by simp [Expr.parts])
    have hs := reads_exprs hargs fun x hx => hparts x (by simp [Expr.parts, hx])
    exact reads_exprRecord rfl
      (.cons ((reads_ref htarget).map _)
        (.cons ((reads_rows hparams fun x _ => reads_u32 x).map _)
          (.cons ((reads_bool isStatic).map _) (.cons (hr.map _) (.cons (hs.map _) .nil)))))
      rfl (by decide +kernel)
  | field a target isStatic receiver =>
    have hr := hparts receiver (by simp [Expr.parts])
    exact reads_exprRecord rfl
      (.cons ((reads_ref hf).map _) (.cons ((reads_bool isStatic).map _) (.cons (hr.map _) .nil)))
      rfl (by decide +kernel)
  | property a target getter setter isStatic receiver =>
    obtain ⟨htarget, hgetter, hsetter⟩ := hf
    have hr := hparts receiver (by simp [Expr.parts])
    exact reads_exprRecord rfl
      (.cons ((reads_ref htarget).map _) (.cons ((reads_ref hgetter).map _)
        (.cons ((reads_ref hsetter).map _) (.cons ((reads_bool isStatic).map _)
          (.cons (hr.map _) .nil)))))
      rfl (by decide +kernel)
  | cast a x | reference a x | stringLength a x =>
    have hx := hparts x (by simp [Expr.parts])
    exact reads_exprRecord rfl (.cons hx .nil) rfl (by decide +kernel)
  | comma a xs =>
    have hs := reads_exprs hf fun x hx => hparts x (by simp [Expr.parts, hx])
    exact reads_exprRecord rfl (.cons hs .nil) rfl (by decide +kernel)
  | conditional a c x y =>
    have hc := hparts c (by simp [Expr.parts])
    have hx := hparts x (by simp [Expr.parts])
    have hy := hparts y (by simp [Expr.parts])
    exact reads_exprRecord rfl (.cons (hc.map _) (.cons (hx.map _) (.cons (hy.map _) .nil))) rfl
      (by decide +kernel)
  | arrayInit a elem size elements hasInit =>
    have hsize := hparts size (by simp [Expr.parts])
    have hs := reads_exprs hf fun x hx => hparts x (by simp [Expr.parts, hx])
    exact reads_exprRecord rfl
      (.cons ((reads_u32 elem).map _) (.cons (hsize.map _) (.cons (hs.map _)
        (.cons ((reads_bool hasInit).map _) .nil))))
      rfl (by decide +kernel)
  | memory a isStore target aligned address value =>
    have haddress := hparts address (by simp [Expr.parts])
    have hvalue := hparts value (by simp [Expr.parts])
    cases isStore <;>
      exact reads_exprRecord rfl
        (.cons ((reads_u32 target).map _) (.cons ((reads_bool aligned).map _)
          (.cons (haddress.map _) (.cons (hvalue.map _) .nil))))
        rfl (by decide +kernel)
  | intrinsic a name args | invoke a name args =>
    have hs := reads_exprs hf.2 fun x hx => hparts x (by simp [Expr.parts, hx])
    exact reads_exprRecord rfl (.cons ((reads_text hf.1).map _) (.cons (hs.map _) .nil)) rfl
      (by decide +kernel)
  | assertion a isEq expected name args =>
    have hexpected := hparts expected (by simp [Expr.parts])
    have hs := reads_exprs hf.2 fun x hx => hparts x (by simp [Expr.parts, hx])
    cases isEq <;>
      exact reads_exprRecord rfl
        (.cons (hexpected.map _) (.cons ((reads_text hf.1).map _) (.cons (hs.map _) .nil)))
        rfl (by decide +kernel)
  | assertHeap a offset count expected fromFile =>
    exact reads_exprRecord rfl
      (.cons ((reads_i64 offset).map _) (.cons ((reads_i64 count).map _)
        (.cons ((reads_text hf).map _) (.cons ((reads_bool fromFile).map _) .nil))))
      rfl (by decide +kernel)
  | harnessCall a op args =>
    have hs := reads_exprs hf fun x hx => hparts x (by simp [Expr.parts, hx])
    exact reads_exprRecord rfl (.cons ((reads_u8 op.code).map _) (.cons (hs.map _) .nil)) rfl
      (by decide +kernel)

/-- What stands in a node is shorter than the node. -/
theorem length_lt_node {kind : UInt8} {word : UInt32} {s : Span} {parts : List (Bytes × Bytes)}
    {n : Nat} (h : ∃ p ∈ parts, n ≤ p.2.length) :
    n < (writeNode kind word s (record parts)).length := by
  obtain ⟨p, hp, hn⟩ := h
  have hrecord := length_le_record hp
  simp only [writeNode, array, List.flatten_cons, List.length_append, u8, List.length_cons]
  omega

theorem length_le_exprRows {rows : Option (List Expr)} {x : Expr} (h : x ∈ Rows.items rows) :
    (writeExpr x).length ≤ (writeExprRows rows).length := by
  rw [writeExprRows_eq]
  exact length_le_rows h

/-- The encoding of a part is shorter than that of the whole. -/
theorem length_expr_lt {e x : Expr} (h : x ∈ e.parts) :
    (writeExpr x).length < (writeExpr e).length := by
  cases e with
  | missing | bare | literal | «variable» | assertHeap => exact absurd h List.not_mem_nil
  | unary | cast | reference | stringLength | field | property =>
    obtain rfl := List.mem_singleton.mp h
    exact length_lt_node (by simp)
  | binary a op l r =>
    obtain rfl | rfl : x = l ∨ x = r := by simpa [Expr.parts] using h
    all_goals exact length_lt_node (by simp)
  | conditional a c yes no =>
    obtain rfl | rfl | rfl : x = c ∨ x = yes ∨ x = no := by simpa [Expr.parts] using h
    all_goals exact length_lt_node (by simp)
  | memory a isStore target aligned address value =>
    obtain rfl | rfl : x = address ∨ x = value := by simpa [Expr.parts] using h
    all_goals exact length_lt_node (by simp)
  | comma | intrinsic | invoke | harnessCall =>
    have hle := length_le_exprRows h
    exact length_lt_node (by simp [hle])
  | call | arrayInit | assertion =>
    rcases List.mem_cons.mp h with rfl | h
    · exact length_lt_node (by simp)
    · have hle := length_le_exprRows h
      exact length_lt_node (by simp [hle])

theorem length_node_pos (kind : UInt8) (word : UInt32) (s : Span) (contents : Bytes) :
    0 < (writeNode kind word s contents).length := by
  simp [writeNode, array, arrayHeader]

theorem length_expr_pos (e : Expr) : 0 < (writeExpr e).length := by
  cases e with
  | missing => exact Nat.one_pos
  | _ => exact length_node_pos ..

/-- An expression whose nodes carry their contents is read back from its encoding. -/
theorem reads_expr {depth : Nat} {e : Expr} (h : e.Throughout fun x => x.Carries ∧ x.Fits)
    (hdepth : (writeExpr e).length ≤ depth) :
    Reads (updateExpr depth .missing) (writeExpr e) e := by
  induction depth generalizing e with
  | zero => exact absurd hdepth (Nat.not_le_of_lt (length_expr_pos e))
  | succ depth ih =>
    obtain ⟨⟨hc, hf⟩, hbelow⟩ := h
    refine reads_expr_step hc hf fun x hx => ih (hbelow x hx) ?_
    exact Nat.le_of_lt_succ (Nat.lt_of_lt_of_le (length_expr_lt hx) hdepth)

/-! ## Statements -/

/-- A node is read back if its contents are. -/
theorem reads_stmtRecord {α : Type} {depth : Nat} {kind : UInt8} {m : Mark}
    {names : List Bytes} {fields : Fields α} {zero b : α} {parts : List (Bytes × Bytes)}
    {f : α → Reader Stmt} {s : Stmt}
    (hkind : readStmtContents (updateExpr depth) (updateStmt depth) kind m
      = readRecord zero fields >>= f)
    (h : Aligned names fields zero parts b) (hs : f b = pure s) (hn : distinct names = true) :
    Reads (updateStmt (depth + 1) .missing) (writeNode kind m.id m.span (record parts)) s := by
  rw [writeNode_eq]
  refine (reads_nodeStart _ kind m.id m.span).bind ?_
  show Reads (readStmtContents _ _ kind m) _ _
  rw [hkind]
  exact (h.reads hn).last hs

theorem writeStmtRows_eq (rows : Option (List Stmt)) :
    writeStmtRows rows = Pack.rows writeStmt rows := by
  have hl : ∀ l, writeStmts l = l.map writeStmt := by
    intro l
    induction l with
    | nil => rfl
    | cons s rest ih => rw [writeStmts, ih, List.map_cons]
  cases rows with
  | none => rfl
  | some l => rw [writeStmtRows, hl, Pack.rows]

/-- A label. -/
def writeLabel (l : Label) : Bytes :=
  record [("Name", text l.name), ("Body", writeStmtRows l.body)]

theorem writeLabelRows_eq (rows : Option (List Label)) :
    writeLabelRows rows = Pack.rows writeLabel rows := by
  have hl : ∀ l, writeLabels l = l.map writeLabel := by
    intro l
    induction l with
    | nil => rfl
    | cons x rest ih =>
      cases x
      rw [writeLabels, ih, List.map_cons]
      rfl
  cases rows with
  | none => rfl
  | some l => rw [writeLabelRows, hl, Pack.rows]

/-- An arm of a switch. -/
def writeCase (c : Case) : Bytes :=
  record [("Values", writeExprRows c.values), ("Default", bool c.isDefault),
    ("Body", writeStmtRows c.body)]

theorem writeCaseRows_eq (rows : Option (List Case)) :
    writeCaseRows rows = Pack.rows writeCase rows := by
  have hl : ∀ l, writeCases l = l.map writeCase := by
    intro l
    induction l with
    | nil => rfl
    | cons x rest ih =>
      cases x
      rw [writeCases, ih, List.map_cons]
      rfl
  cases rows with
  | none => rfl
  | some l => rw [writeCaseRows, hl, Pack.rows]

theorem reads_stmts {stmt : Update Stmt} {rows : Option (List Stmt)}
    (hlen : Short (Rows.items rows))
    (h : ∀ s ∈ Rows.items rows, Reads (stmt .missing) (writeStmt s) s) :
    Reads (updateSlots .missing stmt {}) (writeStmtRows rows) (.ofRows rows) := by
  rw [writeStmtRows_eq]
  exact reads_slots hlen h

/-- The draft that a label is read into. -/
def LabelDraft.ofLabel (l : Label) : LabelDraft := ⟨l.name, .ofRows l.body⟩

theorem LabelDraft.toLabel_ofLabel (l : Label) : (ofLabel l).toLabel = l := by
  cases l
  rfl

theorem reads_label {stmt : Update Stmt} {l : Label} (hname : Short l.name)
    (hlen : Short (Rows.items l.body))
    (h : ∀ s ∈ Rows.items l.body, Reads (stmt .missing) (writeStmt s) s) :
    Reads (updateLabel stmt {}) (writeLabel l) (.ofLabel l) :=
  Aligned.reads (.cons ((reads_text hname).map _) (.cons ((reads_stmts hlen h).map _) .nil))
    (by decide +kernel)

/-- The draft that an arm of a switch is read into. -/
def CaseDraft.ofCase (c : Case) : CaseDraft := ⟨.ofRows c.values, c.isDefault, .ofRows c.body⟩

theorem CaseDraft.toCase_ofCase (c : Case) : (ofCase c).toCase = c := by
  cases c
  rfl

theorem reads_case {expr : Update Expr} {stmt : Update Stmt} {c : Case}
    (hvalues : Short (Rows.items c.values)) (hlen : Short (Rows.items c.body))
    (he : ∀ x ∈ Rows.items c.values, Reads (expr .missing) (writeExpr x) x)
    (hs : ∀ s ∈ Rows.items c.body, Reads (stmt .missing) (writeStmt s) s) :
    Reads (updateCase expr stmt {}) (writeCase c) (.ofCase c) :=
  Aligned.reads (.cons ((reads_exprs hvalues he).map _) (.cons ((reads_bool c.isDefault).map _)
    (.cons ((reads_stmts hlen hs).map _) .nil))) (by decide +kernel)

theorem reads_var {expr : Update Expr} {v : VarInit} (hname : Short v.name)
    (h : Reads (expr .missing) (writeExpr v.init) v.init) :
    Reads (updateVar expr {}) (writeVar v) v :=
  Aligned.reads (.cons ((reads_text hname).map _) (.cons (h.map _) .nil)) (by decide +kernel)

/-- A statement is read back if its parts are. -/
theorem reads_stmt_step {depth : Nat} {s : Stmt} (hc : s.Carries) (hf : s.Fits)
    (hexprs : ∀ x ∈ s.exprs, Reads (updateExpr depth .missing) (writeExpr x) x)
    (hparts : ∀ t ∈ s.parts, Reads (updateStmt depth .missing) (writeStmt t) t) :
    Reads (updateStmt (depth + 1) .missing) (writeStmt s) s := by
  cases s with
  | missing => exact (reads_head_nil.last rfl : Reads (readNodeStart _ _) _ none).last rfl
  | bare => exact hc.elim
  | block m stmts =>
    exact reads_stmtRecord rfl (.cons (reads_stmts hf hparts) .nil) rfl (by decide +kernel)
  | expr m e =>
    have he := hexprs e (by simp [Stmt.exprs])
    exact reads_stmtRecord rfl (.cons he .nil) rfl (by decide +kernel)
  | ite m c x y =>
    have hc := hexprs c (by simp [Stmt.exprs])
    have hx := hparts x (by simp [Stmt.parts])
    have hy := hparts y (by simp [Stmt.parts])
    exact reads_stmtRecord rfl (.cons (hc.map _) (.cons (hx.map _) (.cons (hy.map _) .nil))) rfl
      (by decide +kernel)
  | forLoop m index init cond post body =>
    have hinit := reads_stmts hf.1 fun t ht => hparts t (by simp [Stmt.parts, ht])
    have hcond := hexprs cond (by simp [Stmt.exprs])
    have hpost := reads_exprs hf.2 fun x hx => hexprs x (by simp [Stmt.exprs, hx])
    have hbody := hparts body (by simp [Stmt.parts])
    exact reads_stmtRecord rfl
      (.cons ((reads_i32 index).map _) (.cons (hinit.map _) (.cons (hcond.map _)
        (.cons (hpost.map _) (.cons (hbody.map _) .nil)))))
      rfl (by decide +kernel)
  | whileLoop m testLast index cond body =>
    have hcond := hexprs cond (by simp [Stmt.exprs])
    have hbody := hparts body (by simp [Stmt.parts])
    cases testLast <;>
      exact reads_stmtRecord rfl
        (.cons ((reads_i32 index).map _) (.cons (hcond.map _) (.cons (hbody.map _) .nil)))
        rfl (by decide +kernel)
  | labelGroup m labels =>
    have hlabels : Reads (updateSlots {} (updateLabel (updateStmt depth)) {})
        (writeLabelRows labels) (.ofRows (labels.map (List.map .ofLabel))) := by
      rw [writeLabelRows_eq]
      exact reads_updateSlots hf.1 fun l hl => reads_label (hf.2 l hl).1 (hf.2 l hl).2
        fun t ht => hparts t (List.mem_flatMap.mpr ⟨l, hl, ht⟩)
    exact reads_stmtRecord rfl (.cons hlabels .nil)
      (congrArg (fun l => pure (Stmt.labelGroup m l))
        (Slots.items_ofRows LabelDraft.toLabel_ofLabel labels)) (by decide +kernel)
  | goto m label =>
    exact reads_stmtRecord rfl (.cons (reads_text hf) .nil) rfl (by decide +kernel)
  | branch m isContinue target =>
    cases isContinue <;>
      exact reads_stmtRecord rfl (.cons (reads_i32 target) .nil) rfl (by decide +kernel)
  | ret m value =>
    have hvalue := hexprs value (by simp [Stmt.exprs])
    exact reads_stmtRecord rfl (.cons hvalue .nil) rfl (by decide +kernel)
  | «switch» m index key cases =>
    have hkey := hexprs key (by simp [Stmt.exprs])
    have hcases : Reads (updateSlots {} (updateCase (updateExpr depth) (updateStmt depth)) {})
        (writeCaseRows cases) (.ofRows (cases.map (List.map .ofCase))) := by
      rw [writeCaseRows_eq]
      exact reads_updateSlots hf.1 fun c hc => reads_case (hf.2 c hc).1 (hf.2 c hc).2
        (fun x hx => hexprs x (List.mem_cons_of_mem _ (List.mem_flatMap.mpr ⟨c, hc, hx⟩)))
        fun t ht => hparts t (List.mem_flatMap.mpr ⟨c, hc, ht⟩)
    exact reads_stmtRecord rfl
      (.cons ((reads_i32 index).map _) (.cons (hkey.map _) (.cons (hcases.map _) .nil)))
      (congrArg (fun l => pure (Stmt.switch m index key l))
        (Slots.items_ofRows CaseDraft.toCase_ofCase cases)) (by decide +kernel)
  | varDecl m vars =>
    have hvars : Reads (updateSlots {} (updateVar (updateExpr depth)) {})
        (Pack.rows writeVar vars) (.ofRows vars) :=
      reads_slots hf.1 fun v hv => reads_var (hf.2 v hv) (hexprs v.init (List.mem_map_of_mem hv))
    exact reads_stmtRecord rfl (.cons hvars .nil) rfl (by decide +kernel)

theorem length_le_stmtRows {rows : Option (List Stmt)} {t : Stmt} (h : t ∈ Rows.items rows) :
    (writeStmt t).length ≤ (writeStmtRows rows).length := by
  rw [writeStmtRows_eq]
  exact length_le_rows h

theorem length_label_le {rows : Option (List Label)} {l : Label} {t : Stmt}
    (hl : l ∈ Rows.items rows) (ht : t ∈ Rows.items l.body) :
    (writeStmt t).length ≤ (writeLabelRows rows).length := by
  have hbody : (writeStmtRows l.body).length ≤ (writeLabel l).length :=
    length_le_record (p := ("Body", writeStmtRows l.body)) (by simp)
  have hrow : (writeLabel l).length ≤ (writeLabelRows rows).length := by
    rw [writeLabelRows_eq]
    exact length_le_rows hl
  exact Nat.le_trans (Nat.le_trans (length_le_stmtRows ht) hbody) hrow

theorem length_case_le {rows : Option (List Case)} {c : Case} (hc : c ∈ Rows.items rows) :
    (writeExprRows c.values).length ≤ (writeCaseRows rows).length
      ∧ (writeStmtRows c.body).length ≤ (writeCaseRows rows).length := by
  have hrow : (writeCase c).length ≤ (writeCaseRows rows).length := by
    rw [writeCaseRows_eq]
    exact length_le_rows hc
  have hvalues : (writeExprRows c.values).length ≤ (writeCase c).length :=
    length_le_record (p := ("Values", writeExprRows c.values)) (by simp)
  have hbody : (writeStmtRows c.body).length ≤ (writeCase c).length :=
    length_le_record (p := ("Body", writeStmtRows c.body)) (by simp)
  exact ⟨Nat.le_trans hvalues hrow, Nat.le_trans hbody hrow⟩

/-- The encoding of an expression in a statement is shorter than that of the statement. -/
theorem length_stmtExpr_lt {s : Stmt} {x : Expr} (h : x ∈ s.exprs) :
    (writeExpr x).length < (writeStmt s).length := by
  cases s with
  | missing | bare | block | labelGroup | goto | branch => exact absurd h List.not_mem_nil
  | expr | ite | whileLoop | ret =>
    obtain rfl := List.mem_singleton.mp h
    exact length_lt_node (by simp)
  | forLoop =>
    rcases List.mem_cons.mp h with rfl | h
    · exact length_lt_node (by simp)
    · have hle := length_le_exprRows h
      exact length_lt_node (by simp [hle])
  | «switch» m index key cases =>
    rcases List.mem_cons.mp h with rfl | h
    · exact length_lt_node (by simp)
    · obtain ⟨c, hc, hx⟩ := List.mem_flatMap.mp h
      have hle := Nat.le_trans (length_le_exprRows hx) (length_case_le hc).1
      exact length_lt_node (by simp [hle])
  | varDecl m vars =>
    obtain ⟨v, hv, rfl⟩ := List.mem_map.mp h
    have hinit : (writeExpr v.init).length ≤ (writeVar v).length :=
      length_le_record (p := ("Init", writeExpr v.init)) (by simp)
    have hle := Nat.le_trans hinit (length_le_rows hv)
    exact length_lt_node (by simp [hle])

/-- The encoding of a part is shorter than that of the whole. -/
theorem length_stmt_lt {s t : Stmt} (h : t ∈ s.parts) :
    (writeStmt t).length < (writeStmt s).length := by
  cases s with
  | missing | bare | expr | goto | branch | ret | varDecl => exact absurd h List.not_mem_nil
  | block =>
    have hle := length_le_stmtRows h
    exact length_lt_node (by simp [hle])
  | ite m c x y =>
    obtain rfl | rfl : t = x ∨ t = y := by simpa [Stmt.parts] using h
    all_goals exact length_lt_node (by simp)
  | whileLoop =>
    obtain rfl := List.mem_singleton.mp h
    exact length_lt_node (by simp)
  | forLoop =>
    rcases List.mem_cons.mp h with rfl | h
    · exact length_lt_node (by simp)
    · have hle := length_le_stmtRows h
      exact length_lt_node (by simp [hle])
  | labelGroup m labels =>
    obtain ⟨l, hl, ht⟩ := List.mem_flatMap.mp h
    have hle := length_label_le hl ht
    exact length_lt_node (by simp [hle])
  | «switch» m index key cases =>
    obtain ⟨c, hc, ht⟩ := List.mem_flatMap.mp h
    have hle := Nat.le_trans (length_le_stmtRows ht) (length_case_le hc).2
    exact length_lt_node (by simp [hle])

theorem length_stmt_pos (s : Stmt) : 0 < (writeStmt s).length := by
  cases s with
  | missing => exact Nat.one_pos
  | _ => exact length_node_pos ..

/-- A statement whose nodes carry their contents is read back from its encoding. -/
theorem reads_stmt {depth : Nat} {s : Stmt}
    (h : s.Throughout (fun x => x.Carries ∧ x.Fits) fun t => t.Carries ∧ t.Fits)
    (hdepth : (writeStmt s).length ≤ depth) :
    Reads (updateStmt depth .missing) (writeStmt s) s := by
  induction depth generalizing s with
  | zero => exact absurd hdepth (Nat.not_le_of_lt (length_stmt_pos s))
  | succ depth ih =>
    obtain ⟨⟨hc, hf⟩, hexprs, hbelow⟩ := h
    have hle {n : Nat} (hn : n < (writeStmt s).length) : n ≤ depth :=
      Nat.le_of_lt_succ (Nat.lt_of_lt_of_le hn hdepth)
    exact reads_stmt_step hc hf
      (fun x hx => reads_expr (hexprs x hx) (hle (length_stmtExpr_lt hx)))
      fun t ht => ih (hbelow t ht) (hle (length_stmt_lt ht))

end WastForge.Document
