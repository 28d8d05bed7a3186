import WastForge.Proofs.Integer.Compound
import WastForge.Proofs.Machine.Memory
import WastForge.Support.Expand

/-!
# Access to the heap

What the code of an access to the heap does, next to what the view of the memory does at the same
index. The code computes the address of the element in 32 bits and leaves it to the machine to
refuse it, where the view looks at the index itself. So they differ just at the indices that stray.
-/

namespace WastForge

open Emit Support

theorem uint32_ofInt_toInt (k : Int32) : UInt32.ofInt k.toInt = k.toUInt32 := by
  apply UInt32.toBitVec_inj.1
  rw [toBitVec_uint32_ofInt]
  exact BitVec.ofInt_toInt

/-- Of a literal the low 32 bits are kept. -/
theorem uint32_ofInt_toInt64 (x : Int64) : UInt32.ofInt x.toInt = x.toInt32.toUInt32 := by
  have hlow : x.toInt.bmod (2 ^ 32) % 2 ^ 32 = x.toInt % 2 ^ 32 :=
    mod_cast Int.bmod_emod
  rw [← uint32_ofInt_toInt, Int64.toInt_toInt32, UInt32.ofInt, UInt32.ofInt, hlow]

/-! ## Expressions for indices -/

/-- The code of an expression, whatever the journal holds. -/
def Emit.Env.Gives (env : Env) (want : Bool) (e : Expr) (g : Form) : Prop :=
  ∀ j, ∃ j', (expr env want e).run j = (.ok (some g), j')

/-- An expression for an index, and its code. -/
structure Emit.Env.IsIndex (env : Env) (e : Expr) (g : Form) : Prop where
  type : env.types.intType? e.type = some .i32
  code : env.Gives true e g

/-- What has code is there. -/
theorem Emit.Env.IsIndex.there {env : Env} {e : Expr} {g : Form} (h : env.IsIndex e g) :
    e.isMissing = false := by
  cases e with
  | missing =>
    obtain ⟨_, hrun⟩ := h.code []
    cases congrArg Prod.fst hrun
  | _ => rfl

section index

variable {env : Env} {want : Bool} {e x y : Expr} {f g : Form}

theorem gives_unique (h : env.Gives want e f) (h' : env.Gives want e g) : f = g := by
  obtain ⟨j, hj⟩ := h []
  obtain ⟨j', hj'⟩ := h' []
  have hsame := (Prod.mk.inj (hj.symm.trans hj')).1
  exact Option.some.inj (Except.ok.inj hsame)

/-- The machine type of a literal's constant. Only of integers it is that of their type. -/
def Expr.constantKeyword (T : IntType) (e : Expr) : Keyword :=
  match e.literal? with
  | some l => if l.kind = .int then T.keyword else .i32
  | none => .i32

/-- The code of an integer, character or truth literal is a constant. -/
theorem gives_literal {T : IntType} {n : Int64} (hn : e.intConstant? = some n)
    (he : env.types.intType? e.type = some T) (want : Bool) :
    env.Gives want e (Instruction.intConst (e.constantKeyword T) n.toInt) := by
  cases e with
  | literal a l =>
    have hkeyword : keywordOr env (Expr.literal a l).type = T.keyword := keywordOr_of_intType? he
    have hkind : l.kind = .int ∧ l.int = n ∨ l.kind = .char ∧ l.int = n
        ∨ l.kind = .bool ∧ n = if l.bool then 1 else 0 := by
      simp only [Expr.intConstant?, Expr.literal?] at hn
      cases hkind : l.kind <;> simp_all
    intro j
    refine ⟨j, ?_⟩
    rw [expr]
    rcases hkind with ⟨hkind, rfl⟩ | ⟨hkind, rfl⟩ | ⟨hkind, rfl⟩
    · simp only [literal, hkind, hkeyword, not_isFloat_keyword, Expr.constantKeyword, Expr.literal?]
      rfl
    · simp only [literal, hkind, Expr.constantKeyword, Expr.literal?]
      rfl
    · simp only [literal, hkind, Expr.constantKeyword, Expr.literal?]
      cases l.bool <;> rfl
  | _ => cases hn

/-- A literal of a type with 32 bits is a constant of 32 bits. -/
theorem gives_constant {n : Int64} (hn : e.intConstant? = some n)
    (he : env.types.intType? e.type = some .i32) (want : Bool) :
    env.Gives want e (Instruction.intConst .i32 n.toInt) := by
  have hkeyword : e.constantKeyword .i32 = .i32 := by
    unfold Expr.constantKeyword
    split
    · exact ite_self _
    · rfl
  exact hkeyword ▸ gives_literal hn he want

variable {menv : MachineEnv} {frame : Frame} {m m₁ m₂ : Machine} {n : UInt32}

theorem formEnds_const (hm : m.plain = m) (w : Bytes) :
    Eval.FormEnds menv frame (.words ["i32.const", w]) m
      (Eval.raised (Value.ofConstant .i32 w)) m := by
  have hhead : Opcode.ofName "i32.const" = .const .i32 := by decide
  refine Eval.formEnds_of_reaches hm (p := fun _ _ => Eval.lift (Value.ofConstant .i32 w))
    (fun e k _ => ?_) (Eval.Proc.reaches_lift _)
  rw [Eval.form_list, hhead]
  rfl

/-- A literal that ends in an index ends in its low 32 bits. -/
theorem index_of_constant {k : Int64}
    (h : Eval.FormEnds menv frame (Instruction.intConst .i32 k.toInt) m (.ok (.i32 n)) m₁) :
    n = k.toInt32.toUInt32 ∧ m₁ = m := by
  obtain ⟨hvalue, hm⟩ := h.unique (formEnds_const h.plain.1 (Bytes.ofInt k.toInt))
  refine ⟨?_, hm⟩
  rw [← uint32_ofInt_toInt64]
  have hread := Radix.int64?_ofInt (n := k.toInt) (by have := k.le_toInt; omega) k.toInt_lt
  simp only [Value.ofConstant, hread] at hvalue
  split at hvalue
  · have hword := congrArg Value.word (Except.ok.inj hvalue)
    rwa [Value.word_i32, Value.word_i32] at hword
  · cases hvalue

end index

/-- What the machine makes of an operator on indices, and what is made of literals. -/
structure IsIndexOp (op : BinaryOp) (fold : Int64 → Int64 → Int64)
    (result : UInt32 → UInt32 → UInt32) : Prop where
  arithmetic : op.isArithmetic
  machine : ∀ a b, binary? .i32 (op.intOp true).name (.i32 a) (.i32 b)
    = some (.ok (.i32 (result a b)))
  fold : ∀ a b : Int64, (fold a b).toInt32.toUInt32 = result a.toInt32.toUInt32 b.toInt32.toUInt32

theorem isIndexOp_add : IsIndexOp .add (· + ·) (· + ·) where
  arithmetic := rfl
  machine a b := by
    show binary? .i32 IntOp.add.name _ _ = _
    simp only [binary?, IntOp.ofName?_name, Option.map_some, Value.word_i32, IntOp.on32]
  fold a b := by rw [Int64.toInt32_add, Int32.toUInt32_add]

theorem isIndexOp_mul : IsIndexOp .mul (· * ·) (· * ·) where
  arithmetic := rfl
  machine a b := by
    show binary? .i32 IntOp.mul.name _ _ = _
    simp only [binary?, IntOp.ofName?_name, Option.map_some, Value.word_i32, IntOp.on32]
  fold a b := by rw [Int64.toInt32_mul, Int32.toUInt32_mul]

section operators

variable {env : Env} {x y : Expr} {f g : Form}

/-- A literal of 32 bits for an index. -/
theorem isIndex_literal (hint : env.types.intType? TypeTable.int32 = some .i32) (k : Int32)
    (place : Expr) :
    env.IsIndex (Address.literal k.toInt64 place) (Instruction.intConst .i32 k.toInt) := by
  refine ⟨hint, ?_⟩
  have hcode := gives_constant (e := Address.literal k.toInt64 place) (n := k.toInt64) rfl hint true
  rwa [Int32.toInt_toInt64] at hcode

theorem formEnds_index {menv : MachineEnv} {frame : Frame} {m : Machine} (hm : m.plain = m)
    (k : Int32) :
    Eval.FormEnds menv frame (Instruction.intConst .i32 k.toInt) m (.ok (.i32 k.toUInt32)) m := by
  have hfit : IntType.i32.contains k.toInt := ⟨k.le_toInt, k.toInt_lt⟩
  have hends : Eval.FormEnds menv frame (Instruction.intConst .i32 k.toInt) m
      (.ok (IntType.i32.value k.toInt)) m :=
    Eval.formEnds_intConst hm hfit (Int.lt_trans k.toInt_lt (by decide))
  rwa [IntType.value_of_i32 rfl, uint32_ofInt_toInt] at hends

/-- An operator on indices is an index, whether its operands are literals or not. -/
theorem IsIndexOp.combine {op : BinaryOp} {fold : Int64 → Int64 → Int64}
    {result : UInt32 → UInt32 → UInt32} (hop : IsIndexOp op fold result)
    (hint : env.types.intType? TypeTable.int32 = some .i32) (hx : env.IsIndex x f)
    (hy : env.IsIndex y g) :
    ∃ h, env.IsIndex (Address.combine env.types op fold x y) h
      ∧ ∀ {menv : MachineEnv} {frame : Frame} {m m₁ m₂ : Machine} {a b : UInt32},
        Eval.FormEnds menv frame f m (.ok (.i32 a)) m₁ →
        Eval.FormEnds menv frame g m₁ (.ok (.i32 b)) m₂ →
          Eval.FormEnds menv frame h m (.ok (.i32 (result a b))) m₂ := by
  unfold Address.combine
  split
  · rename_i k l hk hl
    obtain rfl := gives_unique hx.code (gives_constant hk hx.type true)
    obtain rfl := gives_unique hy.code (gives_constant hl hy.type true)
    refine ⟨_, isIndex_literal hint (fold k l).toInt32 x, ?_⟩
    intro menv frame m m₁ m₂ a b ha hb
    obtain ⟨rfl, rfl⟩ := index_of_constant ha
    obtain ⟨rfl, rfl⟩ := index_of_constant hb
    rw [← hop.fold]
    exact formEnds_index ha.plain.1 _
  · have hoperation : op.isOperation := by
      simp [BinaryOp.isOperation, hop.arithmetic]
    have hright : rightOperand env op .i32 y.type (some g) = some g := by
      unfold rightOperand
      exact if_neg (by simp)
    have htype : env.types.intType? (Address.typeOf env.types x) = some .i32 := by
      unfold Address.typeOf
      split
      · exact hx.type
      · exact hint
    refine ⟨.app ("i32" ++ "." ++ (op.intOp true).name) [some f, some g],
      ⟨htype, fun j => ?_⟩, ?_⟩
    · obtain ⟨j', hj'⟩ := hx.code j
      obtain ⟨j'', hj''⟩ := hy.code j'
      rw [← hright]
      exact ⟨j'', run_expr_binary_at hoperation hx.type hj' hj'' true⟩
    · intro menv frame m m₁ m₂ a b ha hb
      exact Eval.formEnds_operation (ofName_operation .i32 (op.intOp true)) ha hb (hop.machine a b)

end operators

/-! ## Elements of the heap -/

namespace HeapView

/-- The view of the memory with the same elements. -/
def memory : HeapView → MemoryView
  | .u8 => .u8
  | .i32 => .i32

/-- What an element is. -/
def element : HeapView → IntType
  | .u8 => .u8
  | .i32 => .i32

/-- The type of an element. -/
def elementType : HeapView → TypeId
  | .u8 => TypeTable.uint8
  | .i32 => TypeTable.int32

/-- The member that reads an element. -/
def getter : HeapView → MemberRef
  | .u8 => ⟨"Wasm.HeapU8", "get_Item"⟩
  | .i32 => ⟨"Wasm.HeapI32", "get_Item"⟩

/-- The member that writes an element. -/
def setter : HeapView → MemberRef
  | .u8 => ⟨"Wasm.HeapU8", "set_Item"⟩
  | .i32 => ⟨"Wasm.HeapI32", "set_Item"⟩

/-- What the instruction for an element says about the access. -/
def suffix (view : HeapView) (isStore : Bool) : Bytes :=
  (Cell.int view.element).suffix isStore ++ "/1"

variable (view : HeapView)

theorem width_pos : 0 < view.memory.width := by
  cases view <;> decide

theorem width_lt : view.memory.width < 2 ^ 32 := by
  cases view <;> decide

theorem ofName?_getter : SupportMember.ofName? view.getter.text = some (.heapGet view) := by
  cases view <;> decide

theorem ofName?_setter : SupportMember.ofName? view.setter.text = some (.heapSet view) := by
  cases view <;> decide

theorem ofName_load :
    Opcode.ofName ("i32.load" ++ view.suffix false) = .load .i32 (view.suffix false) := by
  cases view <;> decide

theorem ofName_store :
    Opcode.ofName ("i32.store" ++ view.suffix true) = .store .i32 (view.suffix true) := by
  cases view <;> decide

theorem access_suffix (isStore : Bool) :
    Eval.access .i32 (view.suffix isStore) = pure ⟨view.memory.width, false⟩ := by
  cases view <;> cases isStore <;> rfl

end HeapView

/-- The types of the elements are those that they always are. -/
def Emit.Env.HasElements (env : Env) : Prop :=
  ∀ view : HeapView, env.types.intType? view.elementType = some view.element

theorem memoryOp_elementType {env : Env} (h : env.HasElements) (view : HeapView) (isStore : Bool) :
    memoryOp env isStore view.elementType false
      = (if isStore then "i32.store" else "i32.load" : Bytes) ++ view.suffix isStore := by
  have hkeyword : keywordOr env view.elementType = .i32 := by
    rw [keywordOr_of_intType? (h view)]
    cases view <;> rfl
  have hsuffix := TypeTable.suffix_of_cell? (TypeTable.cell?_of_intType? (h view)) isStore
  rw [memoryOp, hkeyword, hsuffix]
  cases view <;> cases isStore <;> rfl

/-- One index, or two that are added. -/
inductive HeapIndex (α : Type) where
  | one (index : α)
  | pair (base offset : α)

namespace HeapIndex

/-- The operands of an index. -/
def items {α : Type} : HeapIndex α → List α
  | one i => [i]
  | pair i j => [i, j]

/-- The first operand. -/
def first {α : Type} : HeapIndex α → α
  | one i => i
  | pair i _ => i

/-- The second operand. -/
def second {α : Type} : HeapIndex α → Option α
  | one _ => none
  | pair _ j => some j

/-- The index that is meant. -/
def sum : HeapIndex Int32 → Int32
  | one k => k
  | pair k l => k + l

/-- The address of the element. -/
def address (tt : TypeTable) (view : HeapView) : HeapIndex Expr → Expr
  | one x => Address.ofIndices tt view x none
  | pair x y => Address.ofIndices tt view x (some y)

/-- The code of the operands. -/
inductive Codes (env : Env) : HeapIndex Expr → HeapIndex Form → Prop
  | one {x : Expr} {f : Form} (hx : env.IsIndex x f) : Codes env (.one x) (.one f)
  | pair {x y : Expr} {f g : Form} (hx : env.IsIndex x f) (hy : env.IsIndex y g) :
    Codes env (.pair x y) (.pair f g)

theorem Codes.there {env : Env} {is : HeapIndex Expr} {fs : HeapIndex Form} :
    is.Codes env fs → is.first.isMissing = false
  | .one hx => hx.there
  | .pair hx _ => hx.there

/-- The operands end in an index, one after the other. -/
inductive Ends (menv : MachineEnv) (frame : Frame) :
    HeapIndex Form → Machine → HeapIndex Int32 → Machine → Prop
  | one {f : Form} {m m₁ : Machine} {k : Int32}
    (hf : Eval.FormEnds menv frame f m (.ok (.i32 k.toUInt32)) m₁) :
    Ends menv frame (.one f) m (.one k) m₁
  | pair {f g : Form} {m m₁ m₂ : Machine} {k l : Int32}
    (hf : Eval.FormEnds menv frame f m (.ok (.i32 k.toUInt32)) m₁)
    (hg : Eval.FormEnds menv frame g m₁ (.ok (.i32 l.toUInt32)) m₂) :
    Ends menv frame (.pair f g) m (.pair k l) m₂

end HeapIndex

namespace MemoryView

/-- Read the element at an index. -/
def getAt (v : MemoryView) (m : Memory) : HeapIndex Int32 → Except Trap Int32
  | .one k => v.get m k
  | .pair k l => v.get2 m k l

/-- Write the element at an index. -/
def setAt (v : MemoryView) (m : Memory) (value : Int32) : HeapIndex Int32 → Except Trap Memory
  | .one k => v.set m k value
  | .pair k l => v.set2 m k l value

theorem getAt_eq (v : MemoryView) (m : Memory) (k : HeapIndex Int32) :
    v.getAt m k = v.get m k.sum := by
  cases k <;> rfl

theorem setAt_eq (v : MemoryView) (m : Memory) (value : Int32) (k : HeapIndex Int32) :
    v.setAt m value k = v.set m k.sum value := by
  cases k <;> rfl

end MemoryView

section code

variable {env : Env} {x value : Expr} {f g : Form} {is : HeapIndex Expr} {fs : HeapIndex Form}

theorem exists_scaled (helements : env.HasElements) (view : HeapView) (hx : env.IsIndex x f) :
    ∃ g, env.IsIndex (Address.scaled env.types view x) g
      ∧ ∀ {menv : MachineEnv} {frame : Frame} {m m₁ : Machine} {k : Int32},
        Eval.FormEnds menv frame f m (.ok (.i32 k.toUInt32)) m₁ →
          Eval.FormEnds menv frame g m (.ok (.i32 (view.memory.wrapped k))) m₁ := by
  cases view with
  | u8 =>
    refine ⟨f, hx, fun {menv frame m m₁ k} hf => ?_⟩
    have hwrapped : MemoryView.u8.wrapped k = k.toUInt32 := by
      rw [← uint32_ofInt_toInt]
      exact congrArg UInt32.ofInt (Int.mul_one _)
    rw [← hwrapped] at hf
    exact hf
  | i32 =>
    have hfour : (4 : Int32).toInt64 = HeapView.i32.scale := by decide
    have hliteral := isIndex_literal (helements .i32) 4 x
    rw [hfour] at hliteral
    obtain ⟨g, hg, hends⟩ := isIndexOp_mul.combine (helements .i32) hx hliteral
    refine ⟨g, hg, fun {menv frame m m₁ k} hf => ?_⟩
    have hwrapped : MemoryView.i32.wrapped k = k.toUInt32 * (4 : Int32).toUInt32 := by
      show UInt32.ofInt (k.toInt * 4) = _
      rw [UInt32.ofInt_mul, uint32_ofInt_toInt]
      rfl
    have hresult := hends hf (formEnds_index hf.plain.2 4)
    rw [← hwrapped] at hresult
    exact hresult

/-- The address of an element has code that ends in what 32 bits hold of it. -/
theorem exists_address (helements : env.HasElements) (view : HeapView) (his : is.Codes env fs) :
    ∃ g, env.IsIndex (is.address env.types view) g
      ∧ ∀ {menv : MachineEnv} {frame : Frame} {m m₁ : Machine} {k : HeapIndex Int32},
        fs.Ends menv frame m k m₁ →
          Eval.FormEnds menv frame g m (.ok (.i32 (view.memory.wrapped k.sum))) m₁ := by
  cases his with
  | one hx =>
    obtain ⟨g, hg, hends⟩ := exists_scaled helements view hx
    refine ⟨g, hg, fun {menv frame m m₁ k} hk => ?_⟩
    cases hk with
    | one hf => exact hends hf
  | pair hx hy =>
    obtain ⟨h, hh, hsum⟩ := isIndexOp_add.combine (helements .i32) hx hy
    obtain ⟨g, hg, hends⟩ := exists_scaled helements view hh
    refine ⟨g, hg, fun {menv frame m m₁ k} hk => ?_⟩
    cases hk with
    | @pair _ _ _ _ _ k l hf hg =>
      have hresult := hsum hf hg
      rw [← Int32.toUInt32_add] at hresult
      exact hends hresult

theorem gives_load (hx : env.IsIndex x g) (a : Annot) (t : TypeId) (want : Bool) :
    env.Gives want (.memory a false t false x .missing)
      (.list [.atom (memoryOp env false t false), g]) := by
  intro j
  obtain ⟨j', hj'⟩ := hx.code j
  refine ⟨j', ?_⟩
  rw [expr, Work.run_bind hj']
  rfl

theorem gives_store (hx : env.IsIndex x g) (hvalue : env.Gives true value f) (a : Annot)
    (t : TypeId) (want : Bool) :
    env.Gives want (.memory a true t false x value)
      (.list [.atom (memoryOp env true t false), g, f]) := by
  intro j
  obtain ⟨j', hj'⟩ := hx.code j
  obtain ⟨j'', hj''⟩ := hvalue j'
  refine ⟨j'', ?_⟩
  rw [expr, Work.run_bind hj', if_pos rfl, Work.run_bind hj'']
  rfl

end code

/-! ## What an access does -/

/-- An action ends as a view of the memory says: with its result, or out of bounds as the view
does, and then with the machine `stopped`. -/
def Follows {α : Type} (ends : Except Stop Value → Machine → Prop) (stopped : Machine)
    (result : α → Value) (after : α → Machine) : Except Trap α → Prop
  | .ok a => ends (.ok (result a)) (after a)
  | .error t => t.code = .outOfBounds
      ∧ ∃ t' : Trap, t'.code = .outOfBounds ∧ ends (.error (.trap t')) stopped

/-- What the code of an access does, which reaches for as many bytes as the element has at the
address that 32 bits hold. -/
structure Reaching {α : Type} (ends : Except Stop Value → Machine → Prop) (stopped : Machine)
    (result : α → Value) (after : α → Machine) (reached : Except Trap α) : Prop where
  unique : ∀ {o₁ o₂ : Except Stop Value} {m₁ m₂ : Machine}, ends o₁ m₁ → ends o₂ m₂ → o₁ = o₂
  done : ∀ a, reached = .ok a → ends (.ok (result a)) (after a)
  refused : ∀ t, reached = .error t → ends (.error (.trap t.plain)) stopped

/-- An access does what the view does just when its index does not stray. -/
theorem Reaching.follows_iff {α : Type} {ends : Except Stop Value → Machine → Prop}
    {stopped : Machine} {result : α → Value} {after : α → Machine} {reached r : Except Trap α}
    (h : Reaching ends stopped result after reached) {v : MemoryView} {m : Memory} {k : Int32}
    (hw : 0 < v.width)
    (hin : (v.wrapped k).toNat + v.width ≤ m.size.toNat → ∃ a, reached = .ok a)
    (hout : m.size.toNat < (v.wrapped k).toNat + v.width →
      ∃ t : Trap, t.code = .outOfBounds ∧ reached = .error t)
    (hhas : v.Has m k → r = reached)
    (hnot : ¬v.Has m k → ∃ t : Trap, t.code = .outOfBounds ∧ r = .error t) :
    Follows ends stopped result after r ↔ ¬v.Strays m k := by
  by_cases hk : v.Has m k
  · refine iff_of_true ?_ (MemoryView.not_strays_of_has hw hk)
    obtain ⟨a, ha⟩ := hin ((MemoryView.wrapped_in_iff hw).mpr (.inl hk))
    rw [hhas hk, ha]
    exact h.done a ha
  · obtain ⟨t, ht, rfl⟩ := hnot hk
    constructor
    · rintro ⟨-, t', -, hends⟩ hstrays
      -- the code succeeds, where the view refuses the index
      obtain ⟨a, ha⟩ := hin hstrays.2
      cases h.unique hends (h.done a ha)
    · intro hstrays
      have hpast : ¬(v.wrapped k).toNat + v.width ≤ m.size.toNat := fun hle =>
        ((MemoryView.wrapped_in_iff hw).mp hle).elim hk hstrays
      obtain ⟨t', ht', hreached⟩ := hout (Nat.lt_of_not_le hpast)
      exact ⟨ht, t'.plain, ht', h.refused t' hreached⟩

section access

variable {env : Env} {is : HeapIndex Expr} {fs : HeapIndex Form} {value : Expr} {f : Form}

/-- The element that is read at the address that 32 bits hold. -/
def MemoryView.loadWrapped (v : MemoryView) (m : Memory) (k : Int32) : Except Trap Int32 :=
  (m.load (v.wrapped k) v.width).map fun bits => bits.toUInt32.toInt32

/-- The memory with the element written at that address. -/
def MemoryView.storeWrapped (v : MemoryView) (m : Memory) (k value : Int32) : Except Trap Memory :=
  m.store (v.wrapped k) v.width value.toUInt32.toUInt64

/-- The address of an element whose first index is there. -/
theorem elementAddress_of_there {tt : TypeTable} {view : HeapView} {is : HeapIndex Expr}
    (h : is.first.isMissing = false) :
    elementAddress tt view is.first is.second = pure (is.address tt view) := by
  rw [elementAddress, h, Bool.false_and]
  cases is <;> rfl

/-- A call that reads an element is a load at its address. -/
theorem expandExpr_getter (tt : TypeTable) (view : HeapView) {is : HeapIndex Expr}
    (hthere : is.first.isMissing = false) (owner : Bytes) (a : Annot)
    (params : Option (List TypeId)) (isStatic : Bool) (receiver : Expr) :
    expandExpr tt owner (.call a view.getter params isStatic receiver (some is.items))
      = pure (some (.memory a false view.elementType false (is.address tt view) .missing)) := by
  simp only [expandExpr, view.ofName?_getter]
  have hcall : expandCall tt owner (.heapGet view) a view.getter params receiver (some is.items)
      = elementAddress tt view is.first is.second >>= fun address =>
          pure (some (.memory a false view.elementType false address .missing)) := by
    cases is <;> cases view <;> rfl
  rw [hcall, elementAddress_of_there hthere, pure_bind]

/-- A call that writes an element is a store at its address. -/
theorem expandExpr_setter (tt : TypeTable) (view : HeapView) {is : HeapIndex Expr}
    (hthere : is.first.isMissing = false) (value : Expr) (owner : Bytes) (a : Annot)
    (params : Option (List TypeId)) (isStatic : Bool) (receiver : Expr) :
    expandExpr tt owner (.call a view.setter params isStatic receiver (some (is.items ++ [value])))
      = pure (some (.memory ⟨TypeTable.void, a.span⟩ true view.elementType false
          (is.address tt view) value)) := by
  simp only [expandExpr, view.ofName?_setter]
  have hcall : expandCall tt owner (.heapSet view) a view.setter params receiver
        (some (is.items ++ [value]))
      = elementAddress tt view is.first is.second >>= fun address =>
          pure (some (.memory ⟨TypeTable.void, a.span⟩ true view.elementType false address
            value)) := by
    cases is <;> cases view <;> rfl
  rw [hcall, elementAddress_of_there hthere, pure_bind]

/-- A call that reads an element. -/
theorem reaching_get (helements : env.HasElements) (view : HeapView) (his : is.Codes env fs)
    (owner : Bytes) (a : Annot) (params : Option (List TypeId)) (isStatic : Bool)
    (receiver : Expr) :
    ∃ e g, expandExpr env.types owner
        (.call a view.getter params isStatic receiver (some is.items)) = pure (some e)
      ∧ (∀ want, env.Gives want e g)
      ∧ ∀ {menv : MachineEnv} {frame : Frame} {m m₁ : Machine} {k : HeapIndex Int32},
        fs.Ends menv frame m k m₁ →
          Reaching (Eval.FormEnds menv frame g m) m₁ (fun v => .i32 v.toUInt32) (fun _ => m₁)
            (view.memory.loadWrapped m₁.memory k.sum) := by
  obtain ⟨g, hg, haddress⟩ := exists_address helements view his
  refine ⟨_, _, expandExpr_getter env.types view his.there owner a params isStatic receiver,
    gives_load hg a _, fun {menv frame m m₁ k} hk => ?_⟩
  have hop := memoryOp_elementType helements view false
  rw [if_neg Bool.false_ne_true] at hop
  rw [hop]
  have haccess := view.access_suffix false
  unfold MemoryView.loadWrapped
  cases hload : m₁.memory.load (view.memory.wrapped k.sum) view.memory.width with
  | ok bits =>
    refine ⟨fun h h' => (h.unique h').1, fun v hv => ?_, fun t ht => by cases ht⟩
    cases hv
    rw [← Value.word_i32 (view.memory.wrapped k.sum)] at hload
    exact Eval.formEnds_load view.ofName_load haccess (haddress hk) hload
  | error t =>
    refine ⟨fun h h' => (h.unique h').1, fun v hv => (nomatch hv), fun t' ht => ?_⟩
    cases ht
    rw [← Value.word_i32 (view.memory.wrapped k.sum)] at hload
    exact Eval.formEnds_load_stop view.ofName_load haccess (haddress hk) hload

/-- A call that writes an element. -/
theorem reaching_set (helements : env.HasElements) (view : HeapView) (his : is.Codes env fs)
    (hvalue : env.Gives true value f) (owner : Bytes) (a : Annot) (params : Option (List TypeId))
    (isStatic : Bool) (receiver : Expr) :
    ∃ e g, expandExpr env.types owner
        (.call a view.setter params isStatic receiver (some (is.items ++ [value]))) = pure (some e)
      ∧ (∀ want, env.Gives want e g)
      ∧ ∀ {menv : MachineEnv} {frame : Frame} {m m₁ m₂ : Machine} {k : HeapIndex Int32}
        {v : Int32}, fs.Ends menv frame m k m₁ →
          Eval.FormEnds menv frame f m₁ (.ok (.i32 v.toUInt32)) m₂ →
          Reaching (Eval.FormEnds menv frame g m) m₂ (fun _ => .i32 v.toUInt32)
            (fun memory => { m₂ with memory := memory })
            (view.memory.storeWrapped m₂.memory k.sum v) := by
  obtain ⟨g, hg, haddress⟩ := exists_address helements view his
  refine ⟨_, _, expandExpr_setter env.types view his.there value owner a params isStatic receiver,
    gives_store hg hvalue _ _, fun {menv frame m m₁ m₂ k v} hk hv => ?_⟩
  have hop := memoryOp_elementType helements view true
  rw [if_pos rfl] at hop
  rw [hop]
  have haccess := view.access_suffix true
  unfold MemoryView.storeWrapped
  rw [← Value.word_i32 (view.memory.wrapped k.sum)]
  refine ⟨fun h h' => (h.unique h').1, fun memory hstore => ?_, fun t hstore => ?_⟩
  · exact Eval.formEnds_store view.ofName_store haccess (haddress hk) hv hstore
  · exact Eval.formEnds_store_stop view.ofName_store haccess (haddress hk) hv hstore

/-- An access to an element of the heap does what the view of the memory does at the same index:
both read the same value or leave the same memory, or both are out of bounds. The exceptions are the
indices that stray, which the view refuses and the code does not. -/
theorem heap_access_follows_view_iff (helements : env.HasElements) (view : HeapView)
    (his : is.Codes env fs) (hvalue : env.Gives true value f) (owner : Bytes) (a : Annot)
    (params : Option (List TypeId)) (isStatic : Bool) (receiver : Expr) :
    (∃ e g, expandExpr env.types owner
        (.call a view.getter params isStatic receiver (some is.items)) = pure (some e)
      ∧ (∀ want, env.Gives want e g)
      ∧ ∀ (menv : MachineEnv) (frame : Frame) (m m₁ : Machine) (k : HeapIndex Int32),
        fs.Ends menv frame m k m₁ →
          (Follows (Eval.FormEnds menv frame g m) m₁ (fun v => .i32 v.toUInt32) (fun _ => m₁)
              (view.memory.getAt m₁.memory k)
            ↔ ¬view.memory.Strays m₁.memory k.sum))
    ∧ ∃ e g, expandExpr env.types owner
        (.call a view.setter params isStatic receiver (some (is.items ++ [value]))) = pure (some e)
      ∧ (∀ want, env.Gives want e g)
      ∧ ∀ (menv : MachineEnv) (frame : Frame) (m m₁ m₂ : Machine) (k : HeapIndex Int32) (v : Int32),
        fs.Ends menv frame m k m₁ →
        Eval.FormEnds menv frame f m₁ (.ok (.i32 v.toUInt32)) m₂ →
          (Follows (Eval.FormEnds menv frame g m) m₂ (fun _ => .i32 v.toUInt32)
              (fun memory => { m₂ with memory := memory }) (view.memory.setAt m₂.memory v k)
            ↔ ¬view.memory.Strays m₂.memory k.sum) := by
  have hw := view.width_pos
  have hlt := view.width_lt
  constructor
  · obtain ⟨e, g, hexpand, hcode, hreaching⟩ :=
      reaching_get helements view his owner a params isStatic receiver
    refine ⟨e, g, hexpand, hcode, fun menv frame m m₁ k hk => ?_⟩
    rw [MemoryView.getAt_eq]
    refine (hreaching hk).follows_iff hw (fun hin => ?_) (fun hout => ?_) (fun hhas => ?_)
      (MemoryView.get_of_not_has hlt)
    · exact ⟨_, by rw [MemoryView.loadWrapped, Memory.load_ok hin]; rfl⟩
    · obtain ⟨t, ht, hcheck⟩ := Memory.check_error hlt hout
      exact ⟨t, ht, by rw [MemoryView.loadWrapped, Memory.load, hcheck]; rfl⟩
    · obtain ⟨bits, hload, hget⟩ := MemoryView.get_of_has hw hhas
      rw [hget, MemoryView.loadWrapped, hload]
      rfl
  · obtain ⟨e, g, hexpand, hcode, hreaching⟩ :=
      reaching_set helements view his hvalue owner a params isStatic receiver
    refine ⟨e, g, hexpand, hcode, fun menv frame m m₁ m₂ k v hk hv => ?_⟩
    rw [MemoryView.setAt_eq]
    refine (hreaching hk hv).follows_iff hw (fun hin => ?_) (fun hout => ?_) (fun hhas => ?_)
      fun hnot => MemoryView.set_of_not_has hlt hnot v
    · exact ⟨_, Memory.store_ok _ hin⟩
    · obtain ⟨t, ht, hcheck⟩ := Memory.check_error hlt hout
      exact ⟨t, ht, by rw [MemoryView.storeWrapped, Memory.store, hcheck]; rfl⟩
    · obtain ⟨memory, hstore, hset⟩ := MemoryView.set_of_has hw hhas v
      rw [hset, MemoryView.storeWrapped, hstore]

end access

/-! ## A heap of four words -/

/-- A function without locals. -/
def heapEnv : Env := { program := {}, arena := default, locals := some [] }

/-- A machine with sixteen bytes. -/
def heapMachine : Machine := { memory := .ofSize 16 }

/-- A literal for an index. -/
def literalIndex (k : Int32) : Expr := Address.literal k.toInt64 .missing

theorem hasElements_heapEnv : heapEnv.HasElements := by
  intro view
  cases view <;> decide

theorem codes_literalIndex (k : Int32) :
    (HeapIndex.one (literalIndex k)).Codes heapEnv (.one (Instruction.intConst .i32 k.toInt)) :=
  .one (isIndex_literal (hasElements_heapEnv .i32) k .missing)

theorem ends_literalIndex (menv : MachineEnv) (frame : Frame) (k : Int32) :
    (HeapIndex.one (Instruction.intConst .i32 k.toInt)).Ends menv frame heapMachine (.one k)
      heapMachine :=
  .one (formEnds_index rfl k)

theorem load_heapMachine {addr : UInt32} (h : addr.toNat + 4 ≤ 16) :
    heapMachine.memory.load addr 4 = .ok 0 := by
  have hzero : heapMachine.memory.slice addr.toNat 4 = [0, 0, 0, 0] := by
    simp [Memory.slice, Memory.byte, heapMachine, Memory.ofSize, List.range_succ]
  rw [Memory.load_ok h, hzero]
  rfl

/-- The last of the four words is read, and written. -/
theorem heap_access_follows_view_word :
    ∃ e g e' g',
      expandExpr heapEnv.types "T" (.call { type := TypeTable.int32 } HeapView.i32.getter none true
        .missing (some [literalIndex 3])) = pure (some e)
      ∧ heapEnv.Gives true e g
      ∧ Eval.FormEnds ⟨{}, 0, fun _ => .error []⟩ ⟨some "$f", 1⟩ g heapMachine (.ok (.i32 0))
        heapMachine
      ∧ expandExpr heapEnv.types "T" (.call { type := TypeTable.int32 } HeapView.i32.setter none
        true .missing (some [literalIndex 3, literalIndex 7])) = pure (some e')
      ∧ heapEnv.Gives true e' g'
      ∧ ∃ memory, MemoryView.i32.set heapMachine.memory 3 7 = .ok memory
        ∧ Eval.FormEnds ⟨{}, 0, fun _ => .error []⟩ ⟨some "$f", 1⟩ g' heapMachine (.ok (.i32 7))
          { heapMachine with memory := memory } := by
  have hvalue := (isIndex_literal (hasElements_heapEnv .i32) 7 .missing).code
  have hhas : MemoryView.i32.Has heapMachine.memory 3 := by decide
  have hstays : ¬MemoryView.i32.Strays heapMachine.memory 3 := by decide
  have hends := ends_literalIndex ⟨{}, 0, fun _ => .error []⟩ ⟨some "$f", 1⟩ 3
  obtain ⟨⟨e, g, hexpand, hcode, hget⟩, e', g', hexpand', hcode', hset⟩ :=
    heap_access_follows_view_iff hasElements_heapEnv .i32 (codes_literalIndex 3) hvalue "T"
      { type := TypeTable.int32 } none true .missing
  refine ⟨e, g, e', g', hexpand, hcode true, ?_, hexpand', hcode' true, ?_⟩
  · have hfollows := (hget _ _ _ _ _ hends).mpr hstays
    obtain ⟨bits, hload, hvalue⟩ := MemoryView.get_of_has (by decide) hhas
    obtain rfl : bits = 0 := Except.ok.inj (hload.symm.trans (load_heapMachine (by decide)))
    rw [MemoryView.getAt_eq, show (HeapIndex.one (3 : Int32)).sum = 3 from rfl] at hfollows
    rw [show HeapView.i32.memory = MemoryView.i32 from rfl, hvalue] at hfollows
    exact hfollows
  · have hfollows := (hset _ _ _ _ _ _ 7 hends (formEnds_index rfl 7)).mpr hstays
    obtain ⟨memory, -, hset⟩ := MemoryView.set_of_has (by decide) hhas 7
    rw [MemoryView.setAt_eq, show (HeapIndex.one (3 : Int32)).sum = 3 from rfl] at hfollows
    rw [show HeapView.i32.memory = MemoryView.i32 from rfl, hset] at hfollows
    exact ⟨memory, hset, hfollows⟩

/-- The word behind 2^32 bytes is refused by the view, and read as the first one by the code. -/
theorem heap_access_wraps_word :
    ∃ e g,
      expandExpr heapEnv.types "T" (.call { type := TypeTable.int32 } HeapView.i32.getter none true
        .missing (some [literalIndex 0x40000000])) = pure (some e)
      ∧ heapEnv.Gives true e g
      ∧ Eval.FormEnds ⟨{}, 0, fun _ => .error []⟩ ⟨some "$f", 1⟩ g heapMachine (.ok (.i32 0))
        heapMachine
      ∧ (∃ t : Trap, t.code = .outOfBounds
        ∧ MemoryView.i32.get heapMachine.memory 0x40000000 = .error t)
      ∧ MemoryView.i32.Strays heapMachine.memory 0x40000000 := by
  obtain ⟨e, g, hexpand, hcode, hreaching⟩ := reaching_get hasElements_heapEnv .i32
    (codes_literalIndex 0x40000000) "T" { type := TypeTable.int32 } none true .missing
  have hends := ends_literalIndex ⟨{}, 0, fun _ => .error []⟩ ⟨some "$f", 1⟩ 0x40000000
  have hload : MemoryView.i32.loadWrapped heapMachine.memory 0x40000000 = .ok 0 := by
    rw [MemoryView.loadWrapped]
    show (heapMachine.memory.load _ 4).map _ = _
    rw [load_heapMachine (by decide)]
    rfl
  exact ⟨e, g, hexpand, hcode true, (hreaching hends).done 0 hload,
    MemoryView.get_of_not_has (by decide) (by decide), by decide⟩

end WastForge
