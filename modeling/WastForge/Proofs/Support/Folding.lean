import WastForge.Proofs.Support.HeapAccess

/-!
# Folded addresses

The address of an access whose operands are literals is computed ahead: with 64 bits, of which each
step keeps the low 32. The machine would compute it with 32 bits or with 64, as the left operands
have. Both are the same address.
-/

namespace WastForge

open Emit Support

/-! ## Words -/

theorem Value.word_i64_ofInt (n : Int) : (Value.i64 (UInt64.ofInt n)).word = UInt32.ofInt n := by
  have hmod : n % 2 ^ 64 % 2 ^ 32 = n % 2 ^ 32 := Int.emod_emod_of_dvd n (by decide)
  have hlo := Int.emod_nonneg n (show (2 : Int) ^ 64 ≠ 0 by decide)
  apply UInt32.toNat_inj.mp
  show (UInt64.ofInt n).toUInt32.toNat = _
  rw [UInt64.toNat_toUInt32, UInt64.ofInt, UInt64.toNat_ofNat', UInt32.ofInt, UInt32.toNat_ofNat']
  omega

/-- What the machine computes for an operator, with 32 bits or with 64, is in its low 32 bits what
is computed ahead. -/
structure IsWordOp (op : BinaryOp) (fold : Int64 → Int64 → Int64)
    (result : UInt32 → UInt32 → UInt32) (meant : Int → Int → Int) : Prop where
  index : IsIndexOp op fold result
  word : ∀ (T : IntType) (u w : Value), ∃ r,
    binary? T.keyword (op.intOp T.signed).name u w = some (.ok r) ∧ r.word = result u.word w.word
  meant : ∀ a b : Int, result (UInt32.ofInt a) (UInt32.ofInt b) = UInt32.ofInt (meant a b)

theorem isWordOp_add : IsWordOp .add (· + ·) (· + ·) (· + ·) where
  index := isIndexOp_add
  word T u w := by
    show ∃ r, binary? T.keyword IntOp.add.name u w = _ ∧ _
    rcases T.keyword_eq with h | h <;>
      simp only [h, binary?, IntOp.ofName?_name, Option.map_some, IntOp.on32, IntOp.on64]
    · exact ⟨_, rfl, Value.word_i32 _⟩
    · exact ⟨_, rfl, UInt64.toUInt32_add _ _⟩
  meant a b := (UInt32.ofInt_add a b).symm

theorem isWordOp_mul : IsWordOp .mul (· * ·) (· * ·) (· * ·) where
  index := isIndexOp_mul
  word T u w := by
    show ∃ r, binary? T.keyword IntOp.mul.name u w = _ ∧ _
    rcases T.keyword_eq with h | h <;>
      simp only [h, binary?, IntOp.ofName?_name, Option.map_some, IntOp.on32, IntOp.on64]
    · exact ⟨_, rfl, Value.word_i32 _⟩
    · exact ⟨_, rfl, UInt64.toUInt32_mul _ _⟩
  meant a b := (UInt32.ofInt_mul a b).symm

/-! ## Literals -/

/-- An integer, character or truth literal of an integral type, with a value of the type. The 64
bits of a literal are a value of every type with 64 bits. -/
structure Address.IsLiteral (tt : TypeTable) (e : Expr) (n : Int64) : Prop where
  constant : e.intConstant? = some n
  type : ∃ T, tt.intType? e.type = some T ∧ (T.contains n.toInt ∨ T.keyword = .i64)

/-- A literal is there. -/
theorem Address.IsLiteral.there {tt : TypeTable} {e : Expr} {n : Int64}
    (h : Address.IsLiteral tt e n) : e.isMissing = false := by
  cases e with
  | missing => cases h.constant
  | _ => rfl

/-- A character that no constant of 32 bits holds. -/
def Expr.IsLongChar (e : Expr) : Prop :=
  ∃ l, e.literal? = some l ∧ l.kind = .char
    ∧ ¬(-0x80000000 ≤ l.int.toInt ∧ l.int.toInt < 0x100000000)

section literals

variable {menv : MachineEnv} {frame : Frame} {m : Machine}

/-- A constant of 32 bits ends in its number, which may have a sign or not. -/
theorem formEnds_word (hm : m.plain = m) {n : Int} (hn : -0x80000000 ≤ n ∧ n < 0x100000000) :
    Eval.FormEnds menv frame (Instruction.intConst .i32 n) m (.ok (.i32 (UInt32.ofInt n))) m := by
  have hword : n < 2 ^ 63 := by omega
  by_cases hsign : n < 0x80000000
  · have hfit : IntType.i32.contains n := ⟨hn.1, hsign⟩
    exact IntType.value_of_i32 (T := .i32) rfl n ▸ Eval.formEnds_intConst hm hfit hword
  · have hfit : IntType.u32.contains n := by
      refine ⟨?_, hn.2⟩
      show 0 ≤ n
      omega
    exact IntType.value_of_i32 (T := .u32) rfl n ▸ Eval.formEnds_intConst hm hfit hword

theorem formEnds_long (hm : m.plain = m) (n : Int64) :
    Eval.FormEnds menv frame (Instruction.intConst .i64 n.toInt) m
      (.ok (.i64 (UInt64.ofInt n.toInt))) m := by
  have hfit : IntType.i64.contains n.toInt := ⟨n.le_toInt, n.toInt_lt⟩
  exact IntType.value_of_i64 (T := .i64) rfl n.toInt ▸ Eval.formEnds_intConst hm hfit n.toInt_lt

/-- Any other number is refused. -/
theorem formEnds_refused (hm : m.plain = m) (n : Int64)
    (hn : ¬(-0x80000000 ≤ n.toInt ∧ n.toInt < 0x100000000)) :
    ∃ t : Trap, t.code = .badOperand ∧
      Eval.FormEnds menv frame (Instruction.intConst .i32 n.toInt) m (.error (.trap t)) m := by
  have hread := Radix.int64?_ofInt (n := n.toInt) (by have := n.le_toInt; omega) n.toInt_lt
  obtain ⟨t, hcode, hvalue⟩ : ∃ t : Trap, t.code = .badOperand
      ∧ Value.ofConstant .i32 (Bytes.ofInt n.toInt) = .error t := by
    refine ⟨_, ?_, by simp only [Value.ofConstant, hread]; exact if_neg (by simpa using hn)⟩
    rfl
  have hends : Eval.FormEnds menv frame (Instruction.intConst .i32 n.toInt) m
      (Eval.raised (Value.ofConstant .i32 (Bytes.ofInt n.toInt))) m := formEnds_const hm _
  rw [hvalue] at hends
  exact ⟨t.plain, hcode, hends⟩

end literals

/-! ## Addresses that are computed -/

/-- The code of an expression ends in a value with these low 32 bits, unless it has a constant that
the machine refuses. -/
structure Emit.Env.Locates (env : Env) (e : Expr) (g : Form) (word : UInt32) (refused : Prop) :
    Prop where
  type : ∃ T, env.types.intType? e.type = some T
  code : env.Gives true e g
  ends : ¬refused → ∀ (menv : MachineEnv) (frame : Frame) (m : Machine), m.plain = m →
    ∃ v : Value, Eval.FormEnds menv frame g m (.ok v) m ∧ v.word = word
  stops : refused → ∀ (menv : MachineEnv) (frame : Frame) (m : Machine), m.plain = m →
    ∃ t : Trap, t.code = .badOperand ∧ Eval.FormEnds menv frame g m (.error (.trap t)) m

namespace Address

/-- An operator that is left to the machine. -/
def operator (tt : TypeTable) (op : BinaryOp) (a b : Expr) : Expr :=
  .binary ⟨typeOf tt a, a.span⟩ op a b

/-- An index as a number of bytes that the machine computes. -/
def scaledTree (tt : TypeTable) (view : HeapView) (index : Expr) : Expr :=
  match view with
  | .u8 => index
  | .i32 => operator tt .mul index (literal view.scale index)

end Address

section locates

variable {env : Env} {x y : Expr} {f g : Form}

/-- A literal is a constant of 64 bits, or one of 32 bits that is read or refused. -/
theorem Address.IsLiteral.cases {tt : TypeTable} {n : Int64} (hx : Address.IsLiteral tt x n) :
    ∃ T, tt.intType? x.type = some T ∧
      (¬x.IsLongChar ∧ x.constantKeyword T = .i64
        ∨ ¬x.IsLongChar ∧ x.constantKeyword T = .i32
          ∧ (-0x80000000 ≤ n.toInt ∧ n.toInt < 0x100000000)
        ∨ x.IsLongChar ∧ x.constantKeyword T = .i32
          ∧ ¬(-0x80000000 ≤ n.toInt ∧ n.toInt < 0x100000000)) := by
  obtain ⟨hconstant, T, htype, hvalue⟩ := hx
  refine ⟨T, htype, ?_⟩
  obtain ⟨l, hl⟩ : ∃ l, x.literal? = some l := by
    cases hl : x.literal? with
    | none => simp [Expr.intConstant?, hl] at hconstant
    | some l => exact ⟨l, rfl⟩
  have hlong : x.IsLongChar ↔
      l.kind = .char ∧ ¬(-0x80000000 ≤ l.int.toInt ∧ l.int.toInt < 0x100000000) := by
    constructor
    · rintro ⟨l', hl', h⟩
      obtain rfl := Option.some.inj (hl.symm.trans hl')
      exact h
    · exact fun h => ⟨l, hl, h⟩
  simp only [Expr.intConstant?, hl] at hconstant
  simp only [hlong, Expr.constantKeyword, hl]
  cases hkind : l.kind with
  | int =>
    simp only [reduceCtorEq, false_and, not_false_eq_true, true_and, if_true, or_false]
    rcases T.keyword_eq with h | h
    · have hbounds := IntType.bounds_of_i32 h (hvalue.resolve_right (by rw [h]; decide))
      exact .inr ⟨h, by omega⟩
    · exact .inl h
  | char =>
    simp only [hkind, Option.some.injEq] at hconstant
    subst hconstant
    simp only [true_and, reduceCtorEq, if_false, and_false, false_or, true_and]
    by_cases hrange : -0x80000000 ≤ l.int.toInt ∧ l.int.toInt < 0x100000000
    · exact .inl ⟨not_not.mpr hrange, hrange⟩
    · exact .inr ⟨hrange, hrange⟩
  | bool =>
    simp only [hkind, Option.some.injEq] at hconstant
    subst hconstant
    simp only [reduceCtorEq, false_and, not_false_eq_true, true_and, if_false, false_or, or_false]
    cases l.bool <;> decide
  | _ => simp [hkind] at hconstant

/-- A literal locates its number. -/
theorem exists_locates_literal {n : Int64} (hx : Address.IsLiteral env.types x n) :
    ∃ g, env.Locates x g (UInt32.ofInt n.toInt) x.IsLongChar := by
  obtain ⟨T, htype, hcases⟩ := hx.cases
  have hcode := gives_literal hx.constant htype true
  refine ⟨_, ⟨T, htype⟩, hcode, fun hshort menv frame m hm => ?_, fun hlong menv frame m hm => ?_⟩
  · rcases hcases with ⟨_, hkeyword⟩ | ⟨_, hkeyword, hrange⟩ | ⟨hlong, _⟩
    · rw [hkeyword]
      exact ⟨_, formEnds_long hm n, Value.word_i64_ofInt n.toInt⟩
    · rw [hkeyword]
      exact ⟨_, formEnds_word hm hrange, Value.word_i32 _⟩
    · exact absurd hlong hshort
  · rcases hcases with ⟨hshort, _⟩ | ⟨hshort, _⟩ | ⟨_, hkeyword, hrange⟩
    · exact absurd hlong hshort
    · exact absurd hlong hshort
    · rw [hkeyword]
      exact formEnds_refused hm n hrange

/-- Folding keeps 32 bits, which a constant of 32 bits holds. -/
theorem locates_literal (hint : env.types.intType? TypeTable.int32 = some .i32) (k : Int32)
    (place : Expr) :
    env.Locates (Address.literal k.toInt64 place) (Instruction.intConst .i32 k.toInt) k.toUInt32
      False where
  type := ⟨.i32, hint⟩
  code := (isIndex_literal hint k place).code
  ends _ _ _ _ hm := ⟨_, formEnds_index hm k, Value.word_i32 _⟩
  stops h := h.elim

/-- The type of an address has 32 bits. -/
theorem intType?_typeOf (hint : env.types.intType? TypeTable.int32 = some .i32)
    (hx : ∃ T, env.types.intType? x.type = some T) :
    ∃ T, env.types.intType? (Address.typeOf env.types x) = some T := by
  unfold Address.typeOf
  split
  · exact hx
  · exact ⟨_, hint⟩

/-- An operator locates what it makes of the low bits of its operands, whatever their types. -/
theorem exists_locates_operator (hint : env.types.intType? TypeTable.int32 = some .i32)
    {op : BinaryOp} {fold : Int64 → Int64 → Int64} {result : UInt32 → UInt32 → UInt32}
    {meant : Int → Int → Int} (hop : IsWordOp op fold result meant) {a b : UInt32} {p q : Prop}
    (hx : env.Locates x f a p) (hy : env.Locates y g b q) :
    ∃ h, env.Locates (Address.operator env.types op x y) h (result a b) (p ∨ q) := by
  obtain ⟨T, hT⟩ := hx.type
  have hoperation : op.isOperation := by
    simp [BinaryOp.isOperation, hop.index.arithmetic]
  have hright : rightOperand env op T.keyword y.type (some g) = some g := by
    have harithmetic := hop.index.arithmetic
    unfold rightOperand
    cases op <;> first | exact absurd harithmetic Bool.false_ne_true | rfl
  have hname := ofName_operation T (op.intOp T.signed)
  refine ⟨.app (T.keyword.text ++ "." ++ (op.intOp T.signed).name) [some f, some g],
    intType?_typeOf hint hx.type, fun j => ?_, fun hnone menv frame m hm => ?_,
    fun hsome menv frame m hm => ?_⟩
  · obtain ⟨j', hj'⟩ := hx.code j
    obtain ⟨j'', hj''⟩ := hy.code j'
    rw [← hright]
    exact ⟨j'', run_expr_binary_at hoperation hT hj' hj'' true⟩
  · obtain ⟨u, hu, rfl⟩ := hx.ends (fun hp => hnone (.inl hp)) menv frame m hm
    obtain ⟨w, hw, rfl⟩ := hy.ends (fun hq => hnone (.inr hq)) menv frame m hm
    obtain ⟨r, hr, hword⟩ := hop.word T u w
    exact ⟨r, Eval.formEnds_operation hname hu hw hr, hword⟩
  · by_cases hp : p
    · obtain ⟨t, ht, hstop⟩ := hx.stops hp menv frame m hm
      exact ⟨t, ht, Eval.formEnds_operation_stop hname hstop⟩
    · obtain ⟨u, hu, -⟩ := hx.ends hp menv frame m hm
      obtain ⟨t, ht, hstop⟩ := hy.stops (hsome.resolve_left hp) menv frame m hm
      exact ⟨t, ht, Eval.formEnds_operation_stop_right hname hu hstop⟩

/-- Literals are folded to what their operator means, of which 32 bits are kept. -/
theorem combine_literals {tt : TypeTable} {op : BinaryOp} {fold : Int64 → Int64 → Int64}
    {result : UInt32 → UInt32 → UInt32} {meant : Int → Int → Int}
    (hop : IsWordOp op fold result meant) {n k : Int64} (hx : x.intConstant? = some n)
    (hy : y.intConstant? = some k) :
    ∃ l : Int32, Address.combine tt op fold x y = Address.literal l.toInt64 x
      ∧ l.toUInt32 = UInt32.ofInt (meant n.toInt k.toInt) := by
  refine ⟨(fold n k).toInt32, ?_, ?_⟩
  · rw [Address.combine, hx, hy]
  · rw [hop.index.fold, ← uint32_ofInt_toInt64, ← uint32_ofInt_toInt64, hop.meant]

end locates

/-! ## One index or two -/

namespace HeapIndex

/-- The address that the machine would compute. -/
def tree (tt : TypeTable) (view : HeapView) : HeapIndex Expr → Expr
  | one x => Address.scaledTree tt view x
  | pair x y => Address.scaledTree tt view (Address.operator tt .add x y)

/-- The address that is meant, without any bound on its size. -/
def bytes (view : HeapView) : HeapIndex Int64 → Int
  | one n => n.toInt * view.scale.toInt
  | pair n k => (n.toInt + k.toInt) * view.scale.toInt

/-- The operands are literals with these values. -/
inductive AreLiterals (tt : TypeTable) : HeapIndex Expr → HeapIndex Int64 → Prop
  | one {x : Expr} {n : Int64} (hx : Address.IsLiteral tt x n) : AreLiterals tt (.one x) (.one n)
  | pair {x y : Expr} {n k : Int64} (hx : Address.IsLiteral tt x n)
    (hy : Address.IsLiteral tt y k) : AreLiterals tt (.pair x y) (.pair n k)

theorem AreLiterals.there {tt : TypeTable} {is : HeapIndex Expr} {ns : HeapIndex Int64} :
    is.AreLiterals tt ns → is.first.isMissing = false
  | .one hx => hx.there
  | .pair hx _ => hx.there

end HeapIndex

section address

variable {env : Env} {x : Expr} {f : Form} {is : HeapIndex Expr} {ns : HeapIndex Int64}

/-- The machine scales an index as it is meant. -/
theorem exists_locates_scaledTree (hint : env.types.intType? TypeTable.int32 = some .i32)
    (view : HeapView) {n : Int} {p : Prop} (hx : env.Locates x f (UInt32.ofInt n) p) :
    ∃ g, env.Locates (Address.scaledTree env.types view x) g
      (UInt32.ofInt (n * view.scale.toInt)) p := by
  cases view with
  | u8 =>
    have hone : n * HeapView.u8.scale.toInt = n := Int.mul_one n
    refine ⟨f, ?_⟩
    rw [hone]
    exact hx
  | i32 =>
    have hfour : (4 : Int32).toInt64 = HeapView.i32.scale := by decide
    have hscale : (4 : Int32).toUInt32 = UInt32.ofInt HeapView.i32.scale.toInt := by decide
    have hliteral := locates_literal hint 4 x
    rw [hfour, hscale] at hliteral
    obtain ⟨g, hg⟩ := exists_locates_operator hint isWordOp_mul hx hliteral
    rw [isWordOp_mul.meant, or_false] at hg
    exact ⟨g, hg⟩

/-- The address that the machine would compute is the one that is meant. -/
theorem exists_locates_tree (hint : env.types.intType? TypeTable.int32 = some .i32)
    (view : HeapView) (his : is.AreLiterals env.types ns) :
    ∃ g, env.Locates (is.tree env.types view) g (UInt32.ofInt (ns.bytes view))
      (∃ e ∈ is.items, e.IsLongChar) := by
  cases his with
  | @one x n hx =>
    obtain ⟨f, hf⟩ := exists_locates_literal hx
    simp only [HeapIndex.items, List.mem_singleton, exists_eq_left]
    exact exists_locates_scaledTree hint view hf
  | @pair x y n k hx hy =>
    obtain ⟨f, hf⟩ := exists_locates_literal hx
    obtain ⟨g, hg⟩ := exists_locates_literal hy
    obtain ⟨h, hh⟩ := exists_locates_operator hint isWordOp_add hf hg
    rw [isWordOp_add.meant] at hh
    simp only [HeapIndex.items, List.mem_cons, List.not_mem_nil, or_false, exists_eq_or_imp,
      exists_eq_left]
    exact exists_locates_scaledTree hint view hh

/-- A sum of literals is one literal, and so is a product. A single index that is not scaled stays
as it is. -/
theorem address_of_literals {tt : TypeTable} (view : HeapView) (his : is.AreLiterals tt ns) :
    (∃ x, is = .one x ∧ view = .u8 ∧ is.address tt view = x)
      ∨ ∃ (k : Int32) (place : Expr), is.address tt view = Address.literal k.toInt64 place
        ∧ k.toUInt32 = UInt32.ofInt (ns.bytes view) := by
  have hscaled : ∀ {x : Expr} {n : Int64}, x.intConstant? = some n →
      ∃ (k : Int32) (place : Expr), Address.scaled tt .i32 x = Address.literal k.toInt64 place
        ∧ k.toUInt32 = UInt32.ofInt (n.toInt * HeapView.i32.scale.toInt) := fun hx =>
    have ⟨k, hk, hword⟩ := combine_literals isWordOp_mul hx rfl
    ⟨k, _, hk, hword⟩
  cases his with
  | @one x n hx =>
    cases view with
    | u8 => exact .inl ⟨x, rfl, rfl, rfl⟩
    | i32 => exact .inr (hscaled hx.constant)
  | @pair x y n k hx hy =>
    obtain ⟨l, hl, hword⟩ : ∃ l : Int32, Address.add tt x y = Address.literal l.toInt64 x
        ∧ l.toUInt32 = UInt32.ofInt (n.toInt + k.toInt) :=
      combine_literals isWordOp_add hx.constant hy.constant
    refine .inr ?_
    cases view with
    | u8 =>
      refine ⟨l, x, hl, ?_⟩
      rw [hword]
      exact congrArg UInt32.ofInt (Int.mul_one _).symm
    | i32 =>
      obtain ⟨k', place, hk', hword'⟩ := hscaled (x := Address.literal l.toInt64 x) rfl
      refine ⟨k', place, ?_, ?_⟩
      · show Address.scaled tt .i32 (Address.add tt x y) = _
        rw [hl, hk']
      · rw [hword', UInt32.ofInt_mul, Int32.toInt_toInt64, uint32_ofInt_toInt, hword,
          ← UInt32.ofInt_mul]
        rfl

/-- The member that reads a character of a string. -/
def stringGetter : MemberRef := ⟨"System.String", "get_Chars"⟩

theorem ofName?_stringGetter : SupportMember.ofName? stringGetter.text = some .stringChar := by
  decide

/-- A call that reads a character is a load at the address of the string and the index. -/
theorem expandExpr_stringGetter (tt : TypeTable) (owner : Bytes) (a : Annot)
    (params : Option (List TypeId)) (isStatic : Bool) {receiver : Expr}
    (hreceiver : receiver.isMissing = false) (index : Expr) :
    expandExpr tt owner (.call a stringGetter params isStatic receiver (some [index]))
      = pure (some (.memory a false TypeTable.uint8 false
          ((HeapIndex.pair receiver index).address tt .u8) .missing)) := by
  simp only [expandExpr, ofName?_stringGetter]
  show (if receiver.isMissing then _ else _) = _
  rw [hreceiver]
  rfl

/-- The address of a string is left to the machine, unless it is a literal as well. -/
theorem address_of_string {tt : TypeTable} {receiver : Expr}
    (hreceiver : receiver.intConstant? = none) (index : Expr) :
    (HeapIndex.pair receiver index).address tt .u8
      = (HeapIndex.pair receiver index).tree tt .u8 := by
  show Address.combine tt .add _ receiver index = _
  rw [Address.combine, hreceiver]
  rfl

/-- An access whose operands are literals is made at the address that the machine would compute:
code for either ends in a value with the low 32 bits of the sum that is meant, scaled. Only a
character that no constant of 32 bits holds is refused by the machine when it computes. What is
folded is a constant of 32 bits, which is never refused. -/
theorem folding_transparent (hint : env.types.intType? TypeTable.int32 = some .i32)
    (view : HeapView) (his : is.AreLiterals env.types ns) :
    (∀ owner a params isStatic receiver,
      expandExpr env.types owner (.call a view.getter params isStatic receiver (some is.items))
        = pure (some (.memory a false view.elementType false (is.address env.types view) .missing)))
    ∧ (∀ owner a params isStatic receiver value,
      expandExpr env.types owner
          (.call a view.setter params isStatic receiver (some (is.items ++ [value])))
        = pure (some (.memory ⟨TypeTable.void, a.span⟩ true view.elementType false
            (is.address env.types view) value)))
    ∧ (∀ owner a params isStatic receiver index, receiver.isMissing = false →
      expandExpr env.types owner (.call a stringGetter params isStatic receiver (some [index]))
          = pure (some (.memory a false TypeTable.uint8 false
              ((HeapIndex.pair receiver index).address env.types .u8) .missing))
        ∧ (receiver.intConstant? = none →
          (HeapIndex.pair receiver index).address env.types .u8
            = (HeapIndex.pair receiver index).tree env.types .u8))
    ∧ ((∃ x, is = .one x ∧ view = .u8 ∧ is.address env.types view = x)
      ∨ ∃ (k : Int32) (place : Expr), is.address env.types view = Address.literal k.toInt64 place
        ∧ env.Gives true (is.address env.types view) (Instruction.intConst .i32 k.toInt)
        ∧ ∀ menv frame m, m.plain = m →
          Eval.FormEnds menv frame (Instruction.intConst .i32 k.toInt) m
            (.ok (.i32 (UInt32.ofInt (ns.bytes view)))) m)
    ∧ ∃ f g, env.Gives true (is.tree env.types view) f
      ∧ env.Gives true (is.address env.types view) g
      ∧ ((∀ e ∈ is.items, ¬e.IsLongChar) → ∀ menv frame m, m.plain = m →
        ∃ v w : Value, Eval.FormEnds menv frame f m (.ok v) m
          ∧ Eval.FormEnds menv frame g m (.ok w) m
          ∧ v.word = UInt32.ofInt (ns.bytes view) ∧ w.word = v.word)
      ∧ ((∃ e ∈ is.items, e.IsLongChar) → ∀ menv frame m, m.plain = m →
        ∃ t : Trap, t.code = .badOperand ∧ Eval.FormEnds menv frame f m (.error (.trap t)) m) := by
  refine ⟨fun owner a params isStatic receiver =>
      expandExpr_getter env.types view his.there owner a params isStatic receiver,
    fun owner a params isStatic receiver value =>
      expandExpr_setter env.types view his.there value owner a params isStatic receiver,
    fun owner a params isStatic receiver index hreceiver =>
      ⟨expandExpr_stringGetter env.types owner a params isStatic hreceiver index,
        fun hconstant => address_of_string hconstant index⟩, ?_, ?_⟩
  · refine (address_of_literals view his).imp_right fun ⟨k, place, hk, hword⟩ =>
      ⟨k, place, hk, hk ▸ (locates_literal hint k place).code, fun menv frame m hm => ?_⟩
    rw [← hword]
    exact formEnds_index hm k
  · obtain ⟨f, hf⟩ := exists_locates_tree hint view his
    have hnone : (∀ e ∈ is.items, ¬e.IsLongChar) → ¬∃ e ∈ is.items, e.IsLongChar :=
      fun h ⟨e, he, hlong⟩ => h e he hlong
    rcases address_of_literals view his with ⟨x, rfl, rfl, -⟩ | ⟨k, place, hk, hword⟩
    · -- nothing is folded
      refine ⟨f, f, hf.code, hf.code, fun hshort menv frame m hm => ?_, hf.stops⟩
      obtain ⟨v, hv, hvalue⟩ := hf.ends (hnone hshort) menv frame m hm
      exact ⟨v, v, hv, hv, hvalue, rfl⟩
    · refine ⟨f, _, hf.code, hk ▸ (locates_literal hint k place).code,
        fun hshort menv frame m hm => ?_, hf.stops⟩
      obtain ⟨v, hv, hvalue⟩ := hf.ends (hnone hshort) menv frame m hm
      obtain ⟨w, hw, hfolded⟩ := (locates_literal hint k place).ends not_false menv frame m hm
      exact ⟨v, w, hv, hw, hvalue, by rw [hfolded, hword, hvalue]⟩

end address

/-- A character of a type with 64 bits, beyond every constant of 32 bits. -/
def longChar : Expr := .literal { type := TypeTable.int64 } { kind := .char, int := 0x10000000000 }

theorem isLiteral_longChar : Address.IsLiteral heapEnv.types longChar 0x10000000000 :=
  ⟨rfl, .i64, by decide, .inr rfl⟩

theorem isLongChar_longChar : longChar.IsLongChar := by
  refine ⟨_, rfl, rfl, ?_⟩
  rintro ⟨-, h⟩
  exact absurd h (by decide)

/-- A character of 64 bits and a one are added ahead to the address 1. The machine, which writes
every character as a constant of 32 bits, refuses to add them. -/
theorem folding_drops_refusal :
    let one : Expr := Address.literal 1 .missing
    (HeapIndex.pair longChar one).AreLiterals heapEnv.types (.pair 0x10000000000 1)
      ∧ ∃ f, heapEnv.Gives true ((HeapIndex.pair longChar one).tree heapEnv.types .u8) f
        ∧ heapEnv.Gives true ((HeapIndex.pair longChar one).address heapEnv.types .u8)
            (Instruction.intConst .i32 1)
        ∧ ∀ menv frame m, m.plain = m →
          (∃ t : Trap, t.code = .badOperand ∧ Eval.FormEnds menv frame f m (.error (.trap t)) m)
            ∧ Eval.FormEnds menv frame (Instruction.intConst .i32 1) m (.ok (.i32 1)) m := by
  intro one
  have hint := hasElements_heapEnv .i32
  have hone : Address.IsLiteral heapEnv.types one 1 := ⟨rfl, .i32, by decide, .inl (by decide)⟩
  have hlits : (HeapIndex.pair longChar one).AreLiterals heapEnv.types (.pair 0x10000000000 1) :=
    .pair isLiteral_longChar hone
  obtain ⟨f, hf⟩ := exists_locates_tree hint .u8 hlits
  have hfolded : (HeapIndex.pair longChar one).address heapEnv.types .u8
      = Address.literal (1 : Int32).toInt64 longChar := by rfl
  refine ⟨hlits, f, hf.code, hfolded ▸ (locates_literal hint 1 longChar).code,
    fun menv frame m hm => ⟨?_, ?_⟩⟩
  · exact hf.stops ⟨longChar, by simp [HeapIndex.items], isLongChar_longChar⟩ menv frame m hm
  · exact formEnds_index hm 1

/-- The sum of a literal of 64 bits and one of 32, scaled to words: the product has lost its high
bits. -/
theorem folding_transparent_mixed :
    let long : Expr := .literal { type := TypeTable.int64 } { kind := .int, int := 0x100000000001 }
    let short : Expr := .literal { type := TypeTable.char } { kind := .char, int := 65 }
    ∃ f g, heapEnv.Gives true ((HeapIndex.pair long short).tree heapEnv.types .i32) f
      ∧ heapEnv.Gives true ((HeapIndex.pair long short).address heapEnv.types .i32) g
      ∧ ∀ menv frame m, m.plain = m → ∃ v w : Value,
        Eval.FormEnds menv frame f m (.ok v) m ∧ Eval.FormEnds menv frame g m (.ok w) m
          ∧ v.word = 264 ∧ w.word = v.word := by
  intro long short
  have hlong : Address.IsLiteral heapEnv.types long 0x100000000001 :=
    ⟨rfl, .i64, by decide, .inr rfl⟩
  have hshort : Address.IsLiteral heapEnv.types short 65 := ⟨rfl, .char, by decide, by decide⟩
  obtain ⟨-, -, -, -, f, g, hf, hg, hends, -⟩ :=
    folding_transparent (hasElements_heapEnv .i32) .i32 (.pair hlong hshort)
  have hnone : ∀ e ∈ (HeapIndex.pair long short).items, ¬e.IsLongChar := by
    intro e he
    simp only [HeapIndex.items, List.mem_cons, List.not_mem_nil, or_false] at he
    rcases he with rfl | rfl <;> rintro ⟨l, hl, hkind, hrange⟩ <;> cases hl
    · cases hkind
    · exact hrange (by decide)
  exact ⟨f, g, hf, hg, hends hnone⟩

end WastForge
