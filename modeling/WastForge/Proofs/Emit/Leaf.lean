import Mathlib.Data.List.Forall2
import WastForge.Emit.Expr
import WastForge.Proofs.Emit.Emits
import WastForge.Proofs.Text.Word

/-!
# What the code of expressions is made of

The code of an expression is built in a few ways only: instructions on the code of operands,
constants, reads and writes of declared locals, calls. A class of forms that is closed under them
holds the code of every expression.

An expression that is missing has no code, nor has one that only passes on what it does not have.
Every other expression becomes a form, so only such expressions are left out among the operands of
an instruction.
-/

namespace WastForge

namespace Expr

mutual

/-- Whether an expression may be without code: it is missing, or passes on only such ones. -/
def isBlank : Expr → Bool
  | .missing => true
  | .unary _ .plus x | .cast _ x => isBlank x
  | .comma _ xs => rowsBlank xs
  | _ => false

/-- Whether all expressions of a list that may be left out may be without code. -/
def rowsBlank : Option (List Expr) → Bool
  | none => true
  | some l => allBlank l

/-- Whether all expressions of a list may be without code. -/
def allBlank : List Expr → Bool
  | [] => true
  | e :: rest => isBlank e && allBlank rest

end

/-- A constant has code. -/
theorem isBlank_of_isConstant : ∀ {e : Expr}, e.isConstant → e.isBlank = false
  | .literal .., _ | .intrinsic .., _ | .binary .., _ => rfl
  | .cast _ x, h => by
    unfold isConstant at h
    exact isBlank_of_isConstant (e := x) h
  | .unary _ op x, h => by
    unfold isConstant at h
    cases op with
    | plus => exact isBlank_of_isConstant (e := x) (Bool.and_eq_true_iff.mp h).2
    | _ => rfl

end Expr

namespace Emit

open Work

variable {env : Env}

/-- Work that makes a form is not without code. -/
theorem not_comes_some {act : Work Form} : ¬Comes (do return some (← act)) none := by
  intro h
  obtain ⟨f, -, hpure⟩ := comes_bind h
  cases comes_pure hpure

theorem not_comes_pure_some {f : Form} : ¬Comes (pure (some f)) none := by
  intro h
  cases comes_pure h

theorem none_of_narrow {tt : TypeTable} {x : Option Form} {source target : TypeId} {wrapped : Bool}
    (h : Instruction.narrow tt x source target wrapped = none) : x = none := by
  unfold Instruction.narrow at h
  simp only at h
  repeat' split at h
  · exact h
  · exact h
  · cases h
  · cases h

theorem none_of_convert {tt : TypeTable} {x : Option Form} {source target : TypeId}
    {fk tk : Keyword} (h : Instruction.convert tt x source target fk tk = none) : x = none := by
  unfold Instruction.convert at h
  split at h
  · exact h
  · repeat' split at h
    all_goals cases h

theorem none_of_cast {tt : TypeTable} {x : Option Form} {source target : TypeId} {fk tk : Keyword}
    (h : Instruction.cast tt x source target fk tk = none) : x = none := by
  unfold Instruction.cast at h
  simp only at h
  split at h
  · exact none_of_convert (none_of_narrow h)
  · exact none_of_convert h

theorem none_of_unaryOn {e : Expr} {op : UnaryOp} {kw : Keyword} {x : Option Form}
    (h : Comes (unaryOn env e op kw x) none) : op = .plus ∧ x = none := by
  unfold unaryOn at h
  simp only at h
  split at h
  · exact ⟨rfl, (comes_pure h).symm⟩
  all_goals repeat' split at h
  all_goals first
    | exact absurd h not_comes_pure_some
    | exact absurd h not_comes_some

/-- The parts of a comma are without code only if there are none. -/
theorem comma_eq_none {parts : List Form}
    (h : Comes (match parts with
      | [] => pure none
      | [f] => pure (some f)
      | parts => pure (some (.list (.atom "block" :: parts))) : Work (Option Form)) none) :
    parts = [] := by
  match parts, h with
  | [], _ => rfl
  | [f], h => exact absurd h not_comes_pure_some
  | f :: g :: rest, h => exact absurd h not_comes_pure_some

mutual

/-- An expression without code is blank. -/
theorem blank_of_comes {want : Bool} :
    ∀ {e : Expr}, Comes (expr env want e) none → e.isBlank
  | .missing, _ => rfl
  | .literal a l, h => absurd h not_comes_some
  | .variable a name isParam, h => absurd h not_comes_some
  | .binary a op left right, h => by
    unfold expr at h
    simp only at h
    repeat' split at h
    · obtain ⟨_, _, h⟩ := comes_bind h
      exact absurd h not_comes_some
    · obtain ⟨_, _, h⟩ := comes_bind h
      obtain ⟨r, _, h⟩ := comes_bind h
      cases r with
      | error placeholder => exact absurd h not_comes_some
      | ok p =>
        obtain ⟨_, _, h⟩ := comes_bind h
        obtain ⟨_, _, h⟩ := comes_bind h
        obtain ⟨_, _, h⟩ := comes_bind h
        exact absurd h not_comes_some
    · obtain ⟨_, _, h⟩ := comes_bind h
      obtain ⟨_, _, h⟩ := comes_bind h
      exact absurd h not_comes_pure_some
    · obtain ⟨_, _, h⟩ := comes_bind h
      obtain ⟨_, _, h⟩ := comes_bind h
      exact absurd h not_comes_pure_some
    · obtain ⟨_, _, h⟩ := comes_bind h
      obtain ⟨r, _, h⟩ := comes_bind h
      cases r with
      | error placeholder => exact absurd h not_comes_pure_some
      | ok p =>
        obtain ⟨_, _, h⟩ := comes_bind h
        obtain ⟨_, _, h⟩ := comes_bind h
        obtain ⟨_, _, h⟩ := comes_bind h
        exact absurd h not_comes_pure_some
  | .unary a op x, h => by
    unfold expr at h
    obtain ⟨_, _, h⟩ := comes_bind h
    split at h
    · split at h
      · exact absurd h not_comes_some
      · exact absurd h not_comes_some
    · obtain ⟨v, hv, h⟩ := comes_bind h
      split at h
      · exact absurd h not_comes_some
      · obtain ⟨rfl, rfl⟩ := none_of_unaryOn h
        exact blank_of_comes (e := x) hv
  | .call a target params isStatic receiver args, h => by
    unfold expr at h
    split at h
    · exact absurd h not_comes_some
    · obtain ⟨r, _, h⟩ := comes_bind h
      cases r with
      | error placeholder => exact absurd h not_comes_pure_some
      | ok name =>
        obtain ⟨_, _, h⟩ := comes_bind h
        exact absurd h not_comes_pure_some
  | .field a target isStatic receiver, h => absurd h not_comes_some
  | .property a target getter setter isStatic receiver, h => by
    unfold expr at h
    split at h
    · exact absurd h not_comes_some
    · exact absurd h not_comes_some
  | .cast a x, h => by
    unfold expr at h
    obtain ⟨_, _, h⟩ := comes_bind h
    obtain ⟨v, hv, h⟩ := comes_bind h
    suffices hnone : v = none by
      subst hnone
      exact blank_of_comes (e := x) hv
    split at h
    · exact (comes_pure h).symm
    · split at h
      · exact none_of_cast (comes_pure h).symm
      · exact absurd h not_comes_some
  | .reference a x, h => by
    unfold expr at h
    split at h
    · rename_i hconstant
      have hblank := blank_of_comes (e := x) h
      rw [Expr.isBlank_of_isConstant hconstant] at hblank
      cases hblank
    · exact absurd h not_comes_some
  | .comma a xs, h => by
    unfold expr at h
    obtain ⟨parts, hparts, h⟩ := comes_bind h
    obtain rfl := comma_eq_none h
    exact blank_of_commaRows hparts
  | .conditional a c x y, h => by
    unfold expr at h
    obtain ⟨_, _, h⟩ := comes_bind h
    obtain ⟨_, _, h⟩ := comes_bind h
    obtain ⟨_, _, h⟩ := comes_bind h
    exact absurd h not_comes_pure_some
  | .memory a isStore target aligned address value, h => by
    unfold expr at h
    obtain ⟨_, _, h⟩ := comes_bind h
    split at h
    · obtain ⟨_, _, h⟩ := comes_bind h
      exact absurd h not_comes_pure_some
    · exact absurd h not_comes_pure_some
  | .stringLength a s, h => by
    unfold expr at h
    obtain ⟨_, _, h⟩ := comes_bind h
    exact absurd h not_comes_pure_some
  | .intrinsic a op args, h => by
    unfold expr at h
    obtain ⟨_, _, h⟩ := comes_bind h
    exact absurd h not_comes_pure_some
  | .invoke a name args, h => by
    unfold expr at h
    obtain ⟨_, _, h⟩ := comes_bind h
    exact absurd h not_comes_pure_some
  | .assertion a isEq expected name args, h => by
    unfold expr at h
    obtain ⟨_, _, h⟩ := comes_bind h
    obtain ⟨_, _, h⟩ := comes_bind h
    split at h
    · exact absurd h not_comes_pure_some
    · exact absurd h not_comes_pure_some
  | .assertHeap a offset count expected fromFile, h => absurd h not_comes_some
  | .harnessCall a op args, h => by
    unfold expr at h
    obtain ⟨_, _, h⟩ := comes_bind h
    exact absurd h not_comes_pure_some
  | .bare a kind, h => absurd h not_comes_some
  | .arrayInit a elem size elements hasInit, h => absurd h not_comes_some

theorem blank_of_commaRows : ∀ {rows : Option (List Expr)},
    Comes (commaRows env rows) [] → Expr.rowsBlank rows
  | none, _ => rfl
  | some l, h => blank_of_commaParts (l := l) h

theorem blank_of_commaParts : ∀ {l : List Expr}, Comes (commaParts env l) [] → Expr.allBlank l
  | [], _ => rfl
  | e :: rest, h => by
    unfold commaParts at h
    obtain ⟨_, _, h⟩ := comes_bind h
    obtain ⟨x, hx, h⟩ := comes_bind h
    obtain ⟨xs, hxs, h⟩ := comes_bind h
    obtain ⟨hnone, rfl⟩ := List.append_eq_nil_iff.mp (comes_pure h).symm
    obtain rfl := Option.toList_eq_nil_iff.mp hnone
    exact Bool.and_eq_true_iff.mpr ⟨blank_of_comes (e := e) hx, blank_of_commaParts (l := rest) hxs⟩

end

/-- An operand for every expression; only those of blank expressions are left out. -/
def Fills (rows : Option (List Expr)) (args : List (Option Form)) : Prop :=
  List.Forall₂ (fun e x => x = none → e.isBlank) (Rows.items rows) args

theorem fills_of_comes {rows : Option (List Expr)} {args : List (Option Form)}
    (h : Comes (exprRows env rows) args) : Fills rows args := by
  have hlist : ∀ {l : List Expr} {args : List (Option Form)}, Comes (exprs env l) args →
      List.Forall₂ (fun e x => x = none → e.isBlank) l args := by
    intro l
    induction l with
    | nil =>
      intro args h
      obtain rfl := comes_pure h
      exact .nil
    | cons e rest ih =>
      intro args h
      unfold exprs at h
      obtain ⟨x, hx, h⟩ := comes_bind h
      obtain ⟨xs, hxs, h⟩ := comes_bind h
      obtain rfl := comes_pure h
      refine .cons ?_ (ih hxs)
      rintro rfl
      exact blank_of_comes hx
  cases rows with
  | none =>
    obtain rfl := comes_pure h
    exact .nil
  | some l => exact hlist h

/-- There are no more operands than expressions. -/
theorem Fills.length_le {rows : Option (List Expr)} {args : List (Option Form)}
    (h : Fills rows args) : (args.filterMap id).length ≤ (Rows.items rows).length := by
  rw [List.Forall₂.length_eq h]
  exact List.length_filterMap_le id args

/-- There are as many operands as expressions, unless one of those is blank. -/
theorem Fills.length_eq {rows : Option (List Expr)} {args : List (Option Form)}
    (h : Fills rows args) (hfull : ∀ e ∈ Rows.items rows, e.isBlank = false) :
    (args.filterMap id).length = (Rows.items rows).length := by
  unfold Fills at h
  generalize Rows.items rows = l at h hfull
  induction h with
  | nil => rfl
  | cons hx _ ih =>
    rw [List.forall_mem_cons] at hfull
    rename_i e x _ _ _
    cases x with
    | none =>
      have hblank := hx rfl
      rw [hfull.1] at hblank
      cases hblank
    | some f => exact congrArg (· + 1) (ih hfull.2)

end Emit

end WastForge

namespace WastForge.Emit

open Work

/-- Whether code may name a local: at top level every one, in a function the declared ones. -/
def Env.Declares (env : Env) (name : Bytes) : Prop :=
  env.isTopLevel = true ∨ (env.local? name).isSome = true

/-- Words that forms start with and that are no instructions on operands: branches, the
declarations of functions, and modules. -/
def reserved : List Bytes := ["br", "param", "local", "result", "module"]

/-- The words of the instructions that refer to a function or a local. -/
def naming : List Bytes := ["call", "call_import", "get_local", "set_local"]

/-- A class of forms that is closed under the ways in which the code of expressions is built. -/
structure FormClass (env : Env) where
  holds : Form → Prop
  /-- The words that instructions may have. -/
  op : Bytes → Prop
  /-- The numbers and names that may be operands. -/
  word : Bytes → Prop
  /-- The functions that may be called. -/
  target : Bytes → Prop
  /-- The locals that may be read and set. -/
  named : Bytes → Prop
  /-- The nodes that an expression may have. -/
  node : Node → Prop
  op_isWord : ∀ w, Token.isWord w → w ∉ reserved ++ naming → op w
  op_intrinsic : ∀ a w args, node (.expr (.intrinsic a w args)) → op w
  target_callee : ∀ ref params b, callee? env ref params = some b → b.id ∉ env.skipped →
    env.entry ≠ some b.id → target (Name.func b.func.ref)
  target_string : ∀ content slot, env.arena.string? content = some slot →
    target (Name.stringFirst slot.offset)
  target_length : ∀ a s, node (.expr (.stringLength a s)) → target Name.stringLength
  named_variable : ∀ a name isParam, node (.expr (.variable a name isParam)) → named name
  word_isWord : ∀ w, Token.isWord w → word w
  word_float : ∀ kw bits, word (Instruction.floatText kw bits)
  app : ∀ w args, op w → (∀ g, some g ∈ args → holds g) → holds (.app w args)
  const : ∀ kw n, word n → holds (Instruction.const kw n)
  call : ∀ name args, word name → target name → (∀ g, some g ∈ args → holds g) →
    holds (.app "call" (some (.atom name) :: args))
  callImport : ∀ a op rows args, node (.expr (.harnessCall a op rows)) →
    word ("$" ++ op.importName) → Fills rows args → (∀ g, some g ∈ args → holds g) →
    holds (.app "call_import" (some (.atom ("$" ++ op.importName)) :: args))
  getLocal : ∀ name, env.Declares name → named name →
    holds (.words ["get_local", Name.local_ name])
  setLocal : ∀ name value, env.Declares name → named name → (∀ g, value = some g → holds g) →
    holds (.app "set_local" [some (.atom (Name.local_ name)), value])
  invoke : ∀ name args, (∀ g, some g ∈ args → holds g) →
    holds (.app "invoke" (some (.text name) :: args))
  assertHeap : ∀ n t, word n → holds (.list [.atom "assert_heap_eq", .atom n, .text t])
  assertHeapFile : ∀ n k t, word n → word k →
    holds (.list [.atom "assert_heap_eq_file", .atom n, .atom k, .text t])

namespace FormClass

variable {env : Env} (K : FormClass env)

/-- Forms of the class, or nothing. -/
def Part (x : Option Form) : Prop := ∀ g, x = some g → K.holds g

theorem app_one {w : Bytes} {x : Option Form} (hw : K.op w) (hx : K.Part x) :
    K.holds (.app w [x]) := by
  refine K.app w [x] hw fun g hg => ?_
  exact hx g (List.mem_singleton.mp hg).symm

theorem app_two {w : Bytes} {x y : Option Form} (hw : K.op w) (hx : K.Part x) (hy : K.Part y) :
    K.holds (.app w [x, y]) := by
  refine K.app w [x, y] hw fun g hg => ?_
  rcases List.mem_cons.mp hg with h | h
  · exact hx g h.symm
  · exact hy g (List.mem_singleton.mp h).symm

theorem app_three {w : Bytes} {x y z : Option Form} (hw : K.op w) (hx : K.Part x)
    (hy : K.Part y) (hz : K.Part z) : K.holds (.app w [x, y, z]) := by
  refine K.app w [x, y, z] hw fun g hg => ?_
  rcases List.mem_cons.mp hg with h | hg
  · exact hx g h.symm
  rcases List.mem_cons.mp hg with h | h
  · exact hy g h.symm
  · exact hz g (List.mem_singleton.mp h).symm

theorem part_some {g : Form} (h : K.holds g) : K.Part (some g) := by
  intro g' hg'
  cases hg'
  exact h

theorem part_none : K.Part none := fun _ h => by cases h

theorem holds_intConst (kw : Keyword) (n : Int) : K.holds (Instruction.intConst kw n) :=
  K.const kw _ (K.word_isWord _ (Token.isWord_ofInt n))

/-- The instructions of a machine type. -/
theorem op_typed (kw : Keyword) {rest : Bytes} (h : ∀ b ∈ rest, Token.isWordByte b) :
    K.op (kw.text ++ rest) := by
  have hkw : ∀ b ∈ kw.text, Token.isWordByte b :=
    List.all_eq_true.mp (by cases kw <;> decide)
  have hne : kw.text ≠ [] := by
    cases kw <;> decide
  refine K.op_isWord _ (Token.isWord_of_all ?_ ?_) ?_
  · simp [hne]
  · intro b hb
    rcases List.mem_append.mp hb with hb | hb
    · exact hkw b hb
    · exact h b hb
  · -- none of these words starts with the first letter of a machine type
    have hfirst : ∀ w ∈ reserved ++ naming, w.head? ≠ kw.text.head? := by
      cases kw <;> decide
    intro hmem
    refine hfirst _ hmem ?_
    rw [List.head?_append, List.head?_eq_some_head hne]
    rfl

theorem part_app_one {w : Bytes} {x : Option Form} (hw : K.op w) (hx : K.Part x) :
    K.Part (some (.app w [x])) :=
  K.part_some (K.app_one hw hx)

/-- The letter of a sign is part of words. -/
theorem isWordByte_signLetter {tt : TypeTable} {t : TypeId} {b : UInt8}
    (hb : b ∈ Instruction.signLetter tt t) : Token.isWordByte b := by
  have hletters : ∀ b ∈ ("su" : Bytes), Token.isWordByte b :=
    List.all_eq_true.mp (by decide)
  unfold Instruction.signLetter at hb
  split at hb
  · exact hletters b (List.mem_append_left "u" hb)
  · exact hletters b (List.mem_append_right "s" hb)

theorem op_ofBinary {tt : TypeTable} {op : BinaryOp} {kw : Keyword} {t : TypeId} {name : Bytes}
    (h : Instruction.ofBinary? tt op kw t = some name) : K.op name := by
  unfold Instruction.ofBinary? at h
  cases hstem : Instruction.stem? op with
  | none =>
    rw [hstem] at h
    cases h
  | some stem =>
    have hbytes : ∀ b ∈ (("." : Bytes) ++ stem), Token.isWordByte b :=
      List.all_eq_true.mp (by cases op <;> cases hstem <;> decide)
    have hscore : ∀ b ∈ ("_" : Bytes), Token.isWordByte b :=
    List.all_eq_true.mp (by decide)
    simp only [hstem] at h
    split at h
    · split at h
      · cases h
      · cases h
        rw [List.append_assoc]
        exact K.op_typed kw hbytes
    · cases h
      rw [List.append_assoc kw.text, List.append_assoc kw.text]
      refine K.op_typed kw fun b hb => ?_
      rcases List.mem_append.mp hb with hb | hb
      · exact hbytes b hb
      · split at hb
        · rcases List.mem_append.mp hb with hb | hb
          · exact hscore b hb
          · exact isWordByte_signLetter hb
        · cases hb

theorem isWordByte_memorySuffix {tt : TypeTable} {t : TypeId} {isStore : Bool} {b : UInt8}
    (hb : b ∈ tt.memorySuffix t isStore) : Token.isWordByte b := by
  have hall : ∀ s ∈ (["8", "8_s", "8_u", "16", "16_s", "16_u", ""] : List Bytes),
      s.all Token.isWordByte := by decide
  have hmem : tt.memorySuffix t isStore
      ∈ (["8", "8_s", "8_u", "16", "16_s", "16_u", ""] : List Bytes) := by
    unfold TypeTable.memorySuffix
    split
    · decide
    · simp only
      cases isStore <;> simp only [Bool.false_eq_true, if_true, if_false] <;>
        repeat' split
      all_goals decide
  exact List.all_eq_true.mp (hall _ hmem) b hb

theorem holds_load {tt : TypeTable} {t : TypeId} {kw : Keyword} {address : Form}
    (h : K.holds address) : K.holds (Instruction.load tt t kw address) := by
  refine K.app_one ?_ (K.part_some h)
  have hload : ∀ b ∈ (".load" : Bytes), Token.isWordByte b :=
    List.all_eq_true.mp (by decide)
  rw [List.append_assoc]
  refine K.op_typed kw fun b hb => ?_
  rcases List.mem_append.mp hb with hb | hb
  · exact hload b hb
  · exact isWordByte_memorySuffix hb

theorem holds_store {tt : TypeTable} {t : TypeId} {kw : Keyword} {address : Form}
    {value : Option Form} (h : K.holds address) (hv : K.Part value) :
    K.holds (Instruction.store tt t kw address value) := by
  refine K.app_two ?_ (K.part_some h) hv
  have hstore : ∀ b ∈ (".store" : Bytes), Token.isWordByte b :=
    List.all_eq_true.mp (by decide)
  rw [List.append_assoc]
  refine K.op_typed kw fun b hb => ?_
  rcases List.mem_append.mp hb with hb | hb
  · exact hstore b hb
  · exact isWordByte_memorySuffix hb

theorem part_narrow {tt : TypeTable} {x : Option Form} {source target : TypeId} {wrapped : Bool}
    (hx : K.Part x) : K.Part (Instruction.narrow tt x source target wrapped) := by
  unfold Instruction.narrow
  simp only
  split
  · exact hx
  split
  · exact hx
  split
  · refine K.part_some (K.app_two (K.op_isWord _ (by decide) (by decide)) ?_ ?_)
    · refine K.part_some (K.app_two (K.op_isWord _ (by decide) (by decide)) hx ?_)
      exact K.part_some (K.holds_intConst _ _)
    · exact K.part_some (K.holds_intConst _ _)
  · refine K.part_some (K.app_two (K.op_isWord _ (by decide) (by decide)) hx ?_)
    exact K.part_some (K.holds_intConst _ _)

theorem part_convert {tt : TypeTable} {x : Option Form} {source target : TypeId}
    {fk tk : Keyword} (hx : K.Part x) :
    K.Part (Instruction.convert tt x source target fk tk) := by
  have hsigned : ∀ (kw : Keyword) (front : Bytes) (t : TypeId) (from_ : Keyword),
      (∀ b ∈ front, Token.isWordByte b) →
      K.op (kw.text ++ front ++ Instruction.signLetter tt t ++ "/" ++ from_.text) := by
    intro kw front t from_ hfront
    have hfrom : ∀ b ∈ (("/" : Bytes) ++ from_.text), Token.isWordByte b :=
      List.all_eq_true.mp (by cases from_ <;> decide)
    rw [List.append_assoc, List.append_assoc, List.append_assoc]
    refine K.op_typed kw fun b hb => ?_
    rcases List.mem_append.mp hb with hb | hb
    · exact hfront b hb
    rcases List.mem_append.mp hb with hb | hb
    · exact isWordByte_signLetter hb
    · exact hfrom b hb
  unfold Instruction.convert
  repeat' split
  · exact hx
  · refine K.part_app_one ?_ hx
    unfold Instruction.signLetter
    split <;> exact K.op_isWord _ (by decide) (by decide)
  · exact K.part_app_one (K.op_isWord _ (by decide) (by decide)) hx
  · exact K.part_app_one (hsigned tk ".convert_" source fk (List.all_eq_true.mp (by decide))) hx
  · exact K.part_app_one (hsigned tk ".trunc_" target fk (List.all_eq_true.mp (by decide))) hx
  · exact K.part_app_one (K.op_isWord _ (by decide) (by decide)) hx
  · exact K.part_app_one (K.op_isWord _ (by decide) (by decide)) hx

theorem part_cast {tt : TypeTable} {x : Option Form} {source target : TypeId} {fk tk : Keyword}
    (hx : K.Part x) : K.Part (Instruction.cast tt x source target fk tk) := by
  unfold Instruction.cast
  simp only
  split
  · exact K.part_narrow (K.part_convert hx)
  · exact K.part_convert hx

end FormClass

end WastForge.Emit
