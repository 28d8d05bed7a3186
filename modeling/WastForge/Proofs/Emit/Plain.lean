import Mathlib
import WastForge.Proofs.Emit.ExprCode
import WastForge.Proofs.Program.Each
import WastForge.Proofs.Text.Word

/-!
# Code of expressions as text

Every branch of a text is listed in the order in which they stand there, with the labels of the
blocks and loops around it. The code of an expression can be read back, has no branches, and starts
with a word that declares nothing.
-/

namespace WastForge

/-- A branch: the labels of the blocks and loops around it, the innermost first, and the label that
it names. -/
structure Branch where
  around : List Bytes
  label : Bytes
  deriving Repr, DecidableEq

/-- How many labels stand between a branch and the innermost one that it can mean. -/
def Branch.depth? (b : Branch) : Option Nat := b.around.idxOf? b.label

namespace Form

mutual

/-- The branches of a form that stands inside of blocks and loops with these labels. -/
def branches (around : List Bytes) : Form → List Branch
  | .list items => branchesIn around items
  | _ => []

/-- The branches of a list of these forms. -/
def branchesIn (around : List Bytes) : List Form → List Branch
  | [] => []
  | head :: rest =>
    if head.word = "br" then
      ⟨around, (rest.head?.map word).getD []⟩ :: branchesAll around rest
    else if head.word = "block" ∨ head.word = "loop" then branchesBody around rest
    else branches around head ++ branchesAll around rest

/-- The branches of forms one after the other. -/
def branchesAll (around : List Bytes) : List Form → List Branch
  | [] => []
  | f :: rest => branches around f ++ branchesAll around rest

/-- The branches of a block or loop, behind its label if it has one. -/
def branchesBody (around : List Bytes) : List Form → List Branch
  | [] => []
  | first :: body =>
    branches around first
      ++ branchesAll (if isLabel first.word then first.word :: around else around) body

end

@[simp] theorem word_atom (w : Bytes) : (Form.atom w).word = w := rfl

theorem branchesAll_append (around : List Bytes) (fs gs : List Form) :
    branchesAll around (fs ++ gs) = branchesAll around fs ++ branchesAll around gs := by
  induction fs with
  | nil => rfl
  | cons f fs ih => rw [List.cons_append, branchesAll, branchesAll, ih, List.append_assoc]

/-- A form that is no branch, block or loop. -/
theorem branches_list {around : List Bytes} {head : Bytes} {fs : List Form} (hbr : head ≠ "br")
    (hblock : head ≠ "block") (hloop : head ≠ "loop") :
    branches around (.list (.atom head :: fs)) = branchesAll around fs := by
  rw [branches, branchesIn, word_atom, if_neg hbr, if_neg (not_or.mpr ⟨hblock, hloop⟩)]
  rfl

/-- A block or loop with a label. -/
theorem branches_labelled {around : List Bytes} {head l : Bytes} {fs : List Form}
    (hhead : head = "block" ∨ head = "loop") (hl : isLabel l) :
    branches around (.list (.atom head :: .atom l :: fs)) = branchesAll (l :: around) fs := by
  have hbr : head ≠ "br" := by
    rcases hhead with rfl | rfl
    · decide
    · decide
  rw [branches, branchesIn, word_atom, if_neg hbr, if_pos hhead, branchesBody, word_atom,
    if_pos hl]
  rfl

/-- A block without a label. -/
theorem branches_block {around : List Bytes} {fs : List Form} (hfs : ∀ f ∈ fs, f.word = []) :
    branches around (.list (.atom "block" :: fs)) = branchesAll around fs := by
  rw [branches, branchesIn, word_atom, if_neg (by decide), if_pos (.inl rfl)]
  cases fs with
  | nil => rfl
  | cons f fs =>
    rw [branchesBody, hfs f List.mem_cons_self, if_neg (by decide)]
    rfl

/-- Words that forms of a module start with where no instruction stands. -/
def declaring : List Bytes := ["param", "local", "result", "module"]

/-- The form starts with the word of an instruction. -/
def IsInstruction : Form → Prop
  | .list (.atom w :: _) => w ∉ declaring
  | _ => False

theorem IsInstruction.word {f : Form} (h : f.IsInstruction) : f.word = [] := by
  cases f with
  | list items => rfl
  | atom w => exact absurd h id
  | text t => exact absurd h id

/-- Code of an expression. -/
structure Plain (f : Form) : Prop where
  readable : f.isReadable
  leaf : IsLeaf [] (fun _ => False) f
  branches : ∀ around, f.branches around = []
  instruction : f.IsInstruction

theorem branchesAll_eq_nil {around : List Bytes} {fs : List Form}
    (h : ∀ f ∈ fs, ∀ around, f.branches around = []) : branchesAll around fs = [] := by
  induction fs with
  | nil => rfl
  | cons f rest ih =>
    rw [branchesAll, h f List.mem_cons_self, ih fun g hg => h g (List.mem_cons_of_mem _ hg)]
    rfl

theorem branches_atom (around : List Bytes) (w : Bytes) : (Form.atom w).branches around = [] := rfl

/-- An instruction without a label has the branches of its operands. -/
theorem branches_eq_nil {around : List Bytes} {head : Bytes} {fs : List Form} (hbr : head ≠ "br")
    (hlabel : ∀ f ∈ fs.head?, head = "block" ∨ head = "loop" → isLabel f.word = false)
    (hfs : ∀ f ∈ fs, ∀ around, f.branches around = []) :
    branches around (.list (.atom head :: fs)) = [] := by
  have hall : ∀ around, branchesAll around fs = [] := fun _ => branchesAll_eq_nil hfs
  rw [branches, branchesIn, word_atom, if_neg hbr]
  split
  · rename_i hbody
    cases fs with
    | nil => rfl
    | cons f rest =>
      have hrest := hall around
      rw [branchesAll, List.append_eq_nil_iff] at hrest
      rw [branchesBody, hlabel f rfl hbody, if_neg Bool.false_ne_true, hrest.1, hrest.2]
      rfl
  · rw [branches_atom, hall]
    rfl

theorem ofName_br {w : Bytes} (h : Opcode.ofName w = .br) : w = "br" := by
  unfold Opcode.ofName at h
  iterate 4
    rcases ite_eq_iff.mp h with ⟨_, h⟩ | ⟨_, h⟩
    · cases h
  rcases ite_eq_iff.mp h with ⟨hw, h⟩ | ⟨_, h⟩
  · exact beq_iff_eq.mp hw
  iterate 11
    rcases ite_eq_iff.mp h with ⟨_, h⟩ | ⟨_, h⟩
    · cases h
  unfold Opcode.ofTyped at h
  repeat' split at h
  all_goals cases h

theorem plain_app {w : Bytes} {fs : List Form} (hw : Token.isWord w)
    (hreserved : w ∉ Emit.reserved) (hfs : ∀ f ∈ fs, f.Plain) :
    (Form.list (.atom w :: fs)).Plain where
  readable := by
    simp only [isReadable, areReadable, hw, Bool.true_and]
    exact (areReadable_iff fs).mpr fun f hf => (hfs f hf).readable
  leaf := by
    refine isLeaf_list List.not_mem_nil (fun hbr => ?_) fun f hf => (hfs f hf).leaf
    rw [ofName_br hbr] at hreserved
    exact hreserved (by decide)
  branches around := by
    refine branches_eq_nil ?_ (fun f hf _ => ?_) fun f hf => (hfs f hf).branches
    · rintro rfl
      exact hreserved (by decide)
    · rw [(hfs f (List.mem_of_mem_head? hf)).leaf.word]
      rfl
  instruction := fun hmem => hreserved (List.mem_cons_of_mem _ hmem)

/-- An instruction without operands. -/
theorem plain_word {w : Bytes} (hw : Token.isWord w) (hreserved : w ∉ Emit.reserved) :
    (Form.words [w]).Plain :=
  plain_app hw hreserved (List.forall_mem_nil _)

/-- What an instruction may have for an operand: a word, a text, or code. -/
structure Operand (f : Form) : Prop where
  readable : f.isReadable
  safe : Safe [] (fun _ => False) f
  branches : ∀ around, f.branches around = []

theorem operand_atom {w : Bytes} (hw : Token.isWord w) : (Form.atom w).Operand :=
  ⟨hw, trivial, fun _ => rfl⟩

theorem operand_text (t : Bytes) : (Form.text t).Operand := ⟨rfl, trivial, fun _ => rfl⟩

theorem Plain.operand {f : Form} (h : f.Plain) : f.Operand := ⟨h.readable, h.leaf.safe, h.branches⟩

/-- An instruction that is neither a branch nor a block may have words for operands. -/
theorem plain_of_operands {head : Bytes} {fs : List Form}
    (hsafe : ∀ fs, SafeAll [] (fun _ => False) fs
      → SafeItems [] (fun _ => False) (.atom head :: fs))
    (hhead : Token.isWord head) (hreserved : head ∉ Emit.reserved)
    (hblock : head ≠ "block" ∧ head ≠ "loop") (hfs : ∀ f ∈ fs, f.Operand) :
    (Form.list (.atom head :: fs)).Plain where
  readable := by
    simp only [isReadable, areReadable, hhead, Bool.true_and]
    exact (areReadable_iff fs).mpr fun f hf => (hfs f hf).readable
  leaf := by
    have hall : SafeAll [] (fun _ => False) fs := safeAll_iff.mpr fun f hf => (hfs f hf).safe
    exact ⟨hsafe fs hall, hall, rfl⟩
  branches around := by
    refine branches_eq_nil ?_ (fun f hf hlabel => ?_) fun f hf => (hfs f hf).branches
    · rintro rfl
      exact hreserved (by decide)
    · rcases hlabel with h | h
      · exact absurd h hblock.1
      · exact absurd h hblock.2
  instruction := fun hmem => hreserved (List.mem_cons_of_mem _ hmem)

theorem forall_filterMap_id {P : Form → Prop} {args : List (Option Form)}
    (h : ∀ g, some g ∈ args → P g) : ∀ f ∈ args.filterMap id, P f := by
  intro f hf
  obtain ⟨x, hx, rfl⟩ := List.mem_filterMap.mp hf
  exact h f hx

end Form

namespace Emit

open Form

/-- The class of the code of expressions. -/
def FormClass.plain (env : Env) : FormClass env where
  holds := Plain
  op w := Token.isWord w ∧ w ∉ reserved
  word w := Token.isWord w
  target _ := True
  named _ := True
  node := Node.Names fun w => Token.isWord w ∧ w ∉ reserved
  op_isWord _ hw hother := ⟨hw, fun h => hother (List.mem_append_left _ h)⟩
  op_intrinsic _ _ _ h := h
  target_callee _ _ _ _ _ _ := trivial
  target_string _ _ _ := trivial
  target_length _ _ _ := trivial
  named_variable _ _ _ _ := trivial
  word_isWord _ hw := hw
  word_float kw bits := Instruction.isWord_floatText kw bits
  app w args hw hargs := plain_app hw.1 hw.2 (forall_filterMap_id hargs)
  const kw n hn := by
    refine plain_of_operands ?_ ?_ ?_ ?_ fun f hf => ?_
    · intro fs hfs
      cases kw <;> exact hfs
    · cases kw <;> decide
    · cases kw <;> decide
    · cases kw <;> decide
    · obtain rfl := List.mem_singleton.mp hf
      exact operand_atom hn
  call name args hname _ hargs := by
    refine plain_of_operands (fun _ h => h) (by decide) (by decide) (by decide) fun f hf => ?_
    rcases List.mem_cons.mp hf with rfl | hf
    · exact operand_atom hname
    · exact (forall_filterMap_id hargs f hf).operand
  callImport a op rows args _ hname _ hargs := by
    refine plain_of_operands (fun _ h => h) (by decide) (by decide) (by decide) fun f hf => ?_
    rcases List.mem_cons.mp hf with rfl | hf
    · exact operand_atom hname
    · exact (forall_filterMap_id hargs f hf).operand
  getLocal name _ _ := by
    refine plain_of_operands (fun _ h => ⟨fun _ _ => List.not_mem_nil, h⟩) (by decide) (by decide)
      (by decide) fun f hf => ?_
    obtain rfl := List.mem_singleton.mp hf
    exact operand_atom (Name.isWord_local name)
  setLocal name value _ _ hvalue := by
    refine plain_of_operands (fun _ h => ⟨fun _ _ => List.not_mem_nil, h⟩) (by decide) (by decide)
      (by decide) fun f hf => ?_
    rcases List.mem_cons.mp hf with rfl | hf
    · exact operand_atom (Name.isWord_local name)
    · refine (forall_filterMap_id (P := Plain) (fun g hg => ?_) f hf).operand
      exact hvalue g (List.mem_singleton.mp hg).symm
  invoke name args hargs := by
    refine plain_of_operands (fun _ h => h) (by decide) (by decide) (by decide) fun f hf => ?_
    rcases List.mem_cons.mp hf with rfl | hf
    · exact operand_text name
    · exact (forall_filterMap_id hargs f hf).operand
  assertHeap n t hn := by
    refine plain_of_operands (fun _ h => h) (by decide) (by decide) (by decide) ?_
    simp only [List.forall_mem_cons]
    exact ⟨operand_atom hn, operand_text t, List.forall_mem_nil _⟩
  assertHeapFile n k t hn hk := by
    refine plain_of_operands (fun _ h => h) (by decide) (by decide) (by decide) ?_
    simp only [List.forall_mem_cons]
    exact ⟨operand_atom hn, operand_atom hk, operand_text t, List.forall_mem_nil _⟩

end Emit

end WastForge
