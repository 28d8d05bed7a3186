import WastForge.Emit.Stmt
import WastForge.Proofs.Branch.Script
import WastForge.Proofs.Control.Realize
import WastForge.Proofs.Emit.Plain

/-!
# Code with branches

Lines of code can be read back, and their branches go to labels around them. This is put together
from the parts that code is made of: instructions, blocks and loops, conditions and switches.
-/

namespace WastForge

open Form Emit

/-- Lines of code inside of blocks and loops with the labels `around`, which have the branches
`bs`. -/
structure Written (around : List Bytes) (lines : List Line) (bs : List Branch) : Prop where
  readable : Line.areReadable lines
  safe : SafeAll [] (· ∈ around) (Line.formsAll lines)
  branches : branchesAll around (Line.formsAll lines) = bs
  instructions : ∀ f ∈ Line.formsAll lines, f.IsInstruction

namespace Written

variable {around : List Bytes} {lines more : List Line} {bs cs : List Branch}

theorem nil : Written around [] [] := ⟨rfl, trivial, rfl, List.forall_mem_nil _⟩

theorem append (h : Written around lines bs) (h' : Written around more cs) :
    Written around (lines ++ more) (bs ++ cs) where
  readable := by
    rw [Line.areReadable_append, h.readable, h'.readable]
    rfl
  safe := by
    rw [Line.formsAll_append]
    exact safeAll_append.mpr ⟨h.safe, h'.safe⟩
  branches := by rw [Line.formsAll_append, branchesAll_append, h.branches, h'.branches]
  instructions := by
    rw [Line.formsAll_append, List.forall_mem_append]
    exact ⟨h.instructions, h'.instructions⟩

/-- The forms behind a label or inside of an instruction are forms themselves. -/
theorem word_eq_nil (h : Written around lines bs) : ∀ f ∈ Line.formsAll lines, f.word = [] :=
  fun f hf => (h.instructions f hf).word

theorem of_plain {f : Form} (h : f.Plain) : Written around [.form f] [] where
  readable := by
    simp only [Line.areReadable, Line.isReadable, h.readable, Bool.and_true]
  safe := ⟨h.leaf.safe.mono (fun _ hfalse => hfalse.elim), trivial⟩
  branches := by
    show Form.branches around f ++ [] = []
    rw [h.branches]
    rfl
  instructions := List.forall_mem_singleton.mpr h.instruction

theorem blank : Written around [.blank] [] := ⟨rfl, trivial, rfl, List.forall_mem_nil _⟩

/-- Lines with one instruction each. -/
theorem each (h : ∀ l ∈ lines, l = .blank ∨ ∃ f : Form, f.Plain ∧ l = .form f) :
    Written around lines [] := by
  induction lines with
  | nil => exact nil
  | cons l lines ih =>
    rw [List.forall_mem_cons] at h
    obtain ⟨rfl | ⟨f, hf, rfl⟩, hlines⟩ := h
    · exact blank.append (ih hlines)
    · exact (of_plain hf).append (ih hlines)

/-- A form over several lines is code if its list of forms is. -/
theorem group {head : Bytes} {parts : List (Option Form)} {body : List Line}
    (hhead : Token.isWord head) (hdeclaring : head ∉ declaring)
    (hparts : ∀ f, some f ∈ parts → f.isReadable) (hbody : Line.areReadable body)
    (hsafe : Safe [] (· ∈ around)
      (.list (.atom head :: (parts.filterMap id ++ Line.formsAll body))))
    (hbranches : Form.branches around
      (.list (.atom head :: (parts.filterMap id ++ Line.formsAll body))) = bs) :
    Written around [.group (some (.atom head) :: parts) body] bs where
  readable := by
    have hall : (parts.filterMap id).all Form.isReadable :=
      List.all_eq_true.mpr (forall_filterMap_id hparts)
    have hparts : ((some (Form.atom head) :: parts).filterMap id).all Form.isReadable := by
      show (Token.isWord head && (parts.filterMap id).all Form.isReadable) = true
      rw [hhead, hall]
      rfl
    rw [Line.areReadable, Line.isReadable, hparts, hbody]
    rfl
  safe := ⟨hsafe, trivial⟩
  branches := (List.append_nil _).trans hbranches
  instructions := List.forall_mem_singleton.mpr hdeclaring

/-- A block or loop with a label. -/
theorem labelled {word l : Bytes} (hword : word = "block" ∨ word = "loop") (hl : isLabel l)
    (hlword : Token.isWord l) (h : Written (l :: around) lines bs) :
    Written around [.group (Emit.labelled word l) lines] bs := by
  have hwordOk : Token.isWord word ∧ word ∉ declaring := by
    rcases hword with rfl | rfl <;> decide
  refine group hwordOk.1 hwordOk.2 (fun f hf => ?_) h.readable ?_ ?_
  · obtain rfl := Option.some.inj (List.mem_singleton.mp hf)
    exact hlword
  · have hbody : SafeBody [] (· ∈ around) (.atom l :: Line.formsAll lines) := by
      refine ⟨trivial, h.safe.mono fun k hk => ?_⟩
      rcases List.mem_cons.mp hk with rfl | hk
      · exact .inl ⟨hl, rfl⟩
      · exact .inr hk
    rcases hword with rfl | rfl
    · exact hbody
    · exact hbody
  · exact (branches_labelled hword hl).trans h.branches

/-- A block without a label. -/
theorem block (h : Written around lines bs) : Written around (Shape.block lines) bs := by
  refine group (by decide) (by decide) (fun f hf => by cases hf) h.readable ?_ ?_
  · have hbody : SafeBody [] (· ∈ around) (Line.formsAll lines) := by
      have hsafe := h.safe
      cases hforms : Line.formsAll lines with
      | nil => trivial
      | cons f rest =>
        rw [hforms] at hsafe
        exact ⟨hsafe.1, hsafe.2.mono fun k hk => .inr hk⟩
    exact hbody
  · exact (branches_block h.word_eq_nil).trans h.branches

/-- An instruction around operands and lines. -/
theorem instruction {head : Bytes} {parts : List (Option Form)} (hhead : Token.isWord head)
    (hreserved : head ∉ reserved) (hblock : head ≠ "block" ∧ head ≠ "loop")
    (hparts : ∀ f, some f ∈ parts → f.Operand)
    (hsafe : ∀ fs, SafeAll [] (· ∈ around) fs → SafeItems [] (· ∈ around) (.atom head :: fs))
    (h : Written around lines bs) :
    Written around [.group (some (.atom head) :: parts) lines] bs := by
  have hpart := forall_filterMap_id hparts
  have hbr : head ≠ "br" := by
    rintro rfl
    exact hreserved (by decide)
  refine group hhead (fun hmem => hreserved (List.mem_cons_of_mem _ hmem))
    (fun f hf => (hparts f hf).readable) h.readable ?_ ?_
  · refine hsafe _ (safeAll_append.mpr ⟨safeAll_iff.mpr fun f hf => ?_, h.safe⟩)
    exact (hpart f hf).safe.mono fun _ hfalse => hfalse.elim
  · rw [branches_list hbr hblock.1 hblock.2, branchesAll_append,
      branchesAll_eq_nil fun f hf => (hpart f hf).branches, h.branches]
    rfl

/-- A branch to a label around it. -/
theorem br {l : Bytes} (hl : l ∈ around) (hword : Token.isWord l) :
    Written around [.form (.words ["br", l])] [⟨around, l⟩] where
  readable := by
    have hbr : Token.isWord "br" := by decide
    simp [Line.areReadable, Line.isReadable, Form.words, Form.isReadable, Form.areReadable, hbr,
      hword]
  safe := by
    refine ⟨fun f hf => ?_, trivial⟩
    obtain rfl := Option.some.inj hf
    exact hl
  branches := rfl
  instructions := by
    refine List.forall_mem_singleton.mpr ?_
    show ("br" : Bytes) ∉ declaring
    decide

/-- A condition around its arms. -/
theorem ite {c : Option Form} (hc : ∀ f, c = some f → f.Plain) (h : Written around lines bs) :
    Written around [.group [some (.atom "if"), c] lines] bs :=
  h.instruction (by decide) (by decide) (by decide)
    (fun f hf => (hc f (List.mem_singleton.mp hf).symm).operand) fun _ hfs => hfs

/-- What stands for a statement without code. -/
theorem nothing (shape : Shape) : Written around shape.nothing [] := by
  cases shape with
  | arm => exact of_plain (plain_word (by decide) (by decide))
  | plain | body => exact nil

theorem several {shape : Shape} (h : Written around lines bs) :
    Written around (shape.several lines) bs := by
  cases shape with
  | arm => exact h.block
  | plain | body => exact h

theorem ofBlock {shape : Shape} {isEmpty : Bool} (hempty : isEmpty = true → lines = [])
    (h : Written around lines bs) : Written around (shape.ofBlock isEmpty lines) bs := by
  cases shape with
  | arm => exact h.block
  | body => exact h
  | plain =>
    cases isEmpty with
    | false => exact h.block
    | true =>
      obtain rfl := hempty rfl
      exact h

end Written

/-- The arms of a switch, whose forms are looked at from the second one on. -/
structure WrittenArms (around : List Bytes) (lines : List Line) (bs : List Branch) : Prop
    extends Written around lines bs where
  arms : SafeArms [] (· ∈ around) (Line.formsAll lines)

namespace WrittenArms

variable {around : List Bytes} {lines more : List Line} {bs cs : List Branch}

theorem nil : WrittenArms around [] [] := ⟨.nil, trivial⟩

theorem append (h : WrittenArms around lines bs) (h' : WrittenArms around more cs) :
    WrittenArms around (lines ++ more) (bs ++ cs) := by
  refine ⟨h.toWritten.append h'.toWritten, safeArms_iff.mpr ?_⟩
  rw [Line.formsAll_append, List.forall_mem_append]
  exact ⟨safeArms_iff.mp h.arms, safeArms_iff.mp h'.arms⟩

/-- An arm for a value that falls through. -/
theorem fallThrough {v : Bytes} (hv : Token.isWord v) :
    WrittenArms around [.form (.words ["case", v])] [] := by
  refine ⟨.of_plain ?_, ⟨trivial, trivial⟩, trivial⟩
  refine plain_of_operands (fun _ h => h) (by decide) (by decide) (by decide) fun f hf => ?_
  obtain rfl := List.mem_singleton.mp hf
  exact operand_atom hv

theorem fallThroughs {vs : List Bytes} (hvs : ∀ v ∈ vs, Token.isWord v) :
    WrittenArms around (vs.map fun v => .form (.words ["case", v])) [] := by
  induction vs with
  | nil => exact .nil
  | cons v rest ih =>
    rw [List.forall_mem_cons] at hvs
    exact (fallThrough hvs.1).append (ih hvs.2)

/-- An arm with a body. -/
theorem arm {head : Bytes} {parts : List (Option Form)} (hhead : head = "case" ∨ head = "default")
    (hparts : ∀ f, some f ∈ parts → f.Operand) (h : Written around lines bs) :
    WrittenArms around [.group (some (.atom head) :: parts) lines] bs := by
  refine ⟨?_, ?_, trivial⟩
  · rcases hhead with rfl | rfl
    · exact h.instruction (by decide) (by decide) (by decide) hparts fun _ hfs => hfs
    · exact h.instruction (by decide) (by decide) (by decide) hparts fun _ hfs => hfs
  · have hall : SafeAll [] (· ∈ around) (parts.filterMap id ++ Line.formsAll lines) := by
      refine safeAll_append.mpr ⟨safeAll_iff.mpr fun f hf => ?_, h.safe⟩
      exact (forall_filterMap_id hparts f hf).safe.mono fun _ hfalse => hfalse.elim
    exact hall

/-- The arms for the values of one body. -/
theorem caseLines {isDefault : Bool} {values : List Bytes} (hvalues : ∀ v ∈ values, Token.isWord v)
    (hsome : isDefault = false → values ≠ []) (h : Written around lines bs) :
    WrittenArms around (Emit.caseLines isDefault values lines) bs := by
  unfold Emit.caseLines
  cases isDefault with
  | true =>
    exact (fallThroughs hvalues).append (arm (.inr rfl) (fun f hf => by cases hf) h)
  | false =>
    obtain rfl | ⟨front, v, rfl⟩ := List.eq_nil_or_concat values
    · exact absurd rfl (hsome rfl)
    · rw [List.concat_eq_append, List.forall_mem_append, List.forall_mem_singleton] at hvalues
      simp only [List.concat_eq_append, List.dropLast_concat, List.getLast?_append,
        List.getLast?_singleton]
      refine (fallThroughs hvalues.1).append (arm (.inl rfl) (fun f hf => ?_) h)
      obtain rfl := Option.some.inj (List.mem_singleton.mp hf)
      exact operand_atom hvalues.2

end WrittenArms

/-- A switch around its arms. Without a key the first arm takes its place. -/
theorem Written.switch {around : List Bytes} {lines : List Line} {bs : List Branch} (kw : Keyword)
    {key : Option Form} (hkey : ∀ f, key = some f → f.Plain) (h : WrittenArms around lines bs) :
    Written around [.group [some (.atom (kw.text ++ ".switch")), key] lines] bs := by
  have hparts : ∀ f ∈ [key].filterMap id, f.Plain :=
    forall_filterMap_id fun g hg => hkey g (List.mem_singleton.mp hg).symm
  have hall : SafeAll [] (· ∈ around) ([key].filterMap id ++ Line.formsAll lines) := by
    refine safeAll_append.mpr ⟨safeAll_iff.mpr fun f hf => ?_, h.safe⟩
    exact (hparts f hf).leaf.safe.mono fun _ hfalse => hfalse.elim
  have hswitch : SafeSwitch [] (· ∈ around) ([key].filterMap id ++ Line.formsAll lines) := by
    cases key with
    | some k => exact ⟨hall.1, h.arms⟩
    | none =>
      have hforms : [none].filterMap id ++ Line.formsAll lines = Line.formsAll lines := rfl
      rw [hforms] at hall ⊢
      have harms := h.arms
      cases hlines : Line.formsAll lines with
      | nil => trivial
      | cons arm rest =>
        rw [hlines] at hall harms
        exact ⟨hall.1, harms.2⟩
  have hhead : Token.isWord (kw.text ++ ".switch") ∧ kw.text ++ ".switch" ∉ declaring
      ∧ kw.text ++ ".switch" ≠ "br" ∧ kw.text ++ ".switch" ≠ "block"
      ∧ kw.text ++ ".switch" ≠ "loop" := by
    cases kw <;> decide
  refine Written.group hhead.1 hhead.2.1 (fun f hf => ?_) h.readable ?_ ?_
  · exact (hkey f (List.mem_singleton.mp hf).symm).readable
  · cases kw with
    | void => exact hall
    | i32 | i64 | f32 | f64 => exact hswitch
  · rw [branches_list hhead.2.2.1 hhead.2.2.2.1 hhead.2.2.2.2, branchesAll_append,
      branchesAll_eq_nil fun f hf => (hparts f hf).branches, h.branches]
    rfl

theorem isWord_append {front rest : Bytes} (hne : front ≠ [])
    (hfront : front.all Token.isWordByte) (hrest : ∀ b ∈ rest, Token.isWordByte b) :
    Token.isWord (front ++ rest) := by
  refine Token.isWord_of_all (fun h => hne (List.append_eq_nil_iff.mp h).1) fun b hb => ?_
  rcases List.mem_append.mp hb with hb | hb
  · exact List.all_eq_true.mp hfront b hb
  · exact hrest b hb

theorem LabelKind.isWord_text (k : LabelKind) : Token.isWord k.text := by
  have hdispatch : ("_dispatch" : Bytes).all Token.isWordByte := by decide
  have hcontinue : ("_continue" : Bytes).all Token.isWordByte := by decide
  cases k with
  | loop i => exact isWord_append (by decide) (by decide) fun b hb => Token.isWordByte_ofInt hb
  | switch i => exact isWord_append (by decide) (by decide) fun b hb => Token.isWordByte_ofInt hb
  | group g => exact isWord_append (by decide) (by decide) fun b hb => Token.isWordByte_ofNat hb
  | continue_ i =>
    show Token.isWord (("$loop_" ++ Bytes.ofInt i.toInt) ++ "_continue")
    rw [List.append_assoc]
    refine isWord_append (by decide) (by decide) fun b hb => ?_
    rcases List.mem_append.mp hb with hb | hb
    · exact Token.isWordByte_ofInt hb
    · exact List.all_eq_true.mp hcontinue b hb
  | dispatch g =>
    show Token.isWord (("$labelgroup_" ++ Bytes.ofNat g) ++ "_dispatch")
    rw [List.append_assoc]
    refine isWord_append (by decide) (by decide) fun b hb => ?_
    rcases List.mem_append.mp hb with hb | hb
    · exact Token.isWordByte_ofNat hb
    · exact List.all_eq_true.mp hdispatch b hb

theorem Name.isWord_currentLabel (g : Nat) : Token.isWord (Name.currentLabel g) :=
  isWord_append (by decide) (by decide) fun _ hb => Token.isWordByte_ofNat hb

theorem Token.isWord_ofNat (n : Nat) : Token.isWord (Bytes.ofNat n) :=
  Token.isWord_of_all (Bytes.ofNat_ne_nil n) fun _ hb => Token.isWordByte_ofNat hb

/-- The number of a label of a group. -/
theorem plain_number (n : Nat) : (Form.words ["i32.const", Bytes.ofNat n]).Plain := by
  refine plain_of_operands (fun _ h => h) (by decide) (by decide) (by decide) fun f hf => ?_
  obtain rfl := List.mem_singleton.mp hf
  exact operand_atom (Token.isWord_ofNat n)

/-- Setting the local of a label group. -/
theorem plain_setPosition (g n : Nat) :
    (Form.list [.atom "set_local", .atom (Name.currentLabel g),
      .words ["i32.const", Bytes.ofNat n]]).Plain := by
  refine plain_of_operands (fun _ h => ⟨fun _ _ => List.not_mem_nil, h⟩) (by decide) (by decide)
    (by decide) ?_
  simp only [List.forall_mem_cons]
  exact ⟨operand_atom (Name.isWord_currentLabel g), (plain_number n).operand,
    List.forall_mem_nil _⟩

/-- A goto sets the local of its group and branches to where the group chooses. -/
theorem Written.goto {around : List Bytes} {place : LabelPlace}
    (hl : Name.dispatch place.group ∈ around) :
    Written around [.form (gotoForm place)] [⟨around, Name.dispatch place.group⟩] := by
  have hblock := ((Written.of_plain (plain_setPosition place.group place.index)).append
    (Written.br hl (LabelKind.dispatch place.group).isWord_text)).block
  refine ⟨?_, hblock.safe, hblock.branches, hblock.instructions⟩
  have hreadable := hblock.readable
  exact hreadable

/-- Testing the local of a label group. -/
theorem plain_testPosition (g n : Nat) :
    (Form.list [.atom "i32.eq", .words ["get_local", Name.currentLabel g],
      .words ["i32.const", Bytes.ofNat n]]).Plain := by
  refine plain_app (by decide) (by decide) ?_
  simp only [List.forall_mem_cons]
  refine ⟨?_, plain_number n, List.forall_mem_nil _⟩
  refine plain_of_operands (fun _ h => ⟨fun _ _ => List.not_mem_nil, h⟩) (by decide) (by decide)
    (by decide) fun f hf => ?_
  obtain rfl := List.mem_singleton.mp hf
  exact operand_atom (Name.isWord_currentLabel g)

/-- The section of a label tests the local of its group. -/
theorem Written.section_ {around : List Bytes} {lines : List Line} {bs : List Branch}
    (place : LabelPlace) (h : Written around lines bs) :
    Written around [Emit.section_ place lines] bs := by
  refine Written.ite (fun f hf => ?_) h.block
  obtain rfl := Option.some.inj hf
  exact plain_testPosition place.group place.index

/-- A label group around its sections. -/
theorem Written.group_ {around : List Bytes} {lines : List Line} {bs : List Branch} {g : Nat}
    (h : Written (Name.dispatch g :: Name.labelGroup g :: around) lines bs) :
    Written around (groupLines g lines)
      (bs ++ [⟨Name.dispatch g :: Name.labelGroup g :: around, Name.labelGroup g⟩]) := by
  have hstart : Written around [.form (.list [.atom "set_local", .atom (Name.currentLabel g),
      .words ["i32.const", "0"]])] [] := Written.of_plain (plain_setPosition g 0)
  have hleave : Written (Name.dispatch g :: Name.labelGroup g :: around)
      [.form (.words ["br", Name.labelGroup g])]
      [⟨Name.dispatch g :: Name.labelGroup g :: around, Name.labelGroup g⟩] :=
    Written.br (by simp) (LabelKind.group g).isWord_text
  have hblock := Written.labelled (.inl rfl) (LabelKind.dispatch g).isLabel_text
    (LabelKind.dispatch g).isWord_text (h.append hleave)
  exact hstart.append (Written.labelled (.inr rfl) (LabelKind.group g).isLabel_text
    (LabelKind.group g).isWord_text hblock)

/-- A branch that is taken when a condition is false. -/
theorem Written.exit {around : List Bytes} {c : Option Form} {l : Bytes}
    (hc : ∀ f, c = some f → f.Plain) (hl : l ∈ around) (hword : Token.isWord l) :
    Written around [.form (.app "if" [c, some Shape.nop, some (.words ["br", l])])]
      [⟨around, l⟩] := by
  have hite := Written.ite hc ((Written.nothing .arm).append (Written.br hl hword))
  have hreadable := hite.readable
  cases c with
  | none => exact ⟨hreadable, hite.safe, hite.branches, hite.instructions⟩
  | some f =>
    refine ⟨?_, hite.safe, hite.branches, hite.instructions⟩
    simpa [Line.areReadable, Line.isReadable, Form.app, Form.isReadable, Form.areReadable,
      Shape.nothing, Bool.and_assoc] using hreadable

/-- A loop around what is checked before its body, its body, and what is done behind it. -/
theorem Written.loop {around : List Bytes} {before body after : List Line}
    {bs₁ bs₂ bs₃ : List Branch} {i : LoopIndex}
    (hbefore : Written (Name.loop i :: around) before bs₁)
    (hbody : Written (Name.continue_ i :: Name.loop i :: around) body bs₂)
    (hafter : Written (Name.loop i :: around) after bs₃) :
    Written around [.group (Emit.labelled "loop" (Name.loop i))
      (before ++ [.group (Emit.labelled "block" (Name.continue_ i)) body] ++ after)]
      (bs₁ ++ bs₂ ++ bs₃) := by
  have hblock := Written.labelled (.inl rfl) (LabelKind.continue_ i).isLabel_text
    (LabelKind.continue_ i).isWord_text hbody
  exact Written.labelled (.inr rfl) (LabelKind.loop i).isLabel_text (LabelKind.loop i).isWord_text
    ((hbefore.append hblock).append hafter)

end WastForge
