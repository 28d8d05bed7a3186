import WastForge.Proofs.Emit.Instance

/-!
# Names that are given twice

A name in a module is what is left of a name of the program, with an underscore for every character
that may not stand in it; the name of a function joins its type and its own name with one more. So
names of the program may fall together. Which ones do is said here, and which programs have names
that cannot.
-/

namespace WastForge

/-- Nothing is left of the character but an underscore. -/
def Rune.isFiller : Rune → Bool
  | .point c => !Name.isPlain c || c == 95
  | .stray _ => true

namespace Utf8

/-- A text of single bytes has a character for each. -/
theorem runes_of_ascii {s : Bytes} (h : ∀ b ∈ s, b.toNat < 0x80) :
    runes s = s.map fun b => .point b.toNat := by
  unfold runes
  induction s with
  | nil => rfl
  | cons b rest ih =>
    rw [List.forall_mem_cons] at h
    have hunit : unit b rest = (.point b.toNat, 0) := if_pos (UInt8.lt_iff_toNat_lt.mpr h.1)
    rw [runesFrom, hunit, ih h.2]
    rfl

end Utf8

namespace Name

/-!
## Texts that are escaped alike
-/

/-- What is left of a character. -/
def mark : Rune → UInt8
  | .point c => if isPlain c then UInt8.ofNat c else 95
  | .stray _ => 95

theorem escape_eq (s : Bytes) : escape s = (Utf8.runes s).map mark := by
  refine List.map_congr_left fun r _ => ?_
  cases r <;> rfl

theorem lt_of_isPlain {c : Nat} (h : isPlain c) : c < 0x80 := by
  simp only [isPlain, Bool.or_eq_true, Bool.and_eq_true, decide_eq_true_eq, beq_iff_eq] at h
  omega

theorem mark_of_isFiller {r : Rune} (h : r.isFiller) : mark r = 95 := by
  cases r with
  | stray b => rfl
  | point c =>
    rw [mark]
    split
    · rename_i hplain
      have hc : c = 95 := by simpa [Rune.isFiller, hplain] using h
      rw [hc]
      rfl
    · rfl

/-- A character that is not filled in is read back from what is left of it. -/
theorem eq_of_not_isFiller {r : Rune} (h : r.isFiller = false) :
    r = .point (mark r).toNat ∧ mark r ≠ 95 := by
  cases r with
  | stray b => cases h
  | point c =>
    obtain ⟨hplain, hne⟩ : isPlain c = true ∧ c ≠ 95 := by simpa [Rune.isFiller] using h
    have hback : (mark (.point c)).toNat = c := by
      rw [mark, if_pos hplain, UInt8.toNat_ofNat']
      exact Nat.mod_eq_of_lt ((lt_of_isPlain hplain).trans (by decide))
    refine ⟨by rw [hback], fun hmark => hne ?_⟩
    rw [← hback, hmark]
    rfl

theorem mark_eq_iff (r r' : Rune) : mark r = mark r' ↔ r = r' ∨ r.isFiller ∧ r'.isFiller := by
  constructor
  · intro heq
    cases hr : r.isFiller with
    | true =>
      cases hr' : r'.isFiller with
      | true => exact .inr ⟨rfl, rfl⟩
      | false => exact absurd (heq.symm.trans (mark_of_isFiller hr)) (eq_of_not_isFiller hr').2
    | false =>
      cases hr' : r'.isFiller with
      | true => exact absurd (heq.trans (mark_of_isFiller hr')) (eq_of_not_isFiller hr).2
      | false =>
        left
        rw [(eq_of_not_isFiller hr).1, heq, ← (eq_of_not_isFiller hr').1]
  · rintro (rfl | ⟨hr, hr'⟩)
    · rfl
    · rw [mark_of_isFiller hr, mark_of_isFiller hr']

/-- Texts of the same length, the same at every place where a letter or digit stands. -/
def Alike (a b : Bytes) : Prop :=
  List.Forall₂ (fun r r' => r = r' ∨ r.isFiller ∧ r'.isFiller) (Utf8.runes a) (Utf8.runes b)

/-- Nothing but the letters and digits counts. -/
theorem escape_eq_iff (a b : Bytes) : escape a = escape b ↔ Alike a b := by
  rw [escape_eq, escape_eq, ← List.forall₂_eq_eq_eq, List.forall₂_map_left_iff,
    List.forall₂_map_right_iff]
  simp only [mark_eq_iff, Alike]

/-- A text that need not be escaped. -/
def Plain (s : Bytes) : Prop := ∀ b ∈ s, isPlain b.toNat

instance (s : Bytes) : Decidable (Plain s) :=
  inferInstanceAs (Decidable (∀ b ∈ s, isPlain b.toNat))

theorem plain_of_all {s : Bytes} (h : s.all fun b => isPlain b.toNat) : Plain s :=
  List.all_eq_true.mp h

theorem Plain.append {a b : Bytes} (ha : Plain a) (hb : Plain b) : Plain (a ++ b) :=
  List.forall_mem_append.mpr ⟨ha, hb⟩

theorem escape_of_plain {s : Bytes} (h : Plain s) : escape s = s := by
  rw [escape_eq, Utf8.runes_of_ascii fun b hb => lt_of_isPlain (h b hb), List.map_map]
  refine (List.map_congr_left fun b hb => ?_).trans (List.map_id s)
  rw [Function.comp_apply, mark, if_pos (h b hb), UInt8.ofNat_toNat, id]

theorem plain_escape (s : Bytes) : Plain (escape s) := by
  rw [escape_eq]
  refine List.forall_mem_map.mpr fun r _ => ?_
  cases hr : r.isFiller with
  | true =>
    rw [mark_of_isFiller hr]
    rfl
  | false =>
    obtain ⟨heq, _⟩ := eq_of_not_isFiller hr
    rw [heq] at hr
    rw [Rune.isFiller, Bool.or_eq_false_iff, Bool.not_eq_false'] at hr
    exact hr.1

theorem plain_ofNat (n : Nat) : Plain (Bytes.ofNat n) := by
  intro b hb
  have hdigit := (Bytes.isDigit_iff b).mp (Bytes.isDigit_of_mem_ofNat hb)
  simp [isPlain, hdigit]

/-- Of plain texts only equal ones are alike. -/
theorem eq_of_alike {a b : Bytes} (ha : Plain a) (hb : Plain b) (h : Alike a b) : a = b := by
  rw [← escape_of_plain ha, ← escape_of_plain hb]
  exact (escape_eq_iff a b).mpr h

/-- A member by its short type and its name, before it is escaped. -/
def joint (ref : MemberRef) : Bytes := short ref.type ++ "_" ++ ref.name

theorem func_eq_iff (ref : MemberRef) (w : Bytes) :
    func ref = "$" ++ escape w ↔ Alike (joint ref) w :=
  (List.append_right_inj _).trans (escape_eq_iff _ _)

theorem local_eq_iff (name name' : Bytes) : local_ name = local_ name' ↔ Alike name name' :=
  (List.append_right_inj _).trans (escape_eq_iff _ _)

/-- What the local of a label group is called, as if it were declared. -/
def groupVariable (group : Nat) : Bytes := "currentLabel_" ++ Bytes.ofNat group

theorem plain_groupVariable (group : Nat) : Plain (groupVariable group) :=
  (plain_of_all (by decide)).append (plain_ofNat group)

theorem local_groupVariable (group : Nat) : local_ (groupVariable group) = currentLabel group := by
  rw [local_, escape_of_plain (plain_groupVariable group)]
  rfl

end Name

open Emit Control Script

/-!
## Names of functions and variables
-/

namespace Emit

/-- `t` is what a function is written as. -/
def IsWritten (env : Env) (b : Body) (t : FuncText) : Prop :=
  ∃ labels n code n', LabelTable.ofBody b.root = .ok labels
    ∧ Emits (rootLines (env.inside b.func) labels b.root) n code n'
    ∧ t = funcText env.types b.func labels.groups (Line.formsAll code)

/-- The lines of functions are their texts. -/
theorem written_funcs {env : Env} {bodies : List Body} {next next' : LoopIndex} {lines : List Line}
    (hsupported : ∀ b ∈ bodies, unsupportedSignature? env.types b.func = none)
    (h : Work.Comes (funcsLines env next bodies) (lines, next')) :
    ∃ fs : List (Body × FuncText), fs.map (·.1) = bodies
      ∧ Line.formsAll lines = (fs.map (·.2)).map FuncText.form
      ∧ ∀ f ∈ fs, IsWritten env f.1 f.2 := by
  have hfunc : ∀ b ∈ bodies, ∀ {next next' : LoopIndex} {lines : List Line},
      Work.Comes (funcLines env next b) (lines, next') →
        ∃ t, Line.formsAll lines = [t.form] ∧ IsWritten env b t := by
    intro b hb next next' lines h
    obtain ⟨labels, code, n', hlabels, hcode, _, rfl⟩ := comes_funcLines h
    refine ⟨funcText env.types b.func labels.groups (Line.formsAll code), ?_, labels, _, code, n',
      hlabels, hcode, rfl⟩
    rw [← form_funcText _ _ (hsupported b hb)]
    simp [Line.formsAll, Line.forms]
  obtain ⟨texts, hforms, htexts⟩ := texts_of_funcs hfunc h
  obtain ⟨hlength, hzip⟩ := List.forall₂_iff_zip.mp htexts
  have htextsZip : (bodies.zip texts).map (·.2) = texts := List.map_snd_zip hlength.ge
  exact ⟨bodies.zip texts, List.map_fst_zip hlength.le, by rw [htextsZip, hforms],
    fun f hf => hzip hf⟩

end Emit

/-- The names of the parameters and locals of a function in the module. -/
def Script.FuncText.variableNames (t : FuncText) : List Bytes := (t.params ++ t.locals).map (·.1)

/-- How many label groups a body has. -/
def Body.groups (b : Body) : Nat := (LabelTable.ofBody b.root).toOption.elim 0 (·.groups)

/-- The parameters of a function, the locals that it declares, and those of its label groups. -/
def Body.variableNames (tt : TypeTable) (b : Body) : List Bytes :=
  (Rows.items b.func.params).map (·.name) ++ (declared tt b.func).map (·.1.name)
    ++ (List.range b.groups).map Name.groupVariable

namespace Emit

variable {env : Env} {b : Body} {t : FuncText}

theorem IsWritten.name (h : IsWritten env b t) : t.name = Name.func b.func.ref := by
  obtain ⟨_, _, _, _, _, _, rfl⟩ := h
  rfl

theorem params_of_supported {tt : TypeTable} {f : Func} (h : unsupportedSignature? tt f = none) :
    ((Rows.items f.params).filterMap fun p =>
        (tt.valueKeyword? p.type).map fun kw => (Name.local_ p.name, kw)).map (·.1)
      = (Rows.items f.params).map fun p => Name.local_ p.name := by
  have hsome := isSome_of_supported h
  generalize Rows.items f.params = l at hsome
  induction l with
  | nil => rfl
  | cons p l ih =>
    rw [List.forall_mem_cons] at hsome
    obtain ⟨kw, hkw⟩ := Option.isSome_iff_exists.mp hsome.1
    simp only [List.filterMap_cons, hkw, Option.map_some, List.map_cons, ih hsome.2]

/-- Every variable of a function has a local of the module, by its escaped name. -/
theorem IsWritten.variableNames (h : IsWritten env b t)
    (hsupported : unsupportedSignature? env.types b.func = none) :
    t.variableNames = (b.variableNames env.types).map Name.local_ := by
  obtain ⟨labels, _, code, _, hlabels, _, rfl⟩ := h
  have hgroups : b.groups = labels.groups := by
    rw [Body.groups, hlabels]
    rfl
  have hlocals : (funcText env.types b.func labels.groups (Line.formsAll code)).locals.map (·.1)
      = (declared env.types b.func).map (fun d => Name.local_ d.1.name)
        ++ (List.range labels.groups).map Name.currentLabel := by
    rw [funcText, List.map_append, List.map_map, List.map_map]
    rfl
  rw [FuncText.variableNames, List.map_append, hlocals, funcText, params_of_supported hsupported,
    Body.variableNames, hgroups]
  simp only [List.map_append, List.map_map, List.append_assoc, Function.comp_def,
    Name.local_groupVariable]

end Emit

namespace Emission

/-- The functions of a module that no function of the program is written as: the one that runs the
static constructors, and the accessors of strings and fields. -/
def generated (e : Emission) : List FuncText :=
  (if e.ctors.isEmpty then [] else [staticInitText e.ctors])
    ++ if e.arena.total != 0 then stringTexts e.arena ++ fieldTexts e.arena else []

/-- Functions of different types or names have different names in the module, which are not those of
generated functions, and no two variables of a function share a local. -/
structure Hygienic (e : Emission) (fs : List (Body × FuncText)) : Prop where
  functions : ∀ f ∈ fs, ∀ g ∈ fs, f.1.func.ref ≠ g.1.func.ref → f.2.name ≠ g.2.name
  generated : ∀ f ∈ fs, ∀ g ∈ e.generated, f.2.name ≠ g.name
  locals : ∀ f ∈ fs, f.2.variableNames.Nodup

/-- The names in the program differ in more than the characters that are filled in. -/
structure Apart (e : Emission) : Prop where
  functions : ∀ b ∈ e.written, ∀ b' ∈ e.written, b.func.ref ≠ b'.func.ref →
    ¬Name.Alike (Name.joint b.func.ref) (Name.joint b'.func.ref)
  generated : ∀ b ∈ e.written, ∀ g ∈ e.generated,
    ¬Name.Alike (Name.joint b.func.ref) (g.name.drop 1)
  locals : ∀ b ∈ e.written, (b.variableNames e.program.types).Pairwise (¬Name.Alike · ·)

variable {e : Emission} {out : ModuleOutput} {funcs directives : List Line}

/-- Generated names start with two underscores, and need not be escaped. -/
def IsGeneratedName (name : Bytes) : Prop := ∃ w, name = "$__" ++ w ∧ Name.Plain w

theorem isGeneratedName_stringTexts (a : Arena) :
    ∀ g ∈ stringTexts a, IsGeneratedName g.name := by
  have hstring : Name.Plain "string_" := Name.plain_of_all (by decide)
  refine forall_stringTexts (fun s => ?_) (fun s => ?_) ?_
  · have hoffset := hstring.append (Name.plain_ofNat s.offset.toNat)
    exact ⟨_, rfl, hoffset.append (b := "_first") (Name.plain_of_all (by decide))⟩
  · have hoffset := hstring.append (Name.plain_ofNat s.offset.toNat)
    exact ⟨_, rfl, hoffset.append (b := "_length") (Name.plain_of_all (by decide))⟩
  · exact ⟨"string_length", rfl, Name.plain_of_all (by decide)⟩

theorem isGeneratedName_fieldTexts (a : Arena) :
    ∀ g ∈ fieldTexts a, IsGeneratedName g.name := by
  have hmember : ∀ f : FieldSlot, Name.Plain (Name.member f.field) :=
    fun f => Name.plain_escape (Name.joint f.field)
  refine forall_fieldTexts (fun f kw => ?_) (fun f kw => ?_)
  · exact ⟨_, rfl, Name.Plain.append (a := "get_") (Name.plain_of_all (by decide)) (hmember f)⟩
  · exact ⟨_, rfl, Name.Plain.append (a := "set_") (Name.plain_of_all (by decide)) (hmember f)⟩

theorem isGeneratedName : ∀ g ∈ e.generated, IsGeneratedName g.name := by
  unfold generated
  refine List.forall_mem_append.mpr ⟨fun g hg => ?_, fun g hg => ?_⟩
  · split at hg
    · cases hg
    · obtain rfl := List.mem_singleton.mp hg
      exact ⟨"static_init", rfl, Name.plain_of_all (by decide)⟩
  · split at hg
    · rcases List.mem_append.mp hg with hg | hg
      · exact isGeneratedName_stringTexts _ g hg
      · exact isGeneratedName_fieldTexts _ g hg
    · cases hg

theorem IsGeneratedName.eq_escape {name : Bytes} (h : IsGeneratedName name) :
    name = "$" ++ Name.escape (name.drop 1) := by
  obtain ⟨w, rfl, hplain⟩ := h
  have hescape : Name.escape ("__" ++ w) = "__" ++ w :=
    Name.escape_of_plain ((Name.plain_of_all (by decide)).append hplain)
  change _ = "$" ++ Name.escape ("__" ++ w)
  rw [hescape]
  rfl

/-- Names of the module fall together if and only if names of the program are alike. -/
theorem hygienic_iff {fs : List (Body × FuncText)} (hbodies : fs.map (·.1) = e.written)
    (hsupported : ∀ b ∈ e.written, unsupportedSignature? e.env.types b.func = none)
    (h : ∀ f ∈ fs, IsWritten e.env f.1 f.2) : e.Hygienic fs ↔ e.Apart := by
  have hnames : ∀ f ∈ fs, ∀ w, f.2.name = "$" ++ Name.escape w
      ↔ Name.Alike (Name.joint f.1.func.ref) w := by
    intro f hf w
    rw [(h f hf).name, Name.func_eq_iff]
  have hlocals : ∀ f ∈ fs, f.2.variableNames.Nodup
      ↔ (f.1.variableNames e.program.types).Pairwise (¬Name.Alike · ·) := by
    intro f hf
    have hmem : f.1 ∈ e.written := hbodies ▸ List.mem_map_of_mem hf
    rw [(h f hf).variableNames (hsupported _ hmem), List.Nodup, List.pairwise_map]
    simp only [ne_eq, Name.local_eq_iff]
    rfl
  have hgenerated : ∀ f ∈ fs, ∀ g ∈ e.generated,
      f.2.name = g.name ↔ Name.Alike (Name.joint f.1.func.ref) (g.name.drop 1) := by
    intro f hf g hg
    rw [← hnames f hf, ← (isGeneratedName g hg).eq_escape]
  have hfunctions : ∀ f ∈ fs, ∀ g ∈ fs,
      f.2.name = g.2.name ↔ Name.Alike (Name.joint f.1.func.ref) (Name.joint g.1.func.ref) := by
    intro f hf g hg
    rw [← hnames f hf, (h g hg).name]
    rfl
  have hall : ∀ {P : Body → Prop}, (∀ b ∈ e.written, P b) ↔ ∀ f ∈ fs, P f.1 := by
    intro P
    rw [← hbodies, List.forall_mem_map]
  constructor
  · rintro ⟨hfuncs, hgen, hvars⟩
    refine ⟨hall.mpr fun f hf => hall.mpr fun g hg hne => ?_, hall.mpr fun f hf g hg => ?_,
      hall.mpr fun f hf => (hlocals f hf).mp (hvars f hf)⟩
    · exact mt (hfunctions f hf g hg).mpr (hfuncs f hf g hg hne)
    · exact mt (hgenerated f hf g hg).mpr (hgen f hf g hg)
  · rintro ⟨hfuncs, hgen, hvars⟩
    refine ⟨fun f hf g hg hne => ?_, fun f hf g hg => ?_,
      fun f hf => (hlocals f hf).mpr (hall.mp hvars f hf)⟩
    · exact mt (hfunctions f hf g hg).mp (hall.mp (hall.mp hfuncs f hf) g hg hne)
    · exact mt (hgenerated f hf g hg).mp (hall.mp hgen f hf g hg)

end Emission

/-!
## Programs whose names stay apart
-/

/-- The names of a function need not be escaped. The one of its type has no underscore, so that the
first one of the joint ends it; and no variable has the name of one of the label groups. -/
structure Func.PlainNames (f : Func) : Prop where
  type : Name.short f.declaringType ≠ []
    ∧ ∀ b ∈ Name.short f.declaringType, Name.isPlain b.toNat ∧ b ≠ 95
  name : Name.Plain f.name
  params : ((Rows.items f.params).map (·.name)).Nodup
  locals : ∀ v ∈ Rows.items f.params ++ Rows.items f.locals,
    Name.Plain v.name ∧ ¬("currentLabel_" : Bytes) <+: v.name

instance (f : Func) : Decidable f.PlainNames :=
  decidable_of_iff ((Name.short f.declaringType ≠ []
      ∧ ∀ b ∈ Name.short f.declaringType, Name.isPlain b.toNat ∧ b ≠ 95)
    ∧ Name.Plain f.name ∧ ((Rows.items f.params).map (·.name)).Nodup
    ∧ ∀ v ∈ Rows.items f.params ++ Rows.items f.locals,
      Name.Plain v.name ∧ ¬("currentLabel_" : Bytes) <+: v.name)
    ⟨fun ⟨ht, hn, hp, hl⟩ => ⟨ht, hn, hp, hl⟩, fun ⟨ht, hn, hp, hl⟩ => ⟨ht, hn, hp, hl⟩⟩

/-- The names of a program need not be escaped, and no two types differ in their namespaces only. -/
structure Program.PlainNames (p : Program) : Prop where
  each : ∀ b ∈ p.bodies, b.func.PlainNames
  types : ∀ b ∈ p.bodies, ∀ b' ∈ p.bodies,
    Name.short b.func.declaringType = Name.short b'.func.declaringType →
      b.func.declaringType = b'.func.declaringType

instance (p : Program) : Decidable p.PlainNames :=
  decidable_of_iff ((∀ b ∈ p.bodies, b.func.PlainNames) ∧ ∀ b ∈ p.bodies, ∀ b' ∈ p.bodies,
    Name.short b.func.declaringType = Name.short b'.func.declaringType →
      b.func.declaringType = b'.func.declaringType)
    ⟨fun ⟨he, ht⟩ => ⟨he, ht⟩, fun ⟨he, ht⟩ => ⟨he, ht⟩⟩

namespace Func.PlainNames

variable {f g : Func}

theorem joint (h : f.PlainNames) : Name.Plain (Name.joint f.ref) :=
  (Name.Plain.append (fun b hb => (h.type.2 b hb).1) (Name.plain_of_all (by decide))).append h.name

/-- The joint of a type and a name is taken apart at its first underscore. -/
theorem eq_of_joint (hf : f.PlainNames) (hg : g.PlainNames)
    (h : Name.joint f.ref = Name.joint g.ref) :
    Name.short f.declaringType = Name.short g.declaringType ∧ f.name = g.name := by
  have htake : ∀ {k : Func}, k.PlainNames →
      (Name.joint k.ref).takeWhile (· != 95) = Name.short k.declaringType := by
    intro k hk
    rw [Name.joint, Func.ref, List.append_assoc,
      List.takeWhile_append_of_pos fun b hb => bne_iff_ne.mpr (hk.type.2 b hb).2]
    exact List.append_nil _
  have hshort : Name.short f.declaringType = Name.short g.declaringType := by
    rw [← htake hf, ← htake hg, h]
  rw [Name.joint, Name.joint, Func.ref, Func.ref, hshort] at h
  exact ⟨hshort, List.append_cancel_left h⟩

/-- The joint does not start with an underscore. -/
theorem joint_ne (h : f.PlainNames) (w : Bytes) : Name.joint f.ref ≠ "__" ++ w := by
  obtain ⟨c, rest, hshort⟩ := List.exists_cons_of_ne_nil h.type.1
  have hc : c ≠ 95 := (h.type.2 c (hshort ▸ List.mem_cons_self)).2
  intro heq
  rw [Name.joint, Func.ref, hshort] at heq
  exact hc (List.cons.inj heq).1

end Func.PlainNames

namespace Emit

variable {tt : TypeTable} {known : List (Bytes × TypeId)} {l : List Local}

/-- Locals that are declared have new names. -/
theorem new_declaredLocals :
    ∀ d ∈ declaredLocals tt known l, d.1 ∈ l ∧ ∀ k ∈ known, d.1.name ≠ k.1 := by
  induction l generalizing known with
  | nil => exact List.forall_mem_nil _
  | cons v rest ih =>
    have hrest : ∀ {known}, ∀ d ∈ declaredLocals tt known rest,
        d.1 ∈ v :: rest ∧ ∀ k ∈ known, d.1.name ≠ k.1 :=
      fun d hd => ⟨List.mem_cons_of_mem _ (ih d hd).1, (ih d hd).2⟩
    unfold declaredLocals
    split
    · split
      · exact hrest
      · rename_i hnew
        have hlookup := List.lookup_eq_none_iff.mp (Option.not_isSome_iff_eq_none.mp hnew)
        refine List.forall_mem_cons.mpr ⟨⟨List.mem_cons_self, fun k hk => ?_⟩, fun d hd => ?_⟩
        · exact bne_iff_ne.mp (hlookup k hk)
        · obtain ⟨hmem, hne⟩ := hrest d hd
          exact ⟨hmem, (List.forall_mem_cons.mp hne).2⟩
    · exact hrest

theorem nodup_declaredLocals : ((declaredLocals tt known l).map (·.1.name)).Nodup := by
  induction l generalizing known with
  | nil => exact .nil
  | cons v rest ih =>
    unfold declaredLocals
    split
    · split
      · exact ih
      · refine List.nodup_cons.mpr ⟨fun hmem => ?_, ih⟩
        obtain ⟨d, hd, hname⟩ := List.mem_map.mp hmem
        exact (new_declaredLocals d hd).2 _ List.mem_cons_self hname
    · exact ih

end Emit

/-- The variables of a function with plain names have plain names of their own. -/
theorem Func.PlainNames.nodup (tt : TypeTable) {b : Body} (h : b.func.PlainNames) :
    (∀ v ∈ b.variableNames tt, Name.Plain v) ∧ (b.variableNames tt).Nodup := by
  have hdeclared : ∀ d ∈ declared tt b.func, d.1 ∈ Rows.items b.func.locals
      ∧ ∀ k ∈ paramTypes b.func, d.1.name ≠ k.1 := new_declaredLocals
  have hlocals := List.forall_mem_append.mp h.locals
  have hgroups : ((List.range b.groups).map Name.groupVariable).Nodup :=
    List.nodup_range.map fun _ _ heq => Bytes.ofNat_injective (List.append_cancel_left heq)
  have hgroup : ∀ g, ("currentLabel_" : Bytes) <+: Name.groupVariable g :=
    fun g => List.prefix_append _ _
  unfold Body.variableNames
  refine ⟨?_, ?_⟩
  · simp only [List.forall_mem_append, List.forall_mem_map]
    exact ⟨⟨fun p hp => (hlocals.1 p hp).1, fun d hd => (hlocals.2 _ (hdeclared d hd).1).1⟩,
      fun g _ => Name.plain_groupVariable g⟩
  · refine List.nodup_append.mpr ⟨List.nodup_append.mpr ⟨h.params, nodup_declaredLocals, ?_⟩,
      hgroups, ?_⟩
    · simp only [List.forall_mem_map]
      intro p hp d hd heq
      refine (hdeclared d hd).2 (p.name, p.type) ?_ heq.symm
      exact List.mem_map.mpr ⟨p, List.mem_reverse.mpr hp, rfl⟩
    · simp only [List.forall_mem_append, List.forall_mem_map]
      refine ⟨fun p hp g _ heq => ?_, fun d hd g _ heq => ?_⟩
      · exact (hlocals.1 p hp).2 (heq ▸ hgroup g)
      · exact (hlocals.2 _ (hdeclared d hd).1).2 (heq ▸ hgroup g)

namespace Emission

variable {e : Emission} {out : ModuleOutput} {funcs directives : List Line}

/-- Plain names stay apart. -/
theorem Writes.apart (h : e.Writes out funcs directives) (hplain : e.program.PlainNames) :
    e.Apart := by
  have hbody : ∀ b ∈ e.written, ∃ b' ∈ e.program.bodies, b.func = b'.func := by
    intro b hb
    obtain ⟨b', hb', hbecomes⟩ := exists_of_forall₂ h.becomes_written hb
    exact ⟨b', List.mem_of_mem_filter hb', hbecomes.func⟩
  have heach : ∀ b ∈ e.written, b.func.PlainNames := by
    intro b hb
    obtain ⟨b', hb', hfunc⟩ := hbody b hb
    exact hfunc ▸ hplain.each b' hb'
  refine ⟨fun b hb c hc hne halike => ?_, fun b hb g hg halike => ?_, fun b hb => ?_⟩
  · obtain ⟨b', hb', hfuncb⟩ := hbody b hb
    obtain ⟨c', hc', hfuncc⟩ := hbody c hc
    have hjoint := Name.eq_of_alike (heach b hb).joint (heach c hc).joint halike
    obtain ⟨hshort, hname⟩ := (heach b hb).eq_of_joint (heach c hc) hjoint
    rw [hfuncb, hfuncc] at hshort
    have htype := hplain.types b' hb' c' hc' hshort
    rw [← hfuncb, ← hfuncc] at htype
    exact hne (by rw [Func.ref, Func.ref, htype, hname])
  · obtain ⟨w, hw, hwplain⟩ := isGeneratedName g hg
    have hdrop : g.name.drop 1 = "__" ++ w := by rw [hw]; rfl
    rw [hdrop] at halike
    refine (heach b hb).joint_ne w (Name.eq_of_alike (heach b hb).joint ?_ halike)
    exact (Name.plain_of_all (by decide)).append hwplain
  · obtain ⟨hvariables, hnodup⟩ := (heach b hb).nodup e.program.types
    exact hnodup.imp_of_mem fun hv hw hne halike =>
      hne (Name.eq_of_alike (hvariables _ hv) (hvariables _ hw) halike)

end Emission

/-- The names of a module are hygienic as far as those of the program are apart: of whatever program
is written, functions share a name, or variables a local, if and only if their own names differ in
no letter or digit. Plain names are apart. -/
theorem names_hygienic_iff {p : Program} {out : ModuleOutput} (h : Work.Comes p.emit out) :
    ∃ e funcs directives fs, p.emission? = some e ∧ e.Writes out funcs directives
      ∧ fs.map (·.1) = e.written ∧ (∀ f ∈ fs, IsWritten e.env f.1 f.2)
      ∧ Line.formsAll (e.moduleLines funcs) = (e.items (fs.map (·.2))).map Item.form
      ∧ (e.Hygienic fs ↔ e.Apart) ∧ (p.PlainNames → e.Hygienic fs) := by
  obtain ⟨e, funcs, directives, rfl, hwrites⟩ := Program.writes_of_emit h
  obtain ⟨next, hfuncs, _⟩ := hwrites.code
  obtain ⟨fs, hbodies, hforms, hwritten⟩ := written_funcs hwrites.supported hfuncs
  have hiff := Emission.hygienic_iff hbodies hwrites.supported hwritten
  exact ⟨e, funcs, directives, fs, hwrites.emission?, hwrites, hbodies, hwritten,
    formsAll_moduleLines hwrites.total_lt hforms, hiff,
    fun hplain => hiff.mpr (hwrites.apart hplain)⟩

/-- A type with a static field and a function that counts it up, with the label that its local is
not named after. -/
def dialProgram : Program :=
  let int : Annot := { type := TypeTable.int32 }
  let level : Expr := .field int ⟨"Panel.Dial", "level_1"⟩ true .missing
  let step : Expr := .variable int "currentLabel" false
  let by_ : Expr := .variable int "step_0" true
  { name := "dial"
    decls := some [{
      name := "Panel.Dial"
      fields := some [some { name := "level_1", type := TypeTable.int32 }]
      funcs := some [
        { name := "Turn_by", declaringType := "Panel.Dial", flags := 3, result := TypeTable.int32
          params := some [{ name := "step_0", type := TypeTable.int32 }]
          locals := some [{ name := "currentLabel", type := TypeTable.int32 }]
          body := .block { id := 1 } (some [
            .labelGroup { id := 2 } (some [.mk "next" (some [
              .expr { id := 3 } (.binary int .assign step (.binary int .add level by_)),
              .expr { id := 4 } (.binary int .assign level step)])]),
            .ret { id := 5 } level]) },
        { name := "Turn", declaringType := "Panel.Dial", flags := 3, result := TypeTable.int32
          body := .block { id := 6 } (some [.ret { id := 7 } level]) }] }] }

/-- Its names, with those of its accessors, and their variables are all different. -/
theorem names_hygienic_dial :
    ∃ out, Work.Comes dialProgram.emit out ∧ dialProgram.PlainNames
      ∧ ∃ (e : Emission) (funcs directives : List Line) (fs : List (Body × FuncText)),
        e.Writes out funcs directives ∧ fs.map (·.1) = e.written ∧ e.Hygienic fs
      ∧ fs.map (·.2.name) = (["$Dial_Turn_by", "$Dial_Turn"] : List Bytes)
      ∧ e.generated.map (·.name)
        = (["$__string_length", "$__get_Dial_level_1", "$__set_Dial_level_1"] : List Bytes) := by
  have hemit : dialProgram.emit.result?.isSome := by decide +kernel
  have hplain : dialProgram.PlainNames := by decide +kernel
  have hnames : dialProgram.emission?.any fun e => decide (
      e.written.map (fun b => Name.func b.func.ref)
          = (["$Dial_Turn_by", "$Dial_Turn"] : List Bytes)
        ∧ e.generated.map (·.name)
          = (["$__string_length", "$__get_Dial_level_1", "$__set_Dial_level_1"] : List Bytes)) := by
    decide +kernel
  obtain ⟨out, hout⟩ := Work.exists_comes hemit
  obtain ⟨e, funcs, directives, fs, he, hwrites, hbodies, hwritten, _, _, hhygienic⟩ :=
    names_hygienic_iff hout
  rw [he, Option.any_some] at hnames
  obtain ⟨hfuncs, hgenerated⟩ := of_decide_eq_true hnames
  refine ⟨out, hout, hplain, e, funcs, directives, fs, hwrites, hbodies, hhygienic hplain, ?_,
    hgenerated⟩
  rw [← hfuncs, ← hbodies, List.map_map]
  exact List.map_congr_left fun f hf => (hwritten f hf).name

/-- A function that sets a local to one, then another to two, and returns the first. -/
def accentProgram : Program :=
  let int : Annot := { type := TypeTable.int32 }
  let acute : Expr := .variable int "é" false
  let grave : Expr := .variable int "è" false
  let number (n : Int64) : Expr := .literal int { kind := .int, int := n }
  { name := "accents"
    decls := some [{
      name := "T"
      funcs := some [
        { name := "F", declaringType := "T", flags := 3, result := TypeTable.int32
          locals := some [{ name := "é", type := TypeTable.int32 },
            { name := "è", type := TypeTable.int32 }]
          body := .block { id := 1 } (some [
            .expr { id := 2 } (.binary int .assign acute (number 1)),
            .expr { id := 3 } (.binary int .assign grave (number 2)),
            .ret { id := 4 } acute]) },
        { name := "Main", declaringType := "T", flags := 5, result := TypeTable.void
          body := .block { id := 5 } (some [.expr { id := 6 } (.invoke int "F" none)]) }] }] }

/-- The two share a local of the module, and the function returns two. -/
theorem accents_share_local :
    ∃ out m r, Work.Comes accentProgram.emit out ∧ accentProgram.module? = some m
      ∧ (m.func? "$T_F").map (·.locals)
        = some ([("$_", .i32), ("$_", .i32)] : List (Bytes × ValueType))
      ∧ (execute out.text {}).1 = .ok r ∧ r.printed = "(invoke \"F\")\n-> 2\n" := by
  have hrun : accentProgram.emit.result?.any fun out =>
      (execute out.text {}).1.toOption.any fun r =>
        decide (r.printed = ("(invoke \"F\")\n-> 2\n" : Bytes)) := by
    decide +kernel
  have hmodule : accentProgram.module?.any fun m =>
      decide ((m.func? "$T_F").map (·.locals)
        = some ([("$_", .i32), ("$_", .i32)] : List (Bytes × ValueType))) := by
    decide +kernel
  obtain ⟨out, hout, hrun⟩ := (Option.any_eq_true _ _).mp hrun
  obtain ⟨r, hr, hprinted⟩ := (Option.any_eq_true _ _).mp hrun
  obtain ⟨m, hm, hlocals⟩ := (Option.any_eq_true _ _).mp hmodule
  exact ⟨out, m, r, Work.comes_of_result? hout, hm, of_decide_eq_true hlocals, ok_of_toOption hr,
    of_decide_eq_true hprinted⟩

end WastForge
