import Mathlib
import WastForge.Proofs.Machine.Independence
import WastForge.Proofs.Machine.Invariant

/-!
# Words within 32 bits

A value has 64 bits, whatever its type is, and conditions and switches look at all of them. Every
instruction that makes an integer of 32 bits leaves the upper half zero, also where it extends a
sign or takes operands of another type. So nothing is lost by looking at all bits: a condition and a
switch decide as they would on the lower 32.
-/

namespace WastForge

/-! ## Values that instructions make -/

namespace Value

/-- An integer of 32 bits has no bits above them. -/
def IsCanonical (v : Value) : Prop := v.type = .i32 → v.bits.toNat < 2 ^ 32

theorem isCanonical_i32 (n : UInt32) : (i32 n).IsCanonical := fun _ =>
  UInt32.toNat_toUInt64 n ▸ n.toNat_lt

theorem isCanonical_ofBool (b : Bool) : (ofBool b).IsCanonical := isCanonical_i32 _

/-- Values of the other types may have any bits. -/
theorem isCanonical_of_ne {v : Value} (h : v.type ≠ .i32) : v.IsCanonical := fun hv => absurd hv h

theorem isCanonical_i64 (n : UInt64) : (i64 n).IsCanonical := isCanonical_of_ne nofun

theorem isCanonical_f64 (bits : UInt64) : (f64 bits).IsCanonical := isCanonical_of_ne nofun

theorem isCanonical_f32 (bits : UInt32) : (f32 bits).IsCanonical := isCanonical_of_ne nofun

theorem isCanonical_ofConstant {kw : Keyword} {s : Bytes} {v : Value}
    (h : ofConstant kw s = .ok v) : v.IsCanonical := by
  unfold ofConstant at h
  cases kw with
  | i32 =>
    simp only at h
    split at h
    · split at h
      · cases h
        exact isCanonical_i32 _
      · cases h
    · cases h
  | i64 =>
    simp only at h
    split at h
    · cases h
      exact isCanonical_i64 _
    · split at h
      · cases h
        exact isCanonical_i64 _
      · cases h
  | f32 =>
    simp only at h
    split at h
    · cases h
      exact isCanonical_f32 _
    · cases h
  | f64 =>
    simp only at h
    split at h
    · cases h
      exact isCanonical_f64 _
    · cases h
  | void => cases h

end Value

open Value

/-- A load repeats the sign beyond the word, and cuts it off again. -/
theorem Eval.isCanonical_loaded (kw : Keyword) (a : Access) (bits : UInt64) :
    (loaded kw a bits).IsCanonical := by
  unfold loaded
  simp only
  split
  · exact isCanonical_i32 _
  · exact isCanonical_of_ne (by cases kw <;> simp_all [valueType])

theorem IntOp.isCanonical_on32 {op : IntOp} {x y : UInt32} {v : Value}
    (h : op.on32 x y = .ok v) : v.IsCanonical := by
  cases op <;> simp only [on32] at h <;> (repeat' split at h) <;> cases h <;>
    exact isCanonical_i32 _

theorem IntOp.isCanonical_on64 {op : IntOp} {x y : UInt64} {v : Value}
    (h : op.on64 x y = .ok v) : v.IsCanonical := by
  cases op <;> simp only [on64] at h <;> (repeat' split at h) <;> cases h <;>
    first | exact isCanonical_i64 _ | exact isCanonical_ofBool _

theorem FloatOp.isCanonical_on32 (op : FloatOp) (a b : Value) : (op.on32 a b).IsCanonical := by
  unfold on32
  split
  · exact isCanonical_f32 _
  · exact isCanonical_ofBool _

theorem FloatOp.isCanonical_on64 (op : FloatOp) (a b : Value) : (op.on64 a b).IsCanonical := by
  unfold on64
  split
  · exact isCanonical_f64 _
  · exact isCanonical_ofBool _

theorem isCanonical_binary? {kw : Keyword} {name : Bytes} {a b v : Value}
    (h : binary? kw name a b = some (.ok v)) : v.IsCanonical := by
  cases kw with
  | i32 =>
    obtain ⟨op, -, hop⟩ := Option.map_eq_some_iff.mp h
    exact IntOp.isCanonical_on32 hop
  | i64 =>
    obtain ⟨op, -, hop⟩ := Option.map_eq_some_iff.mp h
    exact IntOp.isCanonical_on64 hop
  | f32 =>
    obtain ⟨op, -, hop⟩ := Option.map_eq_some_iff.mp h
    cases hop
    exact op.isCanonical_on32 a b
  | f64 =>
    obtain ⟨op, -, hop⟩ := Option.map_eq_some_iff.mp h
    cases hop
    exact op.isCanonical_on64 a b
  | void => cases h

theorem isCanonical_truncate {kw : Keyword} {signed : Bool} {x : UInt64} {v : Value}
    (h : truncate kw signed x = .ok v) : v.IsCanonical := by
  unfold truncate at h
  simp only at h
  (repeat' split at h) <;> cases h <;> first | exact isCanonical_i32 _ | exact isCanonical_i64 _

theorem isCanonical_ofInteger (kw : Keyword) (n : Int) : (ofInteger kw n).IsCanonical := by
  unfold ofInteger
  split
  · exact isCanonical_f32 _
  · exact isCanonical_f64 _

theorem isCanonical_convert? {kw : Keyword} {name : Bytes} {a v : Value}
    (h : convert? kw name a = some (.ok v)) : v.IsCanonical := by
  unfold convert? at h
  repeat
    rcases Eval.eq_or_of_ite h with hthis | h
    · first
        | exact isCanonical_truncate (Option.some.inj hthis)
        | cases hthis
          first
            | exact isCanonical_i32 _
            | exact isCanonical_i64 _
            | exact isCanonical_f32 _
            | exact isCanonical_f64 _
            | exact isCanonical_ofInteger _ _
  cases h

theorem isCanonical_unary? {kw : Keyword} {name : Bytes} {a v : Value}
    (h : unary? kw name a = some (.ok v)) : v.IsCanonical := by
  unfold unary? at h
  simp only at h
  split at h
  · next own hown =>
    obtain rfl := Except.ok.inj (Option.some.inj h)
    cases kw with
    | i32 =>
      obtain ⟨_, -, rfl⟩ := Option.map_eq_some_iff.mp hown
      exact isCanonical_i32 _
    | i64 =>
      obtain ⟨⟨isTruth, n⟩, -, rfl⟩ := Option.map_eq_some_iff.mp hown
      cases isTruth with
      | true => exact isCanonical_i32 _
      | false => exact isCanonical_i64 _
    | f32 =>
      obtain ⟨_, -, rfl⟩ := Option.map_eq_some_iff.mp hown
      exact isCanonical_f32 _
    | f64 =>
      obtain ⟨_, -, rfl⟩ := Option.map_eq_some_iff.mp hown
      exact isCanonical_f64 _
    | void => cases hown
  · exact isCanonical_convert? h

/-! ## Locals -/

namespace Locals

/-- Every local that is an integer of 32 bits is within them. -/
def AreCanonical (l : Locals) : Prop := ∀ p ∈ l, p.2.IsCanonical

variable {l : Locals}

theorem AreCanonical.set (h : l.AreCanonical) (name : Bytes) {v : Value} (hv : v.IsCanonical) :
    (l.set name v).AreCanonical := by
  induction l with
  | nil => exact List.forall_mem_singleton.mpr hv
  | cons p rest ih =>
    obtain ⟨hp, hrest⟩ := List.forall_mem_cons.mp h
    unfold Locals.set
    split
    · exact List.forall_mem_cons.mpr ⟨hv, hrest⟩
    · exact List.forall_mem_cons.mpr ⟨hp, ih hrest⟩

theorem AreCanonical.lookup (h : l.AreCanonical) {name : Bytes} {v : Value}
    (hv : l.lookup name = some v) : v.IsCanonical := by
  obtain ⟨front, back, rfl, -⟩ := List.lookup_eq_some_iff.mp hv
  exact h (name, v) (List.mem_append_right front List.mem_cons_self)

theorem AreCanonical.foldl_set {α : Type} {g : α → Bytes} {u : α → Value} {as : List α}
    (h : l.AreCanonical) (has : ∀ a ∈ as, (u a).IsCanonical) :
    Locals.AreCanonical (as.foldl (fun l a => l.set (g a) (u a)) l) := by
  induction as generalizing l with
  | nil => exact h
  | cons a rest ih =>
    obtain ⟨ha, hrest⟩ := List.forall_mem_cons.mp has
    exact ih (h.set (g a) ha) hrest

/-- A function starts with its arguments, and with zeros. -/
theorem areCanonical_startLocals (fn : Script.Function) {vs : List Value}
    (hvs : ∀ v ∈ vs, v.IsCanonical) : (Eval.startLocals fn vs).AreCanonical := by
  have hargs : ∀ p ∈ fn.params.zip vs, p.2.IsCanonical := fun p hp => hvs p.2 (List.of_mem_zip hp).2
  have hparams := AreCanonical.foldl_set (l := []) (g := Prod.fst) (List.forall_mem_nil _) hargs
  exact hparams.foldl_set (u := fun (p : Bytes × ValueType) => ⟨p.2, 0⟩) fun _ _ _ =>
    Nat.two_pow_pos 32

end Locals

/-! ## Runs -/

/-- Nothing that a form does makes an integer of 32 bits with more of them. -/
theorem invariant_canonical : Invariant (fun m => m.locals.AreCanonical) IsCanonical where
  plain h _ hlocals := hlocals ▸ h
  redirect _ h _ := h
  append _ h _ := h
  set h hv := h.set _ hv
  start _ hvs := Locals.areCanonical_startLocals _ hvs
  back h _ := h
  void := isCanonical_of_ne nofun
  zero := isCanonical_i32 0
  read h hv := h.lookup hv
  const h := isCanonical_ofConstant h
  loaded _ _ := Eval.isCanonical_loaded _ _ _
  unary _ h := isCanonical_unary? h
  binary _ _ h := isCanonical_binary? h

namespace Eval

/-- The arms of a switch from the first case on whose value passes a test. -/
def matchingBy (kw : Keyword) (test : Value → Bool) :
    List SourceForm → Except Trap (Option (List SourceForm))
  | [] => .ok none
  | arm :: rest =>
    match arm.head == "case", arm.args with
    | true, value :: _ => do
      let v ← Value.ofConstant kw value.word
      if test v then return some (arm :: rest) else matchingBy kw test rest
    | _, _ => matchingBy kw test rest

/-- A switch tests whether all bits are those of the key. Any test that agrees on constants chooses
the same arms. -/
theorem matching_eq_matchingBy {kw : Keyword} {key : UInt64} {test : Value → Bool}
    (h : ∀ s v, Value.ofConstant kw s = .ok v → (v.bits = key ↔ test v)) (arms : List SourceForm) :
    matching kw key arms = matchingBy kw test arms := by
  induction arms with
  | nil => rfl
  | cons arm rest ih =>
    unfold matching matchingBy
    cases arm.head == "case" with
    | false => exact ih
    | true =>
      cases arm.args with
      | nil => exact ih
      | cons value _ =>
        cases hv : Value.ofConstant kw value.word with
        | error t =>
          simp only [hv]
          rfl
        | ok v =>
          simp only [hv]
          show (if v.bits = key then pure (some (arm :: rest)) else matching kw key rest)
            = (if test v then pure (some (arm :: rest)) else matchingBy kw test rest)
          simp only [ih, h _ v hv]

end Eval

/-- What a value decides, it decides by its lower 32 bits. -/
structure Value.DecidesAsWord (v : Value) : Prop where
  /-- A condition holds if the word is not zero. -/
  truth : v.isTrue = (v.word != 0)
  /-- A switch goes on at the first case that is the same word. -/
  arms : ∀ arms, Eval.matching .i32 v.bits arms = Eval.matchingBy .i32 (·.word = v.word) arms

namespace Value

theorem type_ofConstant_i32 {s : Bytes} {v : Value} (h : ofConstant .i32 s = .ok v) :
    v.type = .i32 := by
  unfold ofConstant at h
  simp only at h
  split at h
  · split at h
    · cases h
      rfl
    · cases h
  · cases h

/-- Within 32 bits, the lower half is all there is. -/
theorem bits_inj {v w : Value} (hv : v.bits.toNat < 2 ^ 32) (hw : w.bits.toNat < 2 ^ 32) :
    v.bits = w.bits ↔ v.word = w.word := by
  rw [← UInt64.toNat_inj, ← UInt32.toNat_inj, word, word, UInt64.toNat_toUInt32,
    UInt64.toNat_toUInt32]
  omega

theorem IsCanonical.decidesAsWord {v : Value} (h : v.IsCanonical) (htype : v.type = .i32) :
    v.DecidesAsWord := by
  have hbits := h htype
  have hzero : v.bits = 0 ↔ v.word = 0 := bits_inj (w := .i32 0) hbits (by decide)
  refine ⟨?_, fun arms => Eval.matching_eq_matchingBy (fun s c hc => ?_) arms⟩
  · rw [isTrue, Bool.eq_iff_iff, bne_iff_ne, bne_iff_ne]
    exact not_congr hzero
  · rw [decide_eq_true_iff]
    exact bits_inj (isCanonical_ofConstant hc (type_ofConstant_i32 hc)) hbits

end Value

namespace Eval

/-- Wherever the integers of 32 bits among the locals are within them, evaluating any form leaves
them so, in what it gives and in the locals, however it is left; and what it gives decides by its
lower 32 bits if it is such an integer. So it is behind all directives of a script too. -/
theorem run_canonical (env : MachineEnv) {m : Machine} (hm : m.locals.AreCanonical) :
    (∀ (fuel : Nat) (f : Frame) (n : SourceForm),
      Leaves (fun m => m.locals.AreCanonical) Value.IsCanonical
        (fun v => v.IsCanonical ∧ (v.type = .i32 → v.DecidesAsWord)) (run env fuel f n m))
      ∧ ∀ ns, (Machine.directives env ns m).2.locals.AreCanonical := by
  refine ⟨fun fuel f n => ?_, fun ns => Machine.keeps_directives invariant_canonical ns hm⟩
  have hleaves := keeps_run invariant_canonical env fuel f n m hm
  generalize run env fuel f n m = r at hleaves ⊢
  cases r with
  | ok v m' => exact ⟨⟨hleaves.1, hleaves.1.decidesAsWord⟩, hleaves.2⟩
  | error s m' => exact hleaves

/-- An operand with 64 bits that are all ones gives a word of ones, and so does the local that it
is kept in. -/
theorem run_canonical_ones :
    let env : MachineEnv := ⟨{}, 10, fun _ => .error []⟩
    let m : Machine := { locals := [(Bytes.ofString "$x", .i32 7)] }
    let n : SourceForm := .list 1 [.atom 1 "set_local", .atom 1 "$x", .list 1 [.atom 1 "i32.sub",
      .list 1 [.atom 1 "i64.const", .atom 1 "-1"], .list 1 [.atom 1 "i32.const", .atom 1 "0"]]]
    m.locals.AreCanonical
      ∧ ∃ m', run env 11 ⟨some "$f", 1⟩ n m = .ok (.i32 0xFFFFFFFF) m'
        ∧ m'.locals = [(Bytes.ofString "$x", .i32 0xFFFFFFFF)] ∧ m'.locals.AreCanonical
        ∧ (Value.i32 0xFFFFFFFF).DecidesAsWord := by
  intro env m n
  have hm : m.locals.AreCanonical := List.forall_mem_singleton.mpr (Value.isCanonical_i32 7)
  have hrun : run env 11 ⟨some "$f", 1⟩ n m = .ok (.i32 0xFFFFFFFF)
      { m with locals := [(Bytes.ofString "$x", .i32 0xFFFFFFFF)], steps := 4 } := by
    rfl
  have hleaves := (run_canonical env hm).1 11 ⟨some "$f", 1⟩ n
  rw [hrun] at hleaves
  exact ⟨hm, _, hrun, rfl, hleaves.2, hleaves.1.2 rfl⟩

end Eval

end WastForge
