import WastForge.Proofs.Control.Correct
import WastForge.Proofs.Integer.Held

/-!
# The arm that a switch runs

The code of a switch puts its default arm last and makes an empty arm of every value but the last
one of an arm, and the machine runs the first arm that does anything from the one on that matches.
Where no two arms list the same value and every arm ends in a jump, this is the arm that lists the
key, or else the default arm, and no other one.
-/

namespace WastForge

/-! ## The number that is held -/

namespace IntType

variable {K : IntType} {k : Int} {v : Value}

/-- The number of a type that the machine holds as a value, if the value holds one. -/
def number? (K : IntType) (v : Value) : Option Int :=
  let n := K.ofBits (BitVec.ofNat K.width v.bits.toNat)
  if (K.value n).bits = v.bits then some n else none

theorem ofNat_bits_value (K : IntType) (k : Int) :
    BitVec.ofNat K.width (K.value k).bits.toNat = K.toBits k := by
  apply BitVec.eq_of_toNat_eq
  rw [BitVec.toNat_ofNat, toBits, BitVec.toNat_ofInt]
  rcases K.keyword_eq with h | h
  · have hbits : (K.value k).bits.toNat = (k % 2 ^ 32).toNat := by
      rw [value_of_i32 h]
      show (UInt32.ofInt k).toUInt64.toNat = _
      rw [UInt32.toNat_toUInt64, UInt32.ofInt, UInt32.toNat_ofNat']
      omega
    rw [hbits]
    cases K <;> first | exact absurd h (by decide) | (simp only [width]; omega)
  · have hbits : (K.value k).bits.toNat = (k % 2 ^ 64).toNat := by
      rw [value_of_i64 h]
      show (UInt64.ofInt k).toNat = _
      rw [UInt64.ofInt, UInt64.toNat_ofNat']
      omega
    rw [hbits]
    cases K <;> first | exact absurd h (by decide) | (simp only [width]; omega)

/-- A value holds one number of a type at most. -/
theorem number?_eq_some : K.number? v = some k ↔ K.contains k ∧ (K.value k).bits = v.bits := by
  unfold number?
  constructor
  · intro h
    dsimp only at h
    split at h
    · cases h
      exact ⟨K.contains_ofBits _, ‹_›⟩
    · cases h
  · rintro ⟨hk, hv⟩
    dsimp only
    rw [← hv, ofNat_bits_value, ofBits_toBits, wrap_of_contains hk, if_pos rfl]

/-- The constant of a number of the type of the key matches the key just when the key holds it. The
upper half of the unsigned numbers of 64 bits is written as negative numbers. -/
theorem ofConstant_matches {n : Int} (hword : -2 ^ 63 ≤ n ∧ n < 2 ^ 63)
    (hn : K.contains n ∨ K = .u64) (v : Value) :
    ∃ w, Value.ofConstant K.keyword (Bytes.ofInt n) = .ok w
      ∧ (w.bits = v.bits ↔ K.number? v = some (K.wrap n)) := by
  rcases hn with hn | rfl
  · refine ⟨_, ofConstant_ofInt hn hword.2, ?_⟩
    rw [number?_eq_some, wrap_of_contains hn]
    exact (and_iff_right hn).symm
  · have hfit : IntType.i64.contains n := hword
    have hread : Value.ofConstant .i64 (Bytes.ofInt n) = .ok (IntType.i64.value n) :=
      ofConstant_ofInt (T := .i64) hfit hword.2
    refine ⟨_, hread, ?_⟩
    rw [number?_eq_some, value_wrap rfl]
    exact (and_iff_right (contains_wrap _ _)).symm

end IntType

namespace Eval.Arm

variable {β : Type} {kw : Keyword} {key : UInt64}

/-! ## The arms of the machine -/

/-- Whether the value of an arm matches the key. -/
def hits (kw : Keyword) (key : UInt64) (w : Bytes) : Bool :=
  (Value.ofConstant kw w).toOption.any (·.bits == key)

/-- Where all values can be read, the first arm that matches is found. -/
theorem matching_eq {arms : List (Arm β)}
    (h : ∀ w ∈ arms.filterMap (·.value), ∃ v, Value.ofConstant kw w = .ok v) :
    matching kw key arms
      = .ok (if (arms.filterMap (·.value)).any (hits kw key) then
          some (arms.dropWhile fun a => !a.value.any (hits kw key)) else none) := by
  induction arms with
  | nil => rfl
  | cons a rest ih =>
    unfold matching
    obtain ⟨value, body⟩ := a
    cases value with
    | none =>
      simp only [List.filterMap_cons] at h ⊢
      exact ih h
    | some w =>
      simp only [List.filterMap_cons] at h ⊢
      obtain ⟨v, hv⟩ := h w List.mem_cons_self
      have hrest := ih fun w hw => h w (List.mem_cons_of_mem _ hw)
      have hhits : hits kw key w = (v.bits == key) := by
        simp [hits, hv, Except.toOption]
      simp only [hv, bind, Except.bind, List.any_cons, List.dropWhile_cons, Option.any_some, hhits]
      by_cases hkey : v.bits = key
      · simp [hkey, pure, Except.pure]
      · rw [if_neg hkey, hrest]
        simp [hkey]

/-- The first body from some arm on, where only the last arm has one. -/
theorem findSome?_dropWhile {arms : List (Arm β)} {last : Arm β} {b : β} (p : Arm β → Bool)
    (harms : ∀ a ∈ arms, a.body = none) (hlast : last.body = some b) (rest : List (Arm β)) :
    ((arms ++ last :: rest).dropWhile p).findSome? (·.body)
      = if (arms ++ [last]).any (!p ·) then some b else (rest.dropWhile p).findSome? (·.body) := by
  induction arms with
  | nil =>
    by_cases hp : p last = true
    · simp [hp]
    · simp [hp, hlast]
  | cons a arms ih =>
    have hrest := ih fun x hx => harms x (List.mem_cons_of_mem _ hx)
    by_cases hp : p a = true
    · simpa [hp] using hrest
    · have hbody : (a :: arms ++ last :: rest).findSome? (·.body) = some b := by
        rw [List.findSome?_append, List.findSome?_eq_none_iff.mpr harms]
        simp [hlast]
      simpa [hp] using hbody

end Eval.Arm

namespace Control

open Eval Emit

/-! ## The arms of a switch -/

section arms

variable {c : Setting} {K : IntType} {key : Value} {l : List Case}

/-- Whether an arm lists a number of the type of the key. -/
def lists (K : IntType) (k : Int) (a : Case) : Bool :=
  (Rows.items a.values).any fun e => e.intConstant?.any fun n => K.wrap n.toInt == k

/-- The arm that a switch runs: the one that lists the key, or else the default arm. -/
def chosen (K : IntType) (key : Value) (l : List Case) : Option Case :=
  ((K.number? key).bind fun k => l.find? (lists K k)).or (l.find? (·.isDefault))

theorem mem_of_chosen {a : Case} (h : chosen K key l = some a) : a ∈ l := by
  rcases Option.or_eq_some_iff.mp h with h | ⟨-, h⟩
  · obtain ⟨k, -, h⟩ := Option.bind_eq_some_iff.mp h
    exact List.mem_of_find?_eq_some h
  · exact List.mem_of_find?_eq_some h

/-- The arms of a switch on keys of a type. The values are numbers of the type, no two arms list the
same one, and every arm ends in a jump. Literals of unsigned types of 64 bits stand for the number
with their bits. -/
structure WellArmed (K : IntType) (l : List Case) : Prop where
  inRange : ∀ a ∈ l, ∀ e ∈ Rows.items a.values, ∀ n, e.intConstant? = some n →
    K.contains n.toInt ∨ K = .u64
  apart : l.Pairwise fun a b => ∀ k, ¬(lists K k a = true ∧ lists K k b = true)
  jumps : ∀ a ∈ l, Stmt.rowsTerminal a.body = true

/-- The arms that an arm of a switch becomes. -/
def armsOfCase (c : Setting) (a : Case) : List (Arm Behaviour) :=
  armsOf a.isDefault (caseTexts (Rows.items a.values))
    (if anyCode c.env a.body then some (behaveRows c a.body) else none)

theorem behaveCases_eq (c : Setting) (wanted : Bool) (l : List Case) :
    behaveCases c wanted l = (l.filter (·.isDefault == wanted)).flatMap (armsOfCase c) := by
  induction l with
  | nil => rfl
  | cons a rest ih =>
    obtain ⟨values, isDefault, body⟩ := a
    unfold behaveCases
    rw [List.filter_cons]
    show _ = (if (isDefault == wanted) = true then _ else _ : List Case).flatMap _
    split
    · rw [List.flatMap_cons, ih]
      rfl
    · exact ih

mutual

/-- A statement that ends in a jump has code. -/
theorem hasCode_of_isTerminal (env : Env) : ∀ s : Stmt, s.isTerminal = true → hasCode env s = true
  | .block _ rows, h => blockHasCode_of_rowsTerminal env rows h
  | .bare .., _ | .goto .., _ | .branch .., _ | .ret .., _ => rfl
  | .missing, h | .expr .., h | .ite .., h | .forLoop .., h | .whileLoop .., h
  | .labelGroup .., h | .switch .., h | .varDecl .., h => by cases h

theorem blockHasCode_of_rowsTerminal (env : Env) :
    ∀ rows : Rows Stmt, Stmt.rowsTerminal rows = true → blockHasCode env rows = true
  | none, h => by cases h
  | some l, h => itemsHaveCode_of_lastTerminal env l h

theorem itemsHaveCode_of_lastTerminal (env : Env) :
    ∀ l : List Stmt, Stmt.lastTerminal l = true → itemsHaveCode env l = true
  | [], h => by cases h
  | [s], h => by
    unfold itemsHaveCode
    split
    · exact hasCode_of_isTerminal env s h
    · rfl
  | s :: s' :: rest, _ => rfl

end

theorem anyCode_of_rowsTerminal (env : Env) (rows : Rows Stmt)
    (h : Stmt.rowsTerminal rows = true) : anyCode env rows = true := by
  cases rows with
  | none => cases h
  | some l =>
    induction l with
    | nil => cases h
    | cons s rest ih =>
      have hany : anyCode env (some (s :: rest)) = (hasCode env s || anyCode env (some rest)) := rfl
      cases rest with
      | nil => rw [hany, hasCode_of_isTerminal env s h, Bool.true_or]
      | cons s' rest => rw [hany, ih h, Bool.or_true]

/-- The arms of an arm that ends in a jump: the last one has its body. -/
theorem armsOfCase_eq {a : Case} (hjumps : Stmt.rowsTerminal a.body = true) :
    ∃ arms last, armsOfCase c a = arms ++ [last] ∧ (∀ x ∈ arms, x.body = none)
      ∧ last.body = some (behaveRows c a.body) ∧ (last.value.isSome ↔ a.isDefault = false)
      ∧ ∀ x ∈ arms, x.value.isSome := by
  unfold armsOfCase
  rw [if_pos (anyCode_of_rowsTerminal c.env a.body hjumps)]
  have hempty : ∀ vs : List Bytes, ∀ x ∈ vs.map fun v => (⟨some v, none⟩ : Arm Behaviour),
      x.body = none ∧ x.value.isSome := by
    intro vs x hx
    obtain ⟨v, -, rfl⟩ := List.mem_map.mp hx
    exact ⟨rfl, rfl⟩
  cases hdefault : a.isDefault with
  | true =>
    refine ⟨_, _, rfl, fun x hx => (hempty _ x hx).1, rfl, ?_, fun x hx => (hempty _ x hx).2⟩
    simp
  | false =>
    refine ⟨_, _, rfl, fun x hx => (hempty _ x hx).1, rfl, ?_, fun x hx => (hempty _ x hx).2⟩
    simp

/-- The values of the arms of an arm, which has one unless it is the default arm. -/
theorem values_armsOfCase {a : Case}
    (hne : a.isDefault = false → caseTexts (Rows.items a.values) ≠ []) :
    (armsOfCase c a).filterMap (·.value) = caseTexts (Rows.items a.values) := by
  have hempty : ∀ vs : List Bytes,
      (vs.map fun v => (⟨some v, none⟩ : Arm Behaviour)).filterMap (·.value) = vs := by
    intro vs
    rw [List.filterMap_map]
    exact List.filterMap_some
  unfold armsOfCase armsOf
  cases hdefault : a.isDefault with
  | true =>
    rw [if_pos rfl, List.filterMap_append, hempty]
    exact List.append_nil _
  | false =>
    rw [if_neg Bool.false_ne_true, List.filterMap_append, hempty]
    have hlast := hne hdefault
    show (caseTexts (Rows.items a.values)).dropLast
      ++ [(caseTexts (Rows.items a.values)).getLast?.getD []] = _
    rw [List.getLast?_eq_getLast_of_ne_nil hlast, Option.getD_some]
    exact List.dropLast_concat_getLast hlast

/-- The first body from some arm on is that of the first arm of the switch that has such an arm. -/
theorem findSome?_flatMap (p : Arm Behaviour → Bool) (q : Case → Bool)
    (hjumps : ∀ a ∈ l, Stmt.rowsTerminal a.body = true)
    (hq : ∀ a ∈ l, (armsOfCase c a).any (!p ·) = q a) :
    ((l.flatMap (armsOfCase c)).dropWhile p).findSome? (·.body)
      = (l.find? q).map fun a => behaveRows c a.body := by
  induction l with
  | nil => rfl
  | cons a rest ih =>
    obtain ⟨arms, last, harms, hnone, hlast, -⟩ :=
      armsOfCase_eq (c := c) (hjumps a List.mem_cons_self)
    have ha := hq a List.mem_cons_self
    rw [harms] at ha
    rw [List.flatMap_cons, harms, List.append_assoc, List.singleton_append,
      Arm.findSome?_dropWhile p hnone hlast, ha, List.find?_cons]
    cases q a with
    | true => rfl
    | false =>
      exact ih (fun x hx => hjumps x (List.mem_cons_of_mem _ hx))
        fun x hx => hq x (List.mem_cons_of_mem _ hx)

/-- What the machine selects from the arms of a switch. -/
theorem select_flatMap {kw : Keyword} {bits : UInt64} (q : Case → Bool)
    (hjumps : ∀ a ∈ l, Stmt.rowsTerminal a.body = true)
    (hne : ∀ a ∈ l, a.isDefault = false → caseTexts (Rows.items a.values) ≠ [])
    (hread : ∀ a ∈ l, ∀ w ∈ caseTexts (Rows.items a.values), ∃ v, Value.ofConstant kw w = .ok v)
    (hq : ∀ a ∈ l, (caseTexts (Rows.items a.values)).any (Arm.hits kw bits) = q a) :
    Arm.select kw bits (l.flatMap (armsOfCase c))
      = .ok (((l.find? q).or (l.find? (·.isDefault))).map fun a => behaveRows c a.body) := by
  have hvalues : (l.flatMap (armsOfCase c)).filterMap (·.value)
      = l.flatMap fun a => caseTexts (Rows.items a.values) := by
    rw [List.filterMap_flatMap]
    exact List.flatMap_congr fun a ha => values_armsOfCase (hne a ha)
  have hreads : ∀ w ∈ (l.flatMap (armsOfCase c)).filterMap (·.value),
      ∃ v, Value.ofConstant kw w = .ok v := by
    intro w hw
    rw [hvalues] at hw
    obtain ⟨a, ha, hw⟩ := List.mem_flatMap.mp hw
    exact hread a ha w hw
  have hany : (l.flatMap fun a => caseTexts (Rows.items a.values)).any (Arm.hits kw bits)
      = l.any q := by
    rw [List.any_flatMap, Bool.eq_iff_iff, List.any_eq_true, List.any_eq_true]
    exact exists_congr fun a => and_congr_right fun ha => by rw [hq a ha]
  have hhit := findSome?_flatMap (c := c) (fun a => !a.value.any (Arm.hits kw bits)) q hjumps (by
    intro a ha
    rw [← hq a ha, ← values_armsOfCase (c := c) (hne a ha), List.any_filterMap]
    simp only [Bool.not_not]
    rfl)
  have hdefault := findSome?_flatMap (c := c) (·.value.isSome) (·.isDefault) hjumps (by
    intro a ha
    obtain ⟨arms, last, harms, -, -, hvalue, hsome⟩ := armsOfCase_eq (c := c) (hjumps a ha)
    rw [harms, List.any_append]
    have hfirst : arms.any (fun x => !x.value.isSome) = false := by
      rw [List.any_eq_false]
      intro x hx
      simp [hsome x hx]
    rw [hfirst, Bool.false_or, List.any_cons, List.any_nil, Bool.or_false]
    cases hd : a.isDefault <;> simp_all)
  unfold Arm.select
  rw [Arm.matching_eq hreads, hvalues, hany]
  cases hfind : l.find? q with
  | none =>
    have hnone : l.any q = false := by
      rw [List.any_eq_false]
      exact fun a ha => List.find?_eq_none.mp hfind a ha
    rw [hnone, Option.none_or, ← hdefault]
    rfl
  | some a =>
    have hsome : l.any q = true :=
      List.any_eq_true.mpr ⟨a, List.mem_of_find?_eq_some hfind, List.find?_some hfind⟩
    rw [hsome, Option.some_or, ← hfind, ← hhit]
    rfl

/-- Where only one element of a list passes a test, it is found in any order. -/
theorem find?_eq_of_mem_iff {α : Type} {l l' : List α} {q : α → Bool}
    (hmem : ∀ a, a ∈ l' ↔ a ∈ l) (hone : l.Pairwise fun a b => ¬(q a = true ∧ q b = true)) :
    l'.find? q = l.find? q := by
  cases hfind : l.find? q with
  | none => exact List.find?_eq_none.mpr fun a ha => List.find?_eq_none.mp hfind a ((hmem a).mp ha)
  | some a =>
    have ha : a ∈ l := List.mem_of_find?_eq_some hfind
    have hqa : q a = true := List.find?_some hfind
    cases hfind' : l'.find? q with
    | none => exact absurd hqa (List.find?_eq_none.mp hfind' a ((hmem a).mpr ha))
    | some b =>
      have hb : b ∈ l := (hmem b).mp (List.mem_of_find?_eq_some hfind')
      have hqb : q b = true := List.find?_some hfind'
      have hsymm : Std.Symm fun a b => ¬(q a = true ∧ q b = true) :=
        ⟨fun _ _ h hboth => h ⟨hboth.2, hboth.1⟩⟩
      exact congrArg some (by_contra fun hne => hone.forall hb ha hne ⟨hqb, hqa⟩)

/-- The arms in the order in which they are written. -/
def reordered (l : List Case) : List Case :=
  l.filter (·.isDefault == false) ++ l.filter (·.isDefault == true)

theorem mem_reordered {a : Case} : a ∈ reordered l ↔ a ∈ l := by
  rw [reordered, List.mem_append, List.mem_filter, List.mem_filter]
  cases a.isDefault <;> simp

theorem find?_isDefault_reordered (l : List Case) :
    (reordered l).find? (·.isDefault) = l.find? (·.isDefault) := by
  have hnone : (l.filter (·.isDefault == false)).find? (·.isDefault) = none := by
    rw [List.find?_eq_none]
    intro a ha
    simpa using (List.mem_filter.mp ha).2
  rw [reordered, List.find?_append, hnone, Option.none_or, List.find?_filter]
  congr 1
  funext a
  cases a.isDefault <;> rfl

/-- The arm that the machine selects is the one that is chosen. -/
theorem select_eq_chosen (h : WellArmed K l)
    (hne : ∀ a ∈ l, a.isDefault = false → caseTexts (Rows.items a.values) ≠ []) :
    Arm.select K.keyword key.bits (behaveCases c false l ++ behaveCases c true l)
      = .ok ((chosen K key l).map fun a => behaveRows c a.body) := by
  have harms : behaveCases c false l ++ behaveCases c true l
      = (reordered l).flatMap (armsOfCase c) := by
    rw [behaveCases_eq, behaveCases_eq, reordered, List.flatMap_append]
  let listed : Case → Bool := fun a => (K.number? key).any fun k => lists K k a
  have hreads : ∀ a ∈ l, ∀ e ∈ Rows.items a.values, ∀ n : Int64, e.intConstant? = some n →
      ∃ w, Value.ofConstant K.keyword (Bytes.ofInt n.toInt) = .ok w
        ∧ (w.bits = key.bits ↔ K.number? key = some (K.wrap n.toInt)) := by
    intro a ha e he n hn
    exact IntType.ofConstant_matches ⟨n.le_toInt, n.toInt_lt⟩ (h.inRange a ha e he n hn) key
  have hlisted : ∀ a ∈ l,
      (caseTexts (Rows.items a.values)).any (Arm.hits K.keyword key.bits) = listed a := by
    intro a ha
    rw [caseTexts, List.any_map, List.any_filterMap, Bool.eq_iff_iff]
    simp only [listed, lists, List.any_eq_true, Option.any_eq_true]
    constructor
    · rintro ⟨e, he, hhit⟩
      cases hn : e.intConstant? with
      | none =>
        rw [hn] at hhit
        cases hhit
      | some n =>
        rw [hn] at hhit
        obtain ⟨w, hw, hkey⟩ := hreads a ha e he n hn
        have hbits : w.bits = key.bits := by
          simpa [Arm.hits, hw, Except.toOption] using hhit
        exact ⟨_, hkey.mp hbits, e, he, n, hn, by simp⟩
    · rintro ⟨k, hk, e, he, n, hn, hwrap⟩
      obtain ⟨w, hw, hkey⟩ := hreads a ha e he n hn
      obtain rfl : K.wrap n.toInt = k := by simpa using hwrap
      refine ⟨e, he, ?_⟩
      rw [hn]
      simpa [Arm.hits, hw, Except.toOption] using hkey.mpr hk
  have hfind : (reordered l).find? listed = (K.number? key).bind fun k => l.find? (lists K k) := by
    cases hnumber : K.number? key with
    | none =>
      rw [List.find?_eq_none.mpr fun a _ => by simp [listed, hnumber]]
      rfl
    | some k =>
      have hsame : listed = lists K k := by
        funext a
        simp [listed, hnumber]
      rw [hsame]
      exact find?_eq_of_mem_iff (fun _ => mem_reordered) (h.apart.imp fun hab => hab k)
  rw [harms, select_flatMap listed (fun a ha => h.jumps a (mem_reordered.mp ha))
    (fun a ha => hne a (mem_reordered.mp ha)) (fun a ha w hw => ?_)
    (fun a ha => hlisted a (mem_reordered.mp ha)), hfind, find?_isDefault_reordered, chosen]
  obtain ⟨n, hn, rfl⟩ := List.mem_map.mp hw
  obtain ⟨e, he, hn⟩ := List.mem_filterMap.mp hn
  obtain ⟨v, hv, -⟩ := hreads a (mem_reordered.mp ha) e he n hn
  exact ⟨v, hv⟩

end arms

/-! ## The switch -/

/-- What a switch with the index `i` does: it takes its key once and then does what the arm does
that is chosen, or nothing if there is none. A break of the switch goes on behind it. -/
def Chooses (c : Setting) (i : LoopIndex) (K : IntType) (key : Form) (l : List Case) (m : Machine)
    (e : Ending) (m' : Machine) : Prop :=
  (∃ v m₁, c.code [key] .void m (.done v) m₁ ∧
    match chosen K v l with
    | none => e = .done .void ∧ m' = m₁
    | some a => ((behaveRows c a.body).catching (Ending.breaks i)) .void m₁ e m')
  ∨ c.code [key] .void m e m' ∧ e.isDone = false

section switch

variable {c : Setting} {root : Stmt} {labels : LabelTable} {nest : Nest} {shape : Shape}
variable {n n' : LoopNumbers} {lines : List Line} {K : IntType}

/-- An arm that is written lists a value unless it is the default arm. -/
theorem texts_ne_nil_of_cases {env : Env} {span : Span} (l : List Case)
    (he : Emits (cases env labels nest span false l) n lines n') :
    ∀ a ∈ l, a.isDefault = false → caseTexts (Rows.items a.values) ≠ [] := by
  induction l generalizing n n' lines with
  | nil => exact fun a ha => absurd ha List.not_mem_nil
  | cons x rest ih =>
    obtain ⟨values, isDefault, body⟩ := x
    intro a ha hdefault
    rcases emits_cases he with ⟨hwanted, he⟩ | ⟨-, hvalues, texts, _, n₁, _, htexts, -, hmore, -⟩
    · rcases List.mem_cons.mp ha with rfl | ha
      · rw [show isDefault = false from hdefault] at hwanted
        cases hwanted
      · exact ih he a ha hdefault
    · rcases List.mem_cons.mp ha with rfl | ha
      · show caseTexts (Rows.items values) ≠ []
        rw [← comes_caseValues htexts]
        cases hitems : Rows.items values with
        | nil => exact absurd hitems (hvalues hdefault)
        | cons e es =>
          rw [hitems] at htexts
          unfold caseValues at htexts
          cases hconst : e.intConstant? with
          | none =>
            rw [hconst] at htexts
            obtain ⟨_, -, htexts⟩ := Work.comes_bind htexts
            exact absurd htexts Work.not_comes_problem
          | some k =>
            rw [hconst] at htexts
            obtain ⟨others, -, hpure⟩ := Work.comes_bind htexts
            rw [Work.comes_pure hpure]
            exact List.cons_ne_nil _ _
      · exact ih hmore a ha hdefault

theorem texts_ne_nil_of_switch {m : Mark} {own : LoopIndex} {key : Expr} {arms : Rows Case}
    (he : Emits (stmt c.env labels nest shape (.switch m own key arms)) n lines n') :
    ∀ a ∈ Rows.items arms, a.isDefault = false → caseTexts (Rows.items a.values) ≠ [] := by
  obtain ⟨_, _, _, _, _, _, _, -, -, -, hnamed, -, -⟩ := emits_switch he
  cases arms with
  | none => exact fun a ha => absurd ha List.not_mem_nil
  | some l => exact texts_ne_nil_of_cases l hnamed

/-- A switch does what its arms are chosen for. -/
theorem behave_switch {m : Mark} {own : LoopIndex} {key : Expr} {arms : Rows Case} {f : Form}
    (hkey : c.env.types.intType? key.type = some K) (hcode : codeOf c.env true key = some f)
    (h : WellArmed K (Rows.items arms))
    (hne : ∀ a ∈ Rows.items arms, a.isDefault = false → caseTexts (Rows.items a.values) ≠ [])
    {x x' : Machine} {e : Ending} :
    behave c (.switch m own key arms) .void x e x'
      ↔ Chooses c (c.indexOf m own) K f (Rows.items arms) x e x' := by
  have hselect : ∀ v : Value,
      Arm.select K.keyword v.bits (behaveCaseRows c false arms ++ behaveCaseRows c true arms)
        = .ok ((chosen K v (Rows.items arms)).map fun a => behaveRows c a.body) := by
    intro v
    cases arms with
    | none => exact select_eq_chosen h hne
    | some l => exact select_eq_chosen h hne
  rw [behave, hcode, TypeTable.valueKeyword?_of_intType? hkey, Option.getD_some]
  constructor
  · rintro ⟨e₀, ⟨v, x₁, htaken, hrest⟩ | ⟨hleft, hdone⟩, rfl⟩
    · refine .inl ⟨v, x₁, htaken, ?_⟩
      simp only [Behaviour.selected, hselect] at hrest
      cases hchosen : chosen K v (Rows.items arms) with
      | none =>
        rw [hchosen] at hrest
        obtain ⟨rfl, rfl⟩ := hrest
        exact ⟨rfl, rfl⟩
      | some a =>
        rw [hchosen] at hrest
        obtain ⟨e₁, hbody, rfl⟩ := hrest
        have hjumps := h.jumps a (mem_of_chosen hchosen)
        have hnot : e₁.isDone = false := by
          cases e₁ with
          | done u => exact absurd hbody (not_done_of_rows c a.body hjumps _ _ _ _)
          | _ => rfl
        rw [hnot]
        exact ⟨e₁, hbody, rfl⟩
    · refine .inr ?_
      obtain ⟨o, hends, rfl⟩ := hleft
      cases o with
      | ok v => cases hdone
      | error s => exact ⟨⟨_, hends, rfl⟩, rfl⟩
  · rintro (⟨v, x₁, htaken, hrest⟩ | ⟨hleft, hdone⟩)
    · cases hchosen : chosen K v (Rows.items arms) with
      | none =>
        rw [hchosen] at hrest
        obtain ⟨rfl, rfl⟩ := hrest
        refine ⟨.done .void, .inl ⟨v, x', htaken, ?_⟩, rfl⟩
        simp only [Behaviour.selected, hselect, hchosen, Option.map_none, and_self]
      | some a =>
        rw [hchosen] at hrest
        obtain ⟨e₁, hbody, rfl⟩ := hrest
        have hjumps := h.jumps a (mem_of_chosen hchosen)
        refine ⟨e₁, .inl ⟨v, x₁, htaken, ?_⟩, rfl⟩
        simp only [Behaviour.selected, hselect, hchosen]
        refine ⟨e₁, hbody, ?_⟩
        cases e₁ with
        | done u => exact absurd hbody (not_done_of_rows c a.body hjumps _ _ _ _)
        | _ => rfl
    · obtain ⟨o, hends, rfl⟩ := hleft
      refine ⟨_, .inr ⟨⟨o, hends, rfl⟩, hdone⟩, ?_⟩
      cases o with
      | ok v => cases hdone
      | error s => rfl

end switch

/-- A number as the value of an arm. -/
def armValue (n : Int64) : Expr := .literal { type := TypeTable.int32 } { kind := .int, int := n }

/-- Arms of which the first one is the default arm, with two values of its own. -/
def jumpArms : List Case :=
  [.mk (some [armValue 7, armValue 9]) true
    (some [.expr { id := 3 } (jumpOp .addAssign TypeTable.int32 1),
      .branch { id := 4 } false noIndex]),
   .mk (some [armValue 1, armValue 2]) false (some [.ret { id := 5 } .missing]),
   .mk (some [armValue (-3)]) false
    (some [.block { id := 6 } (some [.branch { id := 7 } false noIndex])])]

example : (chosen .i32 (IntType.i32.value 9) jumpArms).map Case.isDefault = some true := by decide

/-- The switch with these arms. -/
def jumpSwitch : Stmt :=
  .switch { id := 2 } noIndex (.variable { type := TypeTable.int32 } "i" false) (some jumpArms)

/-- The setting after the code of the switch is written. -/
def switchSetting : Setting :=
  ⟨jumpEnv, { next := 4097, chosen := [(2, 4096)] }, ⟨{}, 0, fun _ => .error []⟩, ⟨some "$f", 1⟩⟩

theorem switch_inside : Inside switchSetting jumpSwitch {} := by
  refine ⟨rfl, rfl, fun _ _ g hg => absurd hg (Nat.not_lt_zero g), ?_⟩
  intro m rows hmem
  have hall : ∀ l ∈ LabelTable.groupsOf (Node.all jumpSwitch), l.length ≤ 2 ^ 32 := by decide
  exact hall _ (LabelTable.mem_groupsOf hmem)

theorem wellArmed_jumpArms : WellArmed .i32 jumpArms where
  inRange := by
    intro a ha e he n hn
    refine .inl ?_
    have hall : ∀ a ∈ jumpArms, ∀ e ∈ Rows.items a.values,
        e.intConstant?.all (fun n => decide (IntType.i32.contains n.toInt)) = true := by decide
    have hfit := hall a ha e he
    rw [hn] at hfit
    simpa using hfit
  apart := by
    simp only [jumpArms, List.pairwise_cons, List.mem_cons, List.not_mem_nil, or_false,
      forall_eq_or_imp, forall_eq, lists, Case.values, Rows.items, Option.getD_some, List.any_cons,
      List.any_nil, armValue, Expr.intConstant?, Expr.literal?, Option.any_some, Bool.or_false,
      Bool.or_eq_true, beq_iff_eq]
    refine ⟨⟨?_, ?_⟩, ?_, fun _ h => h.elim, .nil⟩ <;>
      rintro k ⟨rfl | rfl, h⟩ <;> exact absurd h (by decide)
  jumps := by decide

end Control

end WastForge
