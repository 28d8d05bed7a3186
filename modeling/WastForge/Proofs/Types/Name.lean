import Mathlib.Data.Finset.Card
import WastForge.Proofs.Types.Requests

/-!
# Which types have a name

The name of a pointer or an array is made from the name of its element. So a type has a name just
when following elements from it comes to an end, and it does so just when no type on the way is
reached again. Where every element is known before what is made of it, all types have names.
-/

namespace WastForge.TypeTable

variable {tt : TypeTable} {id e t : TypeId} {i j n fuel : Nat}

/-- What a pointer points to or an array holds. -/
def elem? (tt : TypeTable) (id : TypeId) : Option TypeId :=
  (tt.lookup? id).bind fun d => if d.kind = .pointer ∨ d.kind = .array then some d.elem else none

/-- The type after a number of steps from a type to its element. -/
def follow (tt : TypeTable) : Nat → TypeId → Option TypeId
  | 0, id => some id
  | n + 1, id => (tt.elem? id).bind (tt.follow n)

/-- After finitely many steps to elements a type is reached that is neither pointer nor array, or
a number without a type. -/
def Ends (tt : TypeTable) (id : TypeId) : Prop :=
  ∃ n t, tt.follow n id = some t ∧ tt.elem? t = none

/-- Steps to elements lead from a type to one that is reached from itself again. -/
def Circles (tt : TypeTable) (id : TypeId) : Prop :=
  ∃ i n t, tt.follow i id = some t ∧ tt.follow (n + 1) t = some t

/-- A type is rendered as a text: some number of steps through its elements is enough for it. -/
def Renders (tt : TypeTable) (id : TypeId) (text : Bytes) : Prop :=
  ∃ n, tt.nameWith n id = some text

/-! ## Steps -/

theorem follow_add (tt : TypeTable) (i j : Nat) (id : TypeId) :
    tt.follow (i + j) id = (tt.follow i id).bind (tt.follow j) := by
  induction i generalizing id with
  | zero => rw [Nat.zero_add]; rfl
  | succ i ih =>
    rw [Nat.succ_add, follow, follow, Option.bind_assoc]
    exact Option.bind_congr fun e _ => ih e

/-- Nothing follows an end. -/
theorem follow_of_elem?_eq_none (h : tt.elem? id = none) (n : Nat) :
    tt.follow (n + 1) id = none := by
  rw [follow, h]
  rfl

theorem follow_succ (tt : TypeTable) (n : Nat) (id : TypeId) :
    tt.follow (n + 1) id = (tt.follow n id).bind tt.elem? := by
  rw [follow_add]
  exact Option.bind_congr fun e _ => Option.bind_fun_some (tt.elem? e)

theorem lt_size_of_elem? (h : tt.elem? id = some e) : id.toNat < tt.size := by
  obtain ⟨d, hd, -⟩ := Option.bind_eq_some_iff.mp h
  exact (List.getElem?_eq_some_iff.mp (lookup?_eq_some_iff.mp hd).2).1

/-- A step that is not the last one starts at an entry of the table. -/
theorem exists_follow_lt_size (h : tt.follow n id = some t) (hi : i < n) :
    ∃ e, tt.follow i id = some e ∧ e.toNat < tt.size := by
  obtain ⟨k, rfl⟩ := Nat.exists_eq_add_of_lt hi
  rw [Nat.add_assoc, follow_add] at h
  obtain ⟨e, he, hrest⟩ := Option.bind_eq_some_iff.mp h
  obtain ⟨e', he', -⟩ := Option.bind_eq_some_iff.mp hrest
  exact ⟨e, he, lt_size_of_elem? he'⟩

/-- More steps than there are entries come to one of them twice. -/
theorem exists_follow_eq (h : tt.follow n id = some t) (hn : tt.size < n) :
    ∃ i j, i < j ∧ j < n ∧ tt.follow i id = tt.follow j id := by
  have hmaps : ∀ i ∈ Finset.range n,
      ((tt.follow i id).getD 0).toNat ∈ Finset.range tt.size := by
    intro i hi
    obtain ⟨e, he, hlt⟩ := exists_follow_lt_size h (Finset.mem_range.mp hi)
    rw [he]
    exact Finset.mem_range.mpr hlt
  obtain ⟨i, hi, j, hj, hne, heq⟩ := Finset.exists_ne_map_eq_of_card_lt_of_maps_to
    (by rwa [Finset.card_range, Finset.card_range]) hmaps
  rw [Finset.mem_range] at hi hj
  have hsame : tt.follow i id = tt.follow j id := by
    obtain ⟨a, ha, -⟩ := exists_follow_lt_size h hi
    obtain ⟨b, hb, -⟩ := exists_follow_lt_size h hj
    simp only [ha, hb, Option.getD_some] at heq
    rw [ha, hb, UInt32.toNat_inj.mp heq]
  rcases Nat.lt_or_gt_of_ne hne with hlt | hlt
  · exact ⟨i, j, hlt, hj, hsame⟩
  · exact ⟨j, i, hlt, hi, hsame.symm⟩

/-! ## Ends and circles -/

/-- What is reached before an end is not reached again. -/
theorem follow_ne_of_end (hn : tt.follow n id = some t) (ht : tt.elem? t = none) (hij : i < j)
    (hj : j ≤ n) : tt.follow i id ≠ tt.follow j id := by
  intro heq
  obtain ⟨k, rfl⟩ := Nat.exists_eq_add_of_le hj
  obtain ⟨m, rfl⟩ := Nat.exists_eq_add_of_lt hij
  -- From the earlier of two equal places the end comes too early, and nothing follows it.
  have hearly : tt.follow (i + k) id = some t := by
    rw [follow_add, heq, ← follow_add]
    exact hn
  have hlate : tt.follow (i + k + (m + 1)) id = none := by
    rw [follow_add, hearly]
    exact follow_of_elem?_eq_none ht m
  rw [show i + m + 1 + k = i + k + (m + 1) by omega, hlate] at hn
  cases hn

/-- An end is reached in no more steps than there are entries. -/
theorem le_size_of_end (hn : tt.follow n id = some t) (ht : tt.elem? t = none) : n ≤ tt.size := by
  by_contra hlt
  obtain ⟨i, j, hij, hj, heq⟩ := exists_follow_eq hn (Nat.lt_of_not_le hlt)
  exact follow_ne_of_end hn ht hij (Nat.le_of_lt hj) heq

theorem exists_follow_of_not_ends (h : ¬tt.Ends id) (n : Nat) : ∃ t, tt.follow n id = some t := by
  induction n with
  | zero => exact ⟨id, rfl⟩
  | succ n ih =>
    obtain ⟨t, ht⟩ := ih
    cases he : tt.elem? t with
    | none => exact absurd ⟨n, t, ht, he⟩ h
    | some e => exact ⟨e, by rw [follow_succ, ht, ← he]; rfl⟩

theorem ends_iff_not_circles : tt.Ends id ↔ ¬tt.Circles id := by
  constructor
  · rintro ⟨n, t, hn, ht⟩ ⟨i, k, s, hi, hs⟩
    have hagain : tt.follow (i + (k + 1)) id = some s := by
      rw [follow_add, hi]
      exact hs
    by_cases hle : i + (k + 1) ≤ n
    · exact follow_ne_of_end hn ht (Nat.lt_add_of_pos_right (Nat.succ_pos k)) hle
        (hi.trans hagain.symm)
    · obtain ⟨m, hm⟩ := Nat.exists_eq_add_of_lt (Nat.lt_of_not_le hle)
      rw [hm, Nat.add_assoc, follow_add, hn] at hagain
      exact Option.some_ne_none s (hagain.symm.trans (follow_of_elem?_eq_none ht m))
  · intro h
    by_contra hends
    -- More steps than there are entries are possible, so one entry is reached twice.
    obtain ⟨t, ht⟩ := exists_follow_of_not_ends hends (tt.size + 1)
    obtain ⟨i, j, hij, hj, heq⟩ := exists_follow_eq ht (Nat.lt_succ_self _)
    obtain ⟨k, rfl⟩ := Nat.exists_eq_add_of_lt hij
    obtain ⟨s, hs, -⟩ := exists_follow_lt_size ht (Nat.lt_trans hij hj)
    refine h ⟨i, k, s, hs, ?_⟩
    rw [hs, Nat.add_assoc, follow_add, hs] at heq
    exact heq.symm

/-! ## Names -/

theorem nameWith_of_elem? (h : tt.elem? id = some e) : ∃ mark : Bytes,
    ∀ fuel, tt.nameWith (fuel + 1) id = (tt.nameWith fuel e).map (· ++ mark) := by
  obtain ⟨d, hd, hif⟩ := Option.bind_eq_some_iff.mp h
  by_cases hpointer : d.kind = .pointer
  · rw [if_pos (.inl hpointer)] at hif
    obtain rfl := Option.some.inj hif
    refine ⟨"*", fun fuel => ?_⟩
    simp only [nameWith, hd, hpointer]
  · by_cases harray : d.kind = .array
    · rw [if_pos (.inr harray)] at hif
      obtain rfl := Option.some.inj hif
      refine ⟨"[]", fun fuel => ?_⟩
      simp only [nameWith, hd, harray]
    · rw [if_neg (not_or.mpr ⟨hpointer, harray⟩)] at hif
      cases hif

theorem nameWith_of_elem?_eq_none (h : tt.elem? id = none) :
    ∃ text, ∀ fuel, tt.nameWith (fuel + 1) id = some text := by
  cases hd : tt.lookup? id with
  | none => exact ⟨_, fun fuel => by simp only [nameWith, hd]; rfl⟩
  | some d =>
    have hkind : d.kind ≠ .pointer ∧ d.kind ≠ .array := by
      rw [elem?, hd] at h
      by_contra hchain
      rw [Option.bind_some, if_pos (by tauto)] at h
      cases h
    cases hk : d.kind with
    | pointer => exact absurd hk hkind.1
    | array => exact absurd hk hkind.2
    | struct | object | generic =>
      cases hn : tt.nominal? d.payload with
      | _ => exact ⟨_, fun fuel => by simp only [nameWith, hd, hk, hn]; rfl⟩
    | _ => exact ⟨_, fun fuel => by simp only [nameWith, hd, hk]; rfl⟩

/-- Where some steps are enough, more change nothing. -/
theorem nameWith_mono {text : Bytes} (h : tt.nameWith n id = some text) (hle : n ≤ fuel) :
    tt.nameWith fuel id = some text := by
  induction n generalizing id fuel text with
  | zero => cases h
  | succ n ih =>
    obtain ⟨m, rfl⟩ := Nat.exists_eq_succ_of_ne_zero (Nat.ne_zero_of_lt hle)
    cases he : tt.elem? id with
    | none =>
      obtain ⟨text', htext⟩ := nameWith_of_elem?_eq_none he
      rw [← h, htext, htext]
    | some e =>
      obtain ⟨mark, hmark⟩ := nameWith_of_elem? he
      rw [hmark] at h
      obtain ⟨rest, hrest, rfl⟩ := Option.map_eq_some_iff.mp h
      rw [Nat.succ_eq_add_one, hmark, ih hrest (Nat.le_of_succ_le_succ hle), Option.map_some]

/-- Steps that lead to an end are enough. -/
theorem nameWith_of_end (hn : tt.follow n id = some t) (ht : tt.elem? t = none) :
    ∃ text, tt.nameWith (n + 1) id = some text := by
  induction n generalizing id with
  | zero =>
    obtain rfl := Option.some.inj hn
    obtain ⟨text, htext⟩ := nameWith_of_elem?_eq_none ht
    exact ⟨text, htext 0⟩
  | succ n ih =>
    obtain ⟨e, he, hrest⟩ := Option.bind_eq_some_iff.mp hn
    obtain ⟨mark, hmark⟩ := nameWith_of_elem? he
    obtain ⟨text, htext⟩ := ih hrest
    exact ⟨text ++ mark, by rw [hmark, htext, Option.map_some]⟩

/-- Steps without an end are never enough. -/
theorem nameWith_of_not_ends (h : ¬tt.Ends id) (fuel : Nat) : tt.nameWith fuel id = none := by
  induction fuel generalizing id with
  | zero => rfl
  | succ fuel ih =>
    cases he : tt.elem? id with
    | none => exact absurd ⟨0, id, rfl, he⟩ h
    | some e =>
      have hnext : ¬tt.Ends e := by
        rintro ⟨n, t, hn, ht⟩
        exact h ⟨n + 1, t, by rw [follow, he]; exact hn, ht⟩
      obtain ⟨mark, hname⟩ := nameWith_of_elem? he
      rw [hname, ih hnext, Option.map_none]

theorem Renders.ends {text : Bytes} (h : tt.Renders id text) : tt.Ends id := by
  obtain ⟨n, hn⟩ := h
  by_contra hends
  rw [nameWith_of_not_ends hends] at hn
  cases hn

/-- A type whose elements come to an end has a name: no more steps than there are entries lead
there. -/
theorem exists_name? (h : tt.Ends id) : ∃ text, tt.name? id = some text := by
  obtain ⟨n, t, hn, ht⟩ := h
  obtain ⟨text, htext⟩ := nameWith_of_end hn ht
  exact ⟨text, nameWith_mono htext (Nat.succ_le_succ (le_size_of_end hn ht))⟩

theorem name?_eq_none_iff : tt.name? id = none ↔ ¬tt.Ends id := by
  constructor
  · intro h hends
    obtain ⟨text, htext⟩ := exists_name? hends
    rw [h] at htext
    cases htext
  · exact fun h => nameWith_of_not_ends h _

/-- What a type is rendered as is its name. -/
theorem renders_iff_name? {text : Bytes} : tt.Renders id text ↔ tt.name? id = some text := by
  constructor
  · intro h
    obtain ⟨text', htext'⟩ := exists_name? h.ends
    obtain ⟨n, hn⟩ := h
    have hmax := nameWith_mono htext' (Nat.le_max_right n (tt.size + 1))
    rw [nameWith_mono hn (Nat.le_max_left _ _)] at hmax
    rw [htext', Option.some.inj hmax]
  · exact fun h => ⟨_, h⟩

/-! ## Known elements -/

/-- A request whose element, if it makes a pointer or an array, is a number that was given. -/
def HasElem (tt : TypeTable) : TypeRequest → Prop
  | .intern d _ => (d.kind = .pointer ∨ d.kind = .array) → d.elem.toNat < tt.size
  | _ => True

/-- Requests that are served in order and whose elements are numbers that were given before. -/
def HasElems (tt : TypeTable) : List TypeRequest → Prop
  | [] => True
  | r :: rest => tt.HasElem r ∧ (tt.ask r).1.HasElems rest

/-- Every element has a smaller number than what is made of it. -/
def Grounded (tt : TypeTable) : Prop := ∀ id e, tt.elem? id = some e → e < id

theorem Grounded.ends (h : tt.Grounded) (id : TypeId) : tt.Ends id := by
  induction hn : id.toNat using Nat.strong_induction_on generalizing id with
  | _ n ih =>
    cases he : tt.elem? id with
    | none => exact ⟨0, id, rfl, he⟩
    | some e =>
      have hlt : e.toNat < n := hn ▸ UInt32.lt_iff_toNat_lt.mp (h id e he)
      obtain ⟨m, t, hm, ht⟩ := ih _ hlt e rfl
      exact ⟨m + 1, t, by rw [follow, he]; exact hm, ht⟩

theorem elem?_congr {tt' : TypeTable} (h : tt'.types = tt.types) : tt'.elem? = tt.elem? := by
  funext id
  rw [elem?, elem?, lookup?, lookup?, h]

/-- A descriptor at the end is grounded if its element is a number that was given. -/
theorem Grounded.push (h : tt.Grounded) {d : Descriptor} (nominals : List Nominal)
    (hd : (d.kind = .pointer ∨ d.kind = .array) → d.elem.toNat < tt.size) :
    Grounded ⟨tt.types ++ [d], nominals⟩ := by
  intro id e he
  obtain ⟨t, ht, hif⟩ := Option.bind_eq_some_iff.mp he
  obtain ⟨hid, hget⟩ := lookup?_eq_some_iff.mp ht
  by_cases hold : id.toNat < tt.types.length
  · have hlookup : tt.lookup? id = some t :=
      lookup?_eq_some_iff.mpr ⟨hid, by rwa [List.getElem?_append_left hold] at hget⟩
    exact h id e (Option.bind_eq_some_iff.mpr ⟨t, hlookup, hif⟩)
  · have hlast : id.toNat = tt.types.length := by
      have hlt := (List.getElem?_eq_some_iff.mp hget).1
      rw [List.length_append, List.length_singleton] at hlt
      omega
    rw [hlast, List.getElem?_concat_length] at hget
    obtain rfl := Option.some.inj hget
    by_cases hchain : d.kind = .pointer ∨ d.kind = .array
    · rw [if_pos hchain] at hif
      obtain rfl := Option.some.inj hif
      exact UInt32.lt_iff_toNat_lt.mpr (hlast ▸ hd hchain)
    · rw [if_neg hchain] at hif
      cases hif

theorem Grounded.ask (h : tt.Grounded) {r : TypeRequest} (hr : tt.HasElem r) :
    (tt.ask r).1.Grounded := by
  cases r with
  | intern d slotless =>
    show (tt.intern d).1.Grounded
    unfold TypeTable.intern
    split
    · exact h
    · split
      · exact h
      · exact h.push tt.nominals hr
  | register kind nominal name =>
    refine h.push _ fun hchain => ?_
    rcases hchain with rfl | rfl <;> cases nominal
  | setStructFields type fields =>
    intro id e he
    rw [TypeTable.ask, elem?_congr (setStructFields_types tt type fields).1] at he
    exact h id e he

theorem Grounded.askAll (h : tt.Grounded) {requests : List TypeRequest}
    (hall : tt.HasElems requests) : (tt.askAll requests).1.Grounded := by
  induction requests generalizing tt with
  | nil => exact h
  | cons r rest ih => exact ih (h.ask hall.1) hall.2

theorem grounded_builtin : Grounded builtin := by
  intro id e he
  obtain ⟨d, hd, hif⟩ := Option.bind_eq_some_iff.mp he
  have hnone : ∀ d ∈ builtin.types, ¬(d.kind = .pointer ∨ d.kind = .array) := by decide +kernel
  rw [if_neg (hnone d (List.mem_of_getElem? (lookup?_eq_some_iff.mp hd).2))] at hif
  cases hif

/-! ## Total names -/

/-- Rendering a type comes to an end just when following its elements does, which is just when
they do not run in a circle; the name of the type is then what it is rendered as. It is so for all
types of a table that was made by requests whose elements were given before. -/
theorem renders_iff (tt : TypeTable) (id : TypeId) :
    ((∃ text, tt.Renders id text) ↔ tt.Ends id) ∧ (tt.Ends id ↔ ¬tt.Circles id)
      ∧ (∀ text, tt.Renders id text ↔ tt.name? id = some text)
      ∧ ∀ requests, builtin.HasElems requests → tt = (builtin.askAll requests).1 →
        ∃ text, tt.Renders id text := by
  have hends : tt.Ends id → ∃ text, tt.Renders id text := fun h =>
    (exists_name? h).imp fun _ htext => renders_iff_name?.mpr htext
  refine ⟨⟨fun ⟨_, h⟩ => h.ends, hends⟩, ends_iff_not_circles, fun _ => renders_iff_name?,
    fun requests helems htt => ?_⟩
  subst htt
  exact hends ((grounded_builtin.askAll helems).ends id)

theorem renders_iff_list :
    builtin.HasElems listRequests
      ∧ (builtin.askAll listRequests).1.Renders 18 "List*" := by
  have helems : builtin.HasElems listRequests :=
    ⟨trivial, fun _ => by decide +kernel, trivial, fun _ => by decide +kernel, trivial, trivial⟩
  have hname : (builtin.askAll listRequests).1.name? 18 = some "List*" := by decide +kernel
  obtain ⟨-, -, hrenders, hall⟩ := renders_iff (builtin.askAll listRequests).1 18
  obtain ⟨text, htext⟩ := hall _ helems rfl
  rw [(hrenders text).mp htext] at hname
  exact ⟨helems, Option.some.inj hname ▸ htext⟩

/-- A pointer whose element is its own number is interned and restored, and is never rendered. -/
theorem pointer_to_itself :
    let tt := (builtin.intern { kind := .pointer, elem := 17 }).1
    (builtin.intern { kind := .pointer, elem := 17 }).2 = 17
      ∧ restore tt.types tt.nominals = .ok tt
      ∧ (∀ n, tt.follow n 17 = some 17) ∧ tt.elem? 17 = some 17
      ∧ ∀ text, ¬tt.Renders 17 text := by
  intro tt
  have helem : tt.elem? 17 = some 17 := by decide +kernel
  have hfollow : ∀ n, tt.follow n 17 = some 17 := by
    intro n
    induction n with
    | zero => rfl
    | succ n ih => rw [follow_succ, ih, Option.bind_some, helem]
  have hcircles : tt.Circles 17 := ⟨0, 0, 17, hfollow 0, hfollow 1⟩
  have hsound : Sound tt := sound_builtin.intern rfl rfl
  exact ⟨by decide +kernel, hsound.restore_eq, hfollow, helem,
    fun text h => ends_iff_not_circles.mp h.ends hcircles⟩

end WastForge.TypeTable
