import Mathlib.Data.List.Nodup
import Mathlib.Logic.Function.Basic
import WastForge.Types.Table

/-!
# Which tables are restored

A descriptor is found under the last number that it was entered for. This is what an index finds
into which the descriptors of a table are entered one after the other, each over what was entered
for it before. In a table without repetitions the last number is also the first one.

Entries are restored just when they begin with no type, refer to slots that are there, and have
three of the builtin types at their numbers. The other builtin types are not looked at, and neither
is whether a descriptor stands at two numbers: a restored table has all builtin types, and gives
each type its number back, just when its entries were so.

A table that grows from the builtin one by plain descriptors and nominal types, with fields given
to structs, is restored from its entries, and so is a table that was restored once.
-/

namespace WastForge.TypeTable

variable {tt : TypeTable} {d t : Descriptor} {ts : List Descriptor} {i : Nat} {id : TypeId}

/-! ## Last positions -/

theorem lastIndex?_eq_none_iff : lastIndex? d ts = none ↔ d ∉ ts := by
  induction ts with
  | nil => simp [lastIndex?]
  | cons t rest ih =>
    rw [lastIndex?]
    cases h : lastIndex? d rest with
    | some i =>
      have hmem : d ∈ rest := by
        by_contra hn
        rw [ih.mpr hn] at h
        cases h
      simp [hmem]
    | none =>
      have hnew : d ∉ rest := ih.mp h
      by_cases ht : t = d
      · simp [ht]
      · simp [ht, hnew, Ne.symm ht]

theorem getElem?_of_lastIndex? (h : lastIndex? d ts = some i) : ts[i]? = some d := by
  induction ts generalizing i with
  | nil => cases h
  | cons t rest ih =>
    rw [lastIndex?] at h
    cases hrest : lastIndex? d rest with
    | some j =>
      rw [hrest] at h
      obtain rfl := Option.some.inj h
      exact ih hrest
    | none =>
      rw [hrest] at h
      by_cases ht : t = d
      · simp only [ht, if_pos] at h
        obtain rfl := Option.some.inj h
        simp [ht]
      · simp [ht] at h

/-- Without repetitions a descriptor is found where it stands. -/
theorem lastIndex?_of_nodup (h : ts.Nodup) (hi : ts[i]? = some d) : lastIndex? d ts = some i := by
  cases hlast : lastIndex? d ts with
  | none => exact absurd (List.mem_of_getElem? hi) (lastIndex?_eq_none_iff.mp hlast)
  | some j =>
    have hj := getElem?_of_lastIndex? hlast
    have hlt : j < ts.length := (List.getElem?_eq_some_iff.mp hj).1
    exact congrArg some ((List.getElem?_inj hlt h).mp (hj.trans hi.symm))

/-- Without repetitions the last position of a descriptor is its first one. -/
theorem lastIndex?_eq_idxOf? (h : ts.Nodup) (d : Descriptor) :
    lastIndex? d ts = ts.idxOf? d := by
  cases hfirst : ts.idxOf? d with
  | none => exact lastIndex?_eq_none_iff.mpr (List.idxOf?_eq_none_iff.mp hfirst)
  | some i =>
    obtain ⟨hi, hd, -⟩ := List.idxOf?_eq_some_iff.mp hfirst
    exact lastIndex?_of_nodup h (List.getElem?_eq_some_iff.mpr ⟨hi, hd⟩)

/-! ## The index -/

/-- What an index finds after the descriptors were entered one by one, the first of them under the
number `next`, each over what was entered for it before. -/
def enterAll (index : Descriptor → Option TypeId) (next : Nat) :
    List Descriptor → Descriptor → Option TypeId
  | [] => index
  | t :: rest => enterAll (Function.update index t (some (UInt32.ofNat next))) (next + 1) rest

/-- The index of a table. -/
def index (tt : TypeTable) : Descriptor → Option TypeId := enterAll (fun _ => none) 0 tt.types

theorem enterAll_eq (index : Descriptor → Option TypeId) (next : Nat) (ts : List Descriptor)
    (d : Descriptor) : enterAll index next ts d
      = ((lastIndex? d ts).map fun i => UInt32.ofNat (next + i)).or (index d) := by
  induction ts generalizing index next with
  | nil => rfl
  | cons t rest ih =>
    rw [enterAll, ih, lastIndex?]
    cases lastIndex? d rest with
    | some i => simp [Nat.add_assoc, Nat.add_comm 1]
    | none =>
      by_cases ht : t = d
      · simp [ht]
      · simp [ht, Function.update_of_ne (Ne.symm ht)]

/-- The index finds the last number of a descriptor. -/
theorem index_eq (tt : TypeTable) (d : Descriptor) :
    tt.index d = (lastIndex? d tt.types).map UInt32.ofNat := by
  rw [index, enterAll_eq, Option.or_none]
  simp only [Nat.zero_add]

/-! ## Tables without repetitions -/

/-- No descriptor stands under two numbers, and none but the first one is the one of no type. -/
structure Separate (tt : TypeTable) : Prop where
  nodup : tt.types.Nodup
  valid : ∀ d ∈ tt.types.tail, d.kind ≠ .invalid

theorem lookup?_eq_some_iff :
    tt.lookup? id = some d ↔ id ≠ 0 ∧ tt.types[id.toNat]? = some d := by
  unfold lookup?
  by_cases hid : id = 0 <;> simp [hid]

/-- The types stand behind the entry of no type. -/
theorem lookup?_of_toNat (hid : id.toNat = i + 1) : tt.lookup? id = tt.types.tail[i]? := by
  have hne : id ≠ 0 := by
    rintro rfl
    cases hid
  rw [lookup?, if_neg hne, hid, List.getElem?_tail]

theorem mem_tail_of_lookup? (h : tt.lookup? id = some d) : d ∈ tt.types.tail := by
  cases hid : id.toNat with
  | zero =>
    obtain rfl : id = 0 := UInt32.toNat_inj.mp hid
    cases h
  | succ i => exact List.mem_of_getElem? ((lookup?_of_toNat hid).symm.trans h)

/-- Interning the descriptor of a type gives the number of the type. -/
theorem Separate.intern_lookup? (h : Separate tt) (hd : tt.lookup? id = some d) :
    tt.intern d = (tt, id) := by
  obtain ⟨-, hget⟩ := lookup?_eq_some_iff.mp hd
  rw [intern, if_neg (h.valid d (mem_tail_of_lookup? hd)), lastIndex?_of_nodup h.nodup hget]
  simp

theorem exists_lookup? (hroom : tt.size ≤ UInt32.size) (hd : tt.types[i + 1]? = some d) :
    ∃ id : TypeId, id.toNat = i + 1 ∧ tt.lookup? id = some d := by
  have hlt : i + 1 < UInt32.size :=
    Nat.lt_of_lt_of_le (List.getElem?_eq_some_iff.mp hd).1 hroom
  have hid : (UInt32.ofNat (i + 1)).toNat = i + 1 := UInt32.toNat_ofNat_of_lt' hlt
  exact ⟨_, hid, by rw [lookup?_of_toNat hid, List.getElem?_tail, hd]⟩

/-- The descriptors of a table are separate if each type gets its own number back. -/
theorem separate_of_intern (hroom : tt.size ≤ UInt32.size)
    (hfirst : ∀ d, tt.types[0]? = some d → d.kind = .invalid)
    (hback : ∀ id d, tt.lookup? id = some d → (tt.intern d).2 = id) : Separate tt := by
  have hvalid : ∀ {i : Nat} {d : Descriptor}, tt.types[i + 1]? = some d → d.kind ≠ .invalid := by
    intro i d hd hkind
    obtain ⟨id, hid, hlookup⟩ := exists_lookup? hroom hd
    have hzero := hback id d hlookup
    rw [intern, if_pos hkind] at hzero
    rw [← hzero] at hid
    cases hid
  constructor
  · rw [List.nodup_iff_getElem?_ne_getElem?]
    intro i j hij hj heq
    obtain ⟨j, rfl⟩ := Nat.exists_eq_succ_of_ne_zero (Nat.ne_zero_of_lt hij)
    have hd := List.getElem?_eq_getElem hj
    -- A descriptor at two numbers would get only one of them back.
    cases i with
    | zero => exact hvalid hd (hfirst _ (heq.trans hd))
    | succ i =>
      obtain ⟨a, ha, hlookup⟩ := exists_lookup? hroom (heq.trans hd)
      obtain ⟨b, hb, hlookup'⟩ := exists_lookup? hroom hd
      have hab : a = b := (hback a _ hlookup).symm.trans (hback b _ hlookup')
      subst hab
      omega
  · intro d hd
    obtain ⟨i, hi⟩ := List.mem_iff_getElem?.mp hd
    rw [List.getElem?_tail] at hi
    exact hvalid hi

/-! ## Restored entries -/

variable {types : List Descriptor} {nominals : List Nominal}

/-- What restoring asks of entries. -/
structure Restorable (types : List Descriptor) (nominals : List Nominal) : Prop where
  sentinel : types.head?.map (·.kind) = some .invalid
  slot : ∀ d ∈ types, d.payload.toNat < max 1 nominals.length
  checked : ∀ i ∈ checkedIds, types[i]? = builtin.types[i]?

theorem restorable_iff :
    Restorable types nominals ↔ types.head?.map (·.kind) = some .invalid
      ∧ (∀ d ∈ types, d.payload.toNat < max 1 nominals.length)
      ∧ ∀ i ∈ checkedIds, types[i]? = builtin.types[i]? :=
  ⟨fun h => ⟨h.sentinel, h.slot, h.checked⟩, fun ⟨hsentinel, hslot, hchecked⟩ =>
    ⟨hsentinel, hslot, hchecked⟩⟩

instance : Decidable (Restorable types nominals) := decidable_of_iff' _ restorable_iff

/-- The slots of a restored table: the given ones, or the unused one alone. -/
def slotsOf (nominals : List Nominal) : List Nominal :=
  if nominals.isEmpty then [{}] else nominals

theorem length_slotsOf (nominals : List Nominal) :
    (slotsOf nominals).length = max 1 nominals.length := by
  cases nominals with
  | nil => rfl
  | cons n rest => simp [slotsOf]

/-- No entry refers to a missing slot. -/
theorem findIdx?_slot_eq_none_iff :
    types.findIdx? (fun d => d.payload ≠ 0 && (slotsOf nominals).length ≤ d.payload.toNat) = none
      ↔ ∀ d ∈ types, d.payload.toNat < max 1 nominals.length := by
  rw [List.findIdx?_eq_none_iff]
  refine forall₂_congr fun d _ => ?_
  rw [length_slotsOf]
  by_cases hpayload : d.payload = 0
  · have hpos : 0 < max 1 nominals.length := Nat.lt_of_lt_of_le Nat.one_pos (Nat.le_max_left _ _)
    simp only [hpayload, ne_eq, not_true_eq_false, decide_false, Bool.false_and,
      UInt32.toNat_zero, hpos]
  · simp only [hpayload, ne_eq, not_false_eq_true, decide_true, Bool.true_and,
      decide_eq_false_iff_not, Nat.not_le]

theorem checkedIds_all_iff :
    checkedIds.all (fun i => types[i]? == builtin.types[i]?) = true
      ↔ ∀ i ∈ checkedIds, types[i]? = builtin.types[i]? := by
  simp only [List.all_eq_true, beq_iff_eq]

/-- Behind the entry of no type the slots and then the builtin types are looked at. -/
theorem restore_of_sentinel {first : Descriptor} (rest : List Descriptor)
    (nominals : List Nominal) (hfirst : first.kind = .invalid) :
    restore (first :: rest) nominals
      = match (first :: rest).findIdx? fun d =>
          d.payload ≠ 0 && (slotsOf nominals).length ≤ d.payload.toNat with
        | some i => .error (.missingSlot i (((first :: rest)[i]?).getD {}).payload)
        | none =>
          if checkedIds.all fun i => (first :: rest)[i]? == builtin.types[i]? then
            .ok ⟨first :: rest, slotsOf nominals⟩
          else .error .notBuiltin :=
  if_neg (not_not.mpr hfirst)

/-- Entries are restored just when they are restorable, and as they are. -/
theorem restore_eq_ok_iff :
    restore types nominals = .ok tt
      ↔ Restorable types nominals ∧ tt = ⟨types, slotsOf nominals⟩ := by
  cases types with
  | nil =>
    constructor
    · intro h
      cases h
    · rintro ⟨h, -⟩
      cases h.sentinel
  | cons first rest =>
    by_cases hfirst : first.kind = .invalid
    · rw [restore_of_sentinel rest nominals hfirst]
      cases hslot : (first :: rest).findIdx? fun d =>
          d.payload ≠ 0 && (slotsOf nominals).length ≤ d.payload.toNat with
      | some i =>
        refine ⟨nofun, fun ⟨h, _⟩ => ?_⟩
        rw [findIdx?_slot_eq_none_iff.mpr h.slot] at hslot
        cases hslot
      | none =>
        by_cases hchecked : checkedIds.all fun i => (first :: rest)[i]? == builtin.types[i]?
        · have hrestorable : Restorable (first :: rest) nominals :=
            ⟨congrArg some hfirst, findIdx?_slot_eq_none_iff.mp hslot,
              checkedIds_all_iff.mp hchecked⟩
          simp only [if_pos hchecked, Except.ok.injEq]
          exact ⟨fun h => ⟨hrestorable, h.symm⟩, fun h => h.2.symm⟩
        · simp only [if_neg hchecked]
          exact ⟨nofun, fun ⟨h, _⟩ => absurd (checkedIds_all_iff.mpr h.checked) hchecked⟩
    · have hrestore : restore (first :: rest) nominals = .error .noSentinel := if_pos hfirst
      rw [hrestore]
      exact ⟨nofun, fun ⟨h, _⟩ => absurd (Option.some.inj h.sentinel) hfirst⟩

theorem exists_restore_iff :
    (∃ tt, restore types nominals = .ok tt) ↔ Restorable types nominals :=
  ⟨fun ⟨_, h⟩ => (restore_eq_ok_iff.mp h).1, fun h => ⟨_, restore_eq_ok_iff.mpr ⟨h, rfl⟩⟩⟩

/-- What is not restored is refused with an error. -/
theorem exists_restore_error_iff :
    (∃ e, restore types nominals = .error e) ↔ ¬Restorable types nominals := by
  rw [← exists_restore_iff]
  cases restore types nominals with
  | ok tt => simp
  | error e => simp

/-! ## Builtin types -/

/-- The builtin numbers denote the builtin types just when these are the first entries, whatever
stands for no type. -/
theorem lookup?_builtin_iff :
    (∀ id ≤ object, tt.lookup? id = builtin.lookup? id)
      ↔ builtin.types.tail <+: tt.types.tail := by
  have hlast : object.toNat = builtin.types.tail.length := by decide +kernel
  rw [List.prefix_iff_getElem?]
  constructor
  · intro h i hi
    have hlt : i + 1 < UInt32.size :=
      Nat.lt_of_le_of_lt (hlast ▸ Nat.succ_le_of_lt hi) (UInt32.toNat_lt_size object)
    have hid : (UInt32.ofNat (i + 1)).toNat = i + 1 := UInt32.toNat_ofNat_of_lt' hlt
    have hlookup := h (UInt32.ofNat (i + 1))
      (UInt32.le_iff_toNat_le.mpr (by rw [hid, hlast]; exact hi))
    rw [lookup?_of_toNat hid, lookup?_of_toNat hid] at hlookup
    rw [hlookup, List.getElem?_eq_getElem hi]
  · intro h id hle
    cases hid : id.toNat with
    | zero =>
      obtain rfl : id = 0 := UInt32.toNat_inj.mp hid
      rfl
    | succ i =>
      have hi : i < builtin.types.tail.length := by
        have hnat := UInt32.le_iff_toNat_le.mp hle
        omega
      rw [lookup?_of_toNat hid, lookup?_of_toNat hid, h i hi, List.getElem?_eq_getElem hi]

/-! ## Restored tables -/

/-- Which entries are restored, and what becomes of them. Entries that are not restorable are
refused. In a restored table the builtin numbers denote the builtin types just when the entries
begin with all of them. As long as numbers of 32 bits last, each type gets its own number back just
when no descriptor stands at two numbers and no entry but the first one is the one of no type. -/
theorem restore_sound_iff (types : List Descriptor) (nominals : List Nominal) :
    ((∃ tt, restore types nominals = .ok tt) ↔ Restorable types nominals)
      ∧ ((∃ e, restore types nominals = .error e) ↔ ¬Restorable types nominals)
      ∧ ∀ tt, restore types nominals = .ok tt →
        ((∀ id ≤ object, tt.lookup? id = builtin.lookup? id)
            ↔ builtin.types.tail <+: types.tail)
          ∧ (types.length ≤ UInt32.size →
            ((∀ id d, tt.lookup? id = some d → (tt.intern d).2 = id)
              ↔ types.Nodup ∧ ∀ d ∈ types.tail, d.kind ≠ .invalid)) := by
  refine ⟨exists_restore_iff, exists_restore_error_iff, fun tt htt => ?_⟩
  obtain ⟨hrestorable, rfl⟩ := restore_eq_ok_iff.mp htt
  refine ⟨lookup?_builtin_iff, fun hroom => ⟨fun hback => ?_, fun ⟨hnodup, hvalid⟩ => ?_⟩⟩
  · have hfirst : ∀ d, types[0]? = some d → d.kind = .invalid := by
      intro d hd
      have hsentinel := hrestorable.sentinel
      rw [List.head?_eq_getElem?, hd] at hsentinel
      exact Option.some.inj hsentinel
    have hseparate : Separate ⟨types, slotsOf nominals⟩ := separate_of_intern hroom hfirst hback
    exact ⟨hseparate.nodup, hseparate.valid⟩
  · intro id d hd
    have hseparate : Separate ⟨types, slotsOf nominals⟩ := ⟨hnodup, hvalid⟩
    rw [hseparate.intern_lookup? hd]

/-- A pointer to a number. -/
def numberPointer : Descriptor := { kind := .pointer, elem := int32 }

theorem restore_sound_iff_pointer :
    (builtin.types ++ [numberPointer]).length ≤ UInt32.size
      ∧ ∃ tt, restore (builtin.types ++ [numberPointer]) builtin.nominals = .ok tt
        ∧ (∀ id ≤ object, tt.lookup? id = builtin.lookup? id)
        ∧ ∀ id d, tt.lookup? id = some d → (tt.intern d).2 = id := by
  have hroom : (builtin.types ++ [numberPointer]).length ≤ UInt32.size := by decide +kernel
  obtain ⟨hok, -, hall⟩ :=
    restore_sound_iff (builtin.types ++ [numberPointer]) builtin.nominals
  obtain ⟨tt, htt⟩ := hok.mpr (by decide +kernel)
  obtain ⟨hbuiltin, hback⟩ := hall tt htt
  exact ⟨hroom, tt, htt, hbuiltin.mpr (by decide +kernel),
    (hback hroom).mpr ⟨by decide +kernel, by decide +kernel⟩⟩

/-- Entries with a pointer at the number of `void`, and entries with a second `bool` at the end,
are restored. -/
theorem restore_replaced :
    (∃ tt, restore (builtin.types.set 1 numberPointer) builtin.nominals = .ok tt
        ∧ tt.lookup? void ≠ builtin.lookup? void)
      ∧ ∃ tt, restore (builtin.types ++ [{ kind := .bool }]) builtin.nominals = .ok tt
        ∧ tt.lookup? bool = some { kind := .bool } ∧ (tt.intern { kind := .bool }).2 ≠ bool := by
  constructor
  · refine ⟨_, restore_eq_ok_iff.mpr ⟨by decide +kernel, rfl⟩, ?_⟩
    decide +kernel
  · refine ⟨_, restore_eq_ok_iff.mpr ⟨by decide +kernel, rfl⟩, ?_⟩
    decide +kernel

end WastForge.TypeTable

/-! ## Tables that programs build -/

namespace WastForge

/-- A descriptor of a pointer, an array or a number. -/
inductive Descriptor.Plain : Descriptor → Prop where
  | pointer (elem : TypeId) : Plain { kind := .pointer, elem := elem }
  | array (elem : TypeId) : Plain { kind := .array, elem := elem }
  | int (width : UInt8) : Plain { kind := .int, width := width }
  | uint (width : UInt8) : Plain { kind := .uint, width := width }
  | float (width : UInt8) : Plain { kind := .float, width := width }

namespace TypeTable

/-- The tables that a program builds. -/
inductive Built : TypeTable → Prop where
  | builtin : Built .builtin
  | intern {tt : TypeTable} (h : Built tt) {d : Descriptor} (hd : d.Plain) : Built (tt.intern d).1
  | register {tt : TypeTable} (h : Built tt) {kind : Kind} (hk : isNominal kind = true)
      (name : Bytes) : Built (tt.register kind name).1
  | setStructFields {tt : TypeTable} (h : Built tt) (id : TypeId) (fields : List StructField) :
      Built (tt.setStructFields id fields)

/-- What a table must be like to be restored: it starts with the builtin types, every slot that
is referred to is there, and its kinds are the ones that their numbers mean. -/
structure Sound (tt : TypeTable) : Prop where
  start : builtin.types <+: tt.types
  slot : ∀ d ∈ tt.types, d.payload.toNat < tt.nominals.length
  kind : ∀ d ∈ tt.types, Kind.ofCode d.kind.code = d.kind

theorem sound_builtin : Sound .builtin where
  start := List.prefix_rfl
  slot := by decide +kernel
  kind := by decide +kernel

variable {tt : TypeTable}

theorem Sound.push (h : Sound tt) {d : Descriptor} {more : List Nominal}
    (hslot : d.payload.toNat < (tt.nominals ++ more).length)
    (hkind : Kind.ofCode d.kind.code = d.kind) :
    Sound ⟨tt.types ++ [d], tt.nominals ++ more⟩ where
  start := h.start.trans (List.prefix_append _ _)
  slot := by
    intro t ht
    rcases List.mem_append.mp ht with ht | ht
    · exact Nat.lt_of_lt_of_le (h.slot t ht) (by simp)
    · rwa [List.mem_singleton.mp ht]
  kind := by
    intro t ht
    rcases List.mem_append.mp ht with ht | ht
    · exact h.kind t ht
    · rwa [List.mem_singleton.mp ht]

theorem Sound.nominals_pos (h : Sound tt) : 0 < tt.nominals.length := by
  have hmem : ({} : Descriptor) ∈ tt.types := h.start.subset (by decide +kernel)
  exact Nat.lt_of_le_of_lt (Nat.zero_le _) (h.slot _ hmem)

theorem Sound.intern (h : Sound tt) {d : Descriptor} (hslot : d.payload = 0)
    (hkind : Kind.ofCode d.kind.code = d.kind) : Sound (tt.intern d).1 := by
  unfold TypeTable.intern
  split
  · exact h
  split
  · exact h
  · have hpush : Sound ⟨tt.types ++ [d], tt.nominals ++ []⟩ :=
      h.push (by simpa [hslot] using h.nominals_pos) hkind
    rwa [List.append_nil] at hpush

theorem Sound.register (h : Sound tt) {kind : Kind} (hk : isNominal kind = true) (name : Bytes) :
    Sound (tt.register kind name).1 := by
  refine h.push ?_ ?_
  · have hle : (UInt32.ofNat tt.nominals.length).toNat ≤ tt.nominals.length := by
      rw [UInt32.toNat_ofNat']
      exact Nat.mod_le _ _
    rw [List.length_append, List.length_singleton]
    exact Nat.lt_succ_of_le hle
  · cases kind <;> first | rfl | cases hk

theorem Sound.setStructFields (h : Sound tt) (id : TypeId) (fields : List StructField) :
    Sound (tt.setStructFields id fields) := by
  unfold TypeTable.setStructFields
  split
  · exact h
  · exact ⟨h.start, by simpa using h.slot, h.kind⟩

theorem Built.sound (h : Built tt) : Sound tt := by
  induction h with
  | builtin => exact sound_builtin
  | intern _ hd ih => cases hd <;> exact ih.intern rfl rfl
  | register _ hk name ih => exact ih.register hk name
  | setStructFields _ id fields ih => exact ih.setStructFields id fields

/-- A sound table is restored from its entries. -/
theorem Sound.restore_eq (h : Sound tt) : restore tt.types tt.nominals = .ok tt := by
  have hpos := h.nominals_pos
  have hlt : ∀ i ∈ checkedIds, i < builtin.types.length := by decide +kernel
  obtain ⟨more, hmore⟩ := h.start
  have hrestorable : Restorable tt.types tt.nominals := by
    refine ⟨?_, fun d hd => ?_, fun i hi => ?_⟩
    · rw [← hmore]
      rfl
    · rw [Nat.max_eq_right hpos]
      exact h.slot d hd
    · rw [← hmore, List.getElem?_append_left (hlt i hi)]
  have hslots : slotsOf tt.nominals = tt.nominals :=
    if_neg (by simpa using List.ne_nil_of_length_pos hpos)
  exact restore_eq_ok_iff.mpr ⟨hrestorable, by rw [hslots]⟩

/-- A restored table has the entries that it was restored from, and a slot at least. -/
theorem restore_entries {types : List Descriptor} {nominals : List Nominal}
    (h : restore types nominals = .ok tt) :
    tt.types = types ∧ tt.nominals = if nominals.isEmpty then [{}] else nominals := by
  obtain ⟨-, rfl⟩ := restore_eq_ok_iff.mp h
  exact ⟨rfl, rfl⟩

/-- A table that was restored once is restored again. -/
theorem restore_of_restore {types : List Descriptor} {nominals : List Nominal}
    (h : restore types nominals = .ok tt) : restore tt.types tt.nominals = .ok tt := by
  obtain ⟨hrestorable, rfl⟩ := restore_eq_ok_iff.mp h
  have hslots : slotsOf (slotsOf nominals) = slotsOf nominals := by
    cases nominals <;> rfl
  have hcount : max 1 (slotsOf nominals).length = max 1 nominals.length := by
    rw [length_slotsOf, ← Nat.max_assoc, Nat.max_self]
  refine restore_eq_ok_iff.mpr ⟨⟨hrestorable.sentinel, ?_, hrestorable.checked⟩, by rw [hslots]⟩
  show ∀ d ∈ types, d.payload.toNat < max 1 (slotsOf nominals).length
  rw [hcount]
  exact hrestorable.slot

end TypeTable

end WastForge
