import WastForge.Proofs.Types.Restore

/-!
# Restored tables answer alike

A table that grew from the builtin one by requests has each descriptor once, so the index that is
made anew from its entries gives each one the number that it was given first. The table restored
from the entries is the table, and answers all that is asked of it later in the same way.
-/

namespace WastForge

/-- A descriptor of a pointer, an array or a number; it refers to no slot. -/
structure Descriptor.Slotless (d : Descriptor) : Prop where
  kind : d.kind ∈ [Kind.pointer, .array, .int, .uint, .float]
  payload : d.payload = 0

/-- A kind that is not nominal, is some type and is meant by its number. -/
theorem Descriptor.Slotless.cases {d : Descriptor} (h : d.Slotless) :
    d.kind ≠ .invalid ∧ Kind.ofCode d.kind.code = d.kind := by
  obtain ⟨kind, elem, width, payload⟩ := d
  have hkind := h.kind
  simp only [List.mem_cons, List.not_mem_nil, or_false] at hkind
  rcases hkind with rfl | rfl | rfl | rfl | rfl <;> exact ⟨nofun, rfl⟩

/-- What can be asked of a table that grows. -/
inductive TypeRequest where
  | intern (d : Descriptor) (slotless : d.Slotless)
  | register (kind : Kind) (nominal : TypeTable.isNominal kind = true) (name : Bytes)
  | setStructFields (type : TypeId) (fields : List StructField)

namespace TypeTable

/-- Serve a request; the number of a type is the answer, if the request is for one. -/
def ask (tt : TypeTable) : TypeRequest → TypeTable × Option TypeId
  | .intern d _ => ((tt.intern d).1, some (tt.intern d).2)
  | .register kind _ name => ((tt.register kind name).1, some (tt.register kind name).2)
  | .setStructFields type fields => (tt.setStructFields type fields, none)

/-- Serve requests in order. -/
def askAll (tt : TypeTable) : List TypeRequest → TypeTable × List (Option TypeId)
  | [] => (tt, [])
  | r :: rest =>
    (((tt.ask r).1.askAll rest).1, (tt.ask r).2 :: ((tt.ask r).1.askAll rest).2)

/-- What the requests of a program make of the builtin table: it can be restored, its descriptors
are separate, and it has more of them than slots. -/
structure Interned (tt : TypeTable) : Prop extends Sound tt, Separate tt where
  fewer : tt.nominals.length < tt.types.length

theorem interned_builtin : Interned builtin where
  toSound := sound_builtin
  nodup := by decide +kernel
  valid := by decide +kernel
  fewer := by decide +kernel

variable {tt : TypeTable} {d : Descriptor}

theorem Sound.types_ne_nil (h : Sound tt) : tt.types ≠ [] := by
  intro hnil
  have hstart := h.start
  rw [hnil, List.prefix_nil] at hstart
  exact absurd hstart (by decide +kernel)

/-- A new descriptor at the end leaves the descriptors separate. -/
theorem Separate.push (h : Separate tt) (hne : tt.types ≠ []) (hnew : d ∉ tt.types)
    (hvalid : d.kind ≠ .invalid) (nominals : List Nominal) :
    Separate ⟨tt.types ++ [d], nominals⟩ where
  nodup := List.nodup_append.mpr ⟨h.nodup, List.nodup_singleton d, by
    intro a ha b hb heq
    rw [List.mem_singleton] at hb
    subst heq hb
    exact hnew ha⟩
  valid := by
    intro t ht
    simp only [List.tail_append_of_ne_nil hne] at ht
    rcases List.mem_append.mp ht with ht | ht
    · exact h.valid t ht
    · rwa [List.mem_singleton.mp ht]

/-! ## One request -/

theorem Interned.intern (h : Interned tt) (hd : d.Slotless) : Interned (tt.intern d).1 := by
  obtain ⟨hvalid, hkind⟩ := hd.cases
  have hsound := h.toSound.intern hd.payload hkind
  rw [TypeTable.intern, if_neg hvalid] at hsound ⊢
  cases hlast : lastIndex? d tt.types with
  | some i => exact h
  | none =>
    rw [hlast] at hsound
    have hnew : d ∉ tt.types := lastIndex?_eq_none_iff.mp hlast
    refine ⟨hsound, h.toSeparate.push h.types_ne_nil hnew hvalid _, ?_⟩
    show tt.nominals.length < (tt.types ++ [d]).length
    have hfewer := h.fewer
    rw [List.length_append]
    omega

/-- A nominal type has a slot that no descriptor before it refers to. -/
theorem Interned.register (h : Interned tt) {kind : Kind} (hk : isNominal kind = true)
    (name : Bytes) (hroom : tt.size < UInt32.size) : Interned (tt.register kind name).1 := by
  have hfewer := h.fewer
  have hslot : (UInt32.ofNat tt.nominals.length).toNat = tt.nominals.length :=
    UInt32.toNat_ofNat_of_lt' (Nat.lt_trans hfewer hroom)
  -- The new slot is behind all slots that are referred to, as its number fits into 32 bits.
  have hnew : ({ kind := kind, payload := UInt32.ofNat tt.nominals.length } : Descriptor)
      ∉ tt.types := by
    intro hmem
    have hlt := h.slot _ hmem
    rw [hslot] at hlt
    exact absurd hlt (Nat.lt_irrefl _)
  have hvalid : kind ≠ .invalid := by
    rintro rfl
    cases hk
  refine ⟨h.toSound.register hk name, h.toSeparate.push h.types_ne_nil hnew hvalid _, ?_⟩
  show (tt.nominals ++ [_]).length < (tt.types ++ [_]).length
  simpa using hfewer

theorem setStructFields_types (tt : TypeTable) (type : TypeId) (fields : List StructField) :
    (tt.setStructFields type fields).types = tt.types
      ∧ (tt.setStructFields type fields).nominals.length = tt.nominals.length := by
  unfold setStructFields
  cases tt.structSlot? type with
  | none => exact ⟨rfl, rfl⟩
  | some slot => exact ⟨rfl, List.length_modify _ _ _⟩

theorem Interned.setStructFields (h : Interned tt) (type : TypeId) (fields : List StructField) :
    Interned (tt.setStructFields type fields) := by
  obtain ⟨htypes, hcount⟩ := setStructFields_types tt type fields
  refine ⟨h.toSound.setStructFields type fields, ⟨?_, ?_⟩, ?_⟩
  · rw [htypes]
    exact h.nodup
  · rw [htypes]
    exact h.valid
  · rw [htypes, hcount]
    exact h.fewer

theorem size_le_ask (tt : TypeTable) (r : TypeRequest) : tt.size ≤ (tt.ask r).1.size := by
  cases r with
  | intern d _ =>
    show tt.size ≤ (tt.intern d).1.size
    unfold TypeTable.intern
    split
    · exact Nat.le_refl _
    · split
      · exact Nat.le_refl _
      · simp [push, size]
  | register kind _ name => simp [ask, TypeTable.register, push, size]
  | setStructFields type fields =>
    exact Nat.le_of_eq (congrArg List.length (setStructFields_types tt type fields).1).symm

theorem Interned.ask (h : Interned tt) (r : TypeRequest)
    (hroom : (tt.ask r).1.size ≤ UInt32.size) : Interned (tt.ask r).1 := by
  cases r with
  | intern d slotless => exact h.intern slotless
  | register kind nominal name =>
    refine h.register nominal name (Nat.lt_of_lt_of_le ?_ hroom)
    simp [TypeTable.ask, TypeTable.register, push, size]
  | setStructFields type fields => exact h.setStructFields type fields

/-! ## All requests -/

theorem size_le_askAll (tt : TypeTable) (requests : List TypeRequest) :
    tt.size ≤ (tt.askAll requests).1.size := by
  induction requests generalizing tt with
  | nil => exact Nat.le_refl _
  | cons r rest ih => exact Nat.le_trans (size_le_ask tt r) (ih _)

theorem Interned.askAll (h : Interned tt) (requests : List TypeRequest)
    (hroom : (tt.askAll requests).1.size ≤ UInt32.size) : Interned (tt.askAll requests).1 := by
  induction requests generalizing tt with
  | nil => exact h
  | cons r rest ih =>
    have hstep : (tt.ask r).1.size ≤ UInt32.size := Nat.le_trans (size_le_askAll _ rest) hroom
    exact ih (h.ask r hstep) hroom

theorem Sound.ask (h : Sound tt) (r : TypeRequest) : Sound (tt.ask r).1 := by
  cases r with
  | intern d slotless => exact h.intern slotless.payload slotless.cases.2
  | register kind nominal name => exact h.register nominal name
  | setStructFields type fields => exact h.setStructFields type fields

theorem Sound.askAll (h : Sound tt) (requests : List TypeRequest) :
    Sound (tt.askAll requests).1 := by
  induction requests generalizing tt with
  | nil => exact h
  | cons r rest ih => exact ih (h.ask r)

/-! ## Restored tables -/

/-- Two tables that no look-up and no further requests tell apart. -/
structure Alike (a b : TypeTable) : Prop where
  lookup? : ∀ id, a.lookup? id = b.lookup? id
  structInfo? : ∀ id, a.structInfo? id = b.structInfo? id
  nominalName : ∀ id, a.nominalName id = b.nominalName id
  nominalId : ∀ name, a.nominalId name = b.nominalId name
  askAll : ∀ requests, (a.askAll requests).2 = (b.askAll requests).2

theorem Alike.refl (tt : TypeTable) : Alike tt tt :=
  ⟨fun _ => rfl, fun _ => rfl, fun _ => rfl, fun _ => rfl, fun _ => rfl⟩

/-- The builtin types keep their numbers. -/
theorem Sound.lookup?_builtin (h : Sound tt) {id : TypeId} (hid : id ≤ object) :
    tt.lookup? id = builtin.lookup? id := by
  obtain ⟨more, hmore⟩ := h.start
  have hcount : builtin.types.length = 17 := by decide +kernel
  have hlt : id.toNat < builtin.types.length :=
    Nat.lt_of_le_of_lt (UInt32.le_iff_toNat_le.mp hid) (by rw [hcount]; decide)
  unfold TypeTable.lookup?
  rw [← hmore, List.getElem?_append_left hlt]

/-- In a table of separate descriptors the index, in which the last number of a descriptor wins,
has for each descriptor the number that it was given first. -/
theorem Separate.index_eq_idxOf? (h : Separate tt) (d : Descriptor) :
    tt.index d = (tt.types.idxOf? d).map UInt32.ofNat := by
  rw [index_eq, lastIndex?_eq_idxOf? h.nodup]

/-- Whatever was asked of the builtin table, what it has become is restored from its entries. The
restored table is not told apart from it, its builtin numbers denote the builtin types, and its
index, made anew with the last entry winning, has the numbers that descriptors were given first,
as long as numbers of 32 bits last. -/
theorem restore_askAll (requests : List TypeRequest) :
    let tt := (builtin.askAll requests).1
    ∃ back, restore tt.types tt.nominals = .ok back ∧ Alike back tt
      ∧ (∀ id ≤ object, back.lookup? id = builtin.lookup? id)
      ∧ (tt.size ≤ UInt32.size →
        (∀ d, back.index d = (tt.types.idxOf? d).map UInt32.ofNat)
          ∧ ∀ id d, tt.lookup? id = some d → back.intern d = (back, id)) := by
  intro tt
  have hsound : Sound tt := sound_builtin.askAll requests
  refine ⟨tt, hsound.restore_eq, .refl tt, fun id hid => hsound.lookup?_builtin hid, ?_⟩
  intro hroom
  have hinterned : Interned tt := interned_builtin.askAll requests hroom
  exact ⟨hinterned.index_eq_idxOf?, fun id d => hinterned.intern_lookup?⟩

/-- A struct that holds a pointer to itself, the pointer twice, and a generic type. -/
def listRequests : List TypeRequest :=
  [.register .struct rfl "List", .intern { kind := .pointer, elem := 17 } ⟨by decide, rfl⟩,
    .setStructFields 17 [{ name := "next", type := 18 }, { name := "head", type := int32 }],
    .intern { kind := .pointer, elem := 17 } ⟨by decide, rfl⟩, .register .generic rfl "T"]

theorem restore_askAll_list :
    (builtin.askAll listRequests).1.size ≤ UInt32.size
      ∧ (builtin.askAll listRequests).2 = [some 17, some 18, none, some 18, some 19]
      ∧ ∃ back, restore (builtin.askAll listRequests).1.types
          (builtin.askAll listRequests).1.nominals = .ok back
        ∧ back.intern { kind := .pointer, elem := 17 } = (back, 18) := by
  have hroom : (builtin.askAll listRequests).1.size ≤ UInt32.size := by decide +kernel
  obtain ⟨back, hback, -, -, hindex⟩ := restore_askAll listRequests
  exact ⟨hroom, by decide +kernel, back, hback, (hindex hroom).2 18 _ (by decide +kernel)⟩

end TypeTable

end WastForge
