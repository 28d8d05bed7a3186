import WastForge.Layout.Placement
import WastForge.Proofs.Layout.Size

/-!
# Slots in memory

Placing a string or a static field does one of three things to the memory that is given away: it
finds out about sizes, or it gives a new string or a new field a slot at the end. Whatever was
placed one after the other, the slots lie between the heap and the end and do not overlap.
-/

namespace WastForge

/-- The bytes of the slots for `n` bytes. -/
def slotSize (n : Nat) : Nat := if n = 0 then 8 else (n + 7) / 8 * 8

/-- Rounding up loses what does not fit into 64 bits: the slots for the last seven sizes. -/
theorem toNat_roundUp_eq_mod (n : UInt64) : (roundUp n).toNat = slotSize n.toNat % 2 ^ 64 := by
  unfold roundUp slotSize
  by_cases hzero : n = 0
  · subst hzero
    decide
  · have hpos : n.toNat ≠ 0 := fun hz => hzero (UInt64.toNat_inj.mp hz)
    have hlt := n.toNat_lt
    have hseven : (7 : UInt64).toNat = 7 := rfl
    have height : (8 : UInt64).toNat = 8 := rfl
    rw [if_neg hzero, if_neg hpos, UInt64.toNat_mul, UInt64.toNat_div, UInt64.toNat_add, hseven,
      height]
    omega

theorem slotSize_spec (n : Nat) :
    n ≤ slotSize n ∧ 8 ≤ slotSize n ∧ slotSize n ≤ n + 8 ∧ 8 ∣ slotSize n := by
  unfold slotSize
  split <;> omega

theorem toNat_roundUp {n : UInt64} (h : n.toNat < 0x200000000) :
    (roundUp n).toNat = slotSize n.toNat := by
  have hle := (slotSize_spec n.toNat).2.2.1
  rw [toNat_roundUp_eq_mod]
  exact Nat.mod_eq_of_lt (by omega)

/-- Where the slot of a string ends. -/
def StringSlot.stop (s : StringSlot) : Nat := s.offset.toNat + s.size.toNat

/-- The bytes of the slot of a field. -/
def FieldSlot.width (f : FieldSlot) : Nat := slotSize f.size.toNat

/-- Where the slot of a field ends. -/
def FieldSlot.stop (f : FieldSlot) : Nat := f.offset.toNat + f.width

namespace Arena

/-- Where the memory that is given away ends. -/
def stop (a : Arena) : Nat := a.heapSize.toNat + a.used.toNat

/-- The arena with `size` more bytes given away. -/
def grown (a : Arena) (size : UInt64) : Arena := { a with used := a.used + roundUp size }

/-- The slot of a new string. -/
def newString (a : Arena) (content chars : Bytes) : StringSlot :=
  ⟨content, chars, a.total.toUInt32, (roundUp (UInt64.ofNat chars.length + 8)).toUInt32⟩

/-- The slot of a new field. -/
def newField (a : Arena) (field : MemberRef) (type : TypeId) (readOnly : Bool) (size : UInt32) :
    FieldSlot :=
  ⟨field, type, readOnly, a.total.toUInt32, size⟩

/-- The arena after the size of a type was asked for. -/
def sized (a : Arena) (type : TypeId) : Arena :=
  { a with sizes := (a.types.sizeOf type a.sizes).2 }

/-- There are `size` more bytes to give away. -/
def HasRoom (a : Arena) (size : UInt64) : Prop :=
  isAddress a.total ∧ isAddress (a.total + roundUp size)

/-- What placing something can do, where the fields are those of which `Q` holds. -/
inductive Step (Q : MemberRef → TypeId → Prop) : Arena → Arena → Prop where
  | sizes (a : Arena) (type : TypeId) : Step Q a (a.sized type)
  | string {a : Arena} {content chars : Bytes} (hnew : a.string? content = none)
    (hchars : Latin1.encode? content = some chars) (hlength : chars.length < 0x100000000)
    (hroom : a.HasRoom (UInt64.ofNat chars.length + 8)) :
    Step Q a { a.grown (UInt64.ofNat chars.length + 8) with
      strings := a.strings ++ [a.newString content chars] }
  | field {a : Arena} {field : MemberRef} {type : TypeId} {readOnly : Bool} {size : UInt32}
    (hfield : Q field type) (hnew : a.field? field = none)
    (hsize : (a.types.sizeOf type a.sizes).1 = .ok size) (hroom : a.HasRoom size.toUInt64) :
    Step Q a { (a.sized type).grown size.toUInt64 with
      fields := a.fields ++ [a.newField field type readOnly size] }

/-- What placing things one after the other can do. -/
abbrev Steps (Q : MemberRef → TypeId → Prop) : Arena → Arena → Prop :=
  Relation.ReflTransGen (Step Q)

/-- The slot of a string is where it has to be. -/
structure IsString (a : Arena) (s : StringSlot) : Prop where
  start : a.heapSize.toNat ≤ s.offset.toNat
  stop : s.stop ≤ a.stop
  aligned : 8 ∣ s.offset.toNat - a.heapSize.toNat
  size : s.size.toNat = slotSize (s.chars.length + 8)
  chars : Latin1.encode? s.content = some s.chars

/-- The slot of a field is where it has to be. -/
structure IsField (a : Arena) (f : FieldSlot) : Prop where
  start : a.heapSize.toNat ≤ f.offset.toNat
  stop : f.stop ≤ a.stop
  aligned : 8 ∣ f.offset.toNat - a.heapSize.toNat
  size : a.types.HasSize f.type f.size

/-- Where the slots are. -/
structure Sound (a : Arena) : Prop where
  bound : a.stop < 0x100000000
  aligned : 8 ∣ a.used.toNat
  used : a.used.toNat
    = (a.strings.map fun s => s.size.toNat).sum + (a.fields.map FieldSlot.width).sum
  string : ∀ s ∈ a.strings, a.IsString s
  field : ∀ f ∈ a.fields, a.IsField f
  strings : a.strings.Pairwise fun s t => s.stop ≤ t.offset.toNat
  fields : a.fields.Pairwise fun f g => f.stop ≤ g.offset.toNat
  apart : ∀ s ∈ a.strings, ∀ f ∈ a.fields, s.stop ≤ f.offset.toNat ∨ f.stop ≤ s.offset.toNat
  contents : (a.strings.map (·.content)).Nodup
  refs : (a.fields.map (·.field)).Nodup
  known : a.types.Knows a.sizes

theorem sound_start (types : TypeTable) (heapSize : UInt32) :
    Sound { types := types, heapSize := heapSize } where
  bound := heapSize.toNat_lt
  aligned := dvd_zero 8
  used := rfl
  string := List.forall_mem_nil _
  field := List.forall_mem_nil _
  strings := .nil
  fields := .nil
  apart := List.forall_mem_nil _
  contents := .nil
  refs := .nil
  known := List.forall_mem_nil _

theorem Sound.total {a : Arena} (h : a.Sound) : a.total.toNat = a.stop := by
  have hbound := h.bound
  unfold stop at hbound
  unfold Arena.total stop
  rw [UInt64.toNat_add, UInt32.toNat_toUInt64]
  omega

/-- Whether there is room shows in the end of the memory. -/
theorem Sound.hasRoom_iff {a : Arena} (h : a.Sound) {size : UInt64}
    (hsize : size.toNat < 0x200000000) :
    a.HasRoom size ↔ a.stop + slotSize size.toNat < 0x100000000 := by
  have hround := toNat_roundUp hsize
  have hspec := slotSize_spec size.toNat
  have hbound := h.bound
  have hend : (a.total + roundUp size).toNat = a.stop + slotSize size.toNat := by
    rw [UInt64.toNat_add, h.total, hround]
    omega
  simp only [HasRoom, isAddress, decide_eq_true_eq, UInt64.lt_iff_toNat_lt, hend, h.total]
  exact ⟨fun hroom => hroom.2, fun hroom => ⟨hbound, hroom⟩⟩

/-- New slots start where the memory ended, and there is room for them. -/
theorem Sound.room {a : Arena} (h : a.Sound) {size : UInt64} (hsize : size.toNat < 0x200000000)
    (hroom : a.HasRoom size) :
    a.total.toUInt32.toNat = a.stop ∧ (a.grown size).used.toNat = a.used.toNat + slotSize size.toNat
      ∧ a.stop + slotSize size.toNat < 0x100000000 := by
  have hlt := (h.hasRoom_iff hsize).mp hroom
  have hbound := h.bound
  refine ⟨?_, ?_, hlt⟩
  · rw [UInt64.toNat_toUInt32, h.total]
    exact Nat.mod_eq_of_lt h.bound
  · unfold stop at hlt
    rw [grown, UInt64.toNat_add, toNat_roundUp hsize]
    omega

theorem content_ne_of_new {a : Arena} {content : Bytes} (h : a.string? content = none) :
    ∀ s ∈ a.strings, s.content ≠ content := by
  intro s hs heq
  have hnone := List.find?_eq_none.mp h s hs
  exact hnone (beq_iff_eq.mpr heq)

theorem field_ne_of_new {a : Arena} {field : MemberRef} (h : a.field? field = none) :
    ∀ f ∈ a.fields, f.field ≠ field := by
  intro f hf heq
  have hnone := List.find?_eq_none.mp h f hf
  exact hnone (decide_eq_true heq)

theorem pairwise_concat {α : Type} {R : α → α → Prop} {l : List α} {x : α}
    (h : l.Pairwise R) (hx : ∀ y ∈ l, R y x) : (l ++ [x]).Pairwise R :=
  List.pairwise_append.mpr ⟨h, List.pairwise_singleton R x, fun y hy z hz => by
    rw [List.mem_singleton.mp hz]
    exact hx y hy⟩

theorem IsString.mono {a b : Arena} {s : StringSlot} (h : a.IsString s)
    (hheap : b.heapSize = a.heapSize) (hstop : a.stop ≤ b.stop) : b.IsString s where
  start := hheap ▸ h.start
  stop := h.stop.trans hstop
  aligned := hheap ▸ h.aligned
  size := h.size
  chars := h.chars

theorem IsField.mono {a b : Arena} {f : FieldSlot} (h : a.IsField f) (htypes : b.types = a.types)
    (hheap : b.heapSize = a.heapSize) (hstop : a.stop ≤ b.stop) : b.IsField f where
  start := hheap ▸ h.start
  stop := h.stop.trans hstop
  aligned := hheap ▸ h.aligned
  size := htypes ▸ h.size

theorem toNat_stringSize {chars : Bytes} (h : chars.length < 0x100000000) :
    (UInt64.ofNat chars.length + 8).toNat = chars.length + 8 := by
  have height : (8 : UInt64).toNat = 8 := rfl
  rw [UInt64.toNat_add, UInt64.toNat_ofNat']
  omega

variable {Q : MemberRef → TypeId → Prop} {a b : Arena}

/-- A new string gets its slot at the end. -/
theorem Sound.string_step (h : a.Sound) {content chars : Bytes} (hnew : a.string? content = none)
    (hchars : Latin1.encode? content = some chars) (hlength : chars.length < 0x100000000)
    (hroom : a.HasRoom (UInt64.ofNat chars.length + 8)) :
    Sound { a.grown (UInt64.ofNat chars.length + 8) with
      strings := a.strings ++ [a.newString content chars] } := by
  have hsize := toNat_stringSize hlength
  have hspec := slotSize_spec (chars.length + 8)
  obtain ⟨hoffset, hused, hbound⟩ := h.room (by omega) hroom
  rw [hsize] at hused hbound
  have hstart : (a.newString content chars).offset.toNat = a.stop := hoffset
  have hwidth : (a.newString content chars).size.toNat = slotSize (chars.length + 8) := by
    show (roundUp _).toUInt32.toNat = _
    rw [UInt64.toNat_toUInt32, toNat_roundUp (by omega), hsize]
    omega
  have hend : (a.newString content chars).stop = a.stop + slotSize (chars.length + 8) := by
    rw [StringSlot.stop, hstart, hwidth]
  have hstop : (a.grown (UInt64.ofNat chars.length + 8)).stop
      = a.stop + slotSize (chars.length + 8) := by
    rw [stop, stop, hused, Nat.add_assoc]
    rfl
  have hheap : a.heapSize.toNat ≤ a.stop := Nat.le_add_right _ _
  have hgrows := (Nat.le_add_right _ _).trans_eq hstop.symm
  constructor
  case bound => exact hstop.trans_lt hbound
  case aligned =>
    rw [hused]
    exact Nat.dvd_add h.aligned hspec.2.2.2
  case used =>
    rw [hused, h.used, List.map_append, List.sum_append, List.map_singleton, List.sum_singleton,
      hwidth]
    exact Nat.add_right_comm _ _ _
  case string =>
    refine List.forall_mem_append.mpr ⟨fun s hs => (h.string s hs).mono rfl hgrows, ?_⟩
    refine List.forall_mem_singleton.mpr ⟨hheap.trans_eq hstart.symm, (hend.trans hstop.symm).le,
      ?_, hwidth, hchars⟩
    rw [hstart, stop]
    simpa [grown] using h.aligned
  case field => exact fun f hf => (h.field f hf).mono rfl rfl hgrows
  case strings =>
    exact pairwise_concat h.strings fun s hs => (h.string s hs).stop.trans_eq hstart.symm
  case fields => exact h.fields
  case apart =>
    refine List.forall_mem_append.mpr ⟨h.apart, List.forall_mem_singleton.mpr fun f hf => .inr ?_⟩
    exact (h.field f hf).stop.trans_eq hstart.symm
  case contents =>
    rw [List.map_append]
    refine pairwise_concat h.contents fun c hc => ?_
    obtain ⟨s, hs, rfl⟩ := List.mem_map.mp hc
    exact content_ne_of_new hnew s hs
  case refs => exact h.refs
  case known => exact h.known

/-- A new field gets its slot at the end. -/
theorem Sound.field_step (h : a.Sound) {field : MemberRef} {type : TypeId} {readOnly : Bool}
    {size : UInt32} (hnew : a.field? field = none)
    (hfound : (a.types.sizeOf type a.sizes).1 = .ok size) (hroom : a.HasRoom size.toUInt64) :
    Sound { (a.sized type).grown size.toUInt64 with
      fields := a.fields ++ [a.newField field type readOnly size] } := by
  have hlt := size.toNat_lt
  have hsize : size.toUInt64.toNat = size.toNat := UInt32.toNat_toUInt64 size
  have hspec := slotSize_spec size.toNat
  obtain ⟨hoffset, hused, hbound⟩ := h.room (by omega) hroom
  rw [hsize] at hused hbound
  obtain ⟨hsizes, hknown⟩ := a.types.finds_sizeOf type a.sizes h.known
  have hstart : (a.newField field type readOnly size).offset.toNat = a.stop := hoffset
  have hend : (a.newField field type readOnly size).stop = a.stop + slotSize size.toNat :=
    congrArg (· + _) hstart
  have hstop : ((a.sized type).grown size.toUInt64).stop = a.stop + slotSize size.toNat := by
    show a.heapSize.toNat + (a.grown size.toUInt64).used.toNat = _
    rw [stop, hused, Nat.add_assoc]
  have hheap : a.heapSize.toNat ≤ a.stop := Nat.le_add_right _ _
  have hgrows := (Nat.le_add_right _ _).trans_eq hstop.symm
  constructor
  case bound => exact hstop.trans_lt hbound
  case aligned =>
    show 8 ∣ (a.grown size.toUInt64).used.toNat
    rw [hused]
    exact Nat.dvd_add h.aligned hspec.2.2.2
  case used =>
    show (a.grown size.toUInt64).used.toNat = _
    rw [hused, h.used, List.map_append, List.sum_append, List.map_singleton, List.sum_singleton,
      Nat.add_assoc]
    rfl
  case string => exact fun s hs => (h.string s hs).mono rfl hgrows
  case field =>
    refine List.forall_mem_append.mpr ⟨fun f hf => (h.field f hf).mono rfl rfl hgrows, ?_⟩
    refine List.forall_mem_singleton.mpr ⟨hheap.trans_eq hstart.symm, (hend.trans hstop.symm).le,
      ?_, (hsizes size).mp hfound⟩
    rw [hstart, stop]
    simpa [sized, grown] using h.aligned
  case strings => exact h.strings
  case fields =>
    exact pairwise_concat h.fields fun f hf => (h.field f hf).stop.trans_eq hstart.symm
  case apart =>
    refine fun s hs => List.forall_mem_append.mpr
      ⟨h.apart s hs, List.forall_mem_singleton.mpr (.inl ?_)⟩
    exact (h.string s hs).stop.trans_eq hstart.symm
  case contents => exact h.contents
  case refs =>
    rw [List.map_append]
    refine pairwise_concat h.refs fun r hr => ?_
    obtain ⟨f, hf, rfl⟩ := List.mem_map.mp hr
    exact field_ne_of_new hnew f hf
  case known => exact hknown

theorem Step.sound (h : Step Q a b) (ha : a.Sound) : b.Sound := by
  cases h with
  | sizes type =>
    exact { ha with
      string := fun s hs => (ha.string s hs).mono rfl le_rfl
      field := fun f hf => (ha.field f hf).mono rfl rfl le_rfl
      known := (a.types.finds_sizeOf type a.sizes ha.known).2 }
  | string hnew hchars hlength hroom => exact ha.string_step hnew hchars hlength hroom
  | field _ hnew hsize hroom => exact ha.field_step hnew hsize hroom

theorem Steps.sound (h : Steps Q a b) (ha : a.Sound) : b.Sound := by
  induction h with
  | refl => exact ha
  | tail _ hstep ih => exact hstep.sound ih

/-- Placing more keeps the heap, the types and all slots. -/
structure Extends (a b : Arena) : Prop where
  types : b.types = a.types
  heapSize : b.heapSize = a.heapSize
  strings : a.strings <+: b.strings
  fields : a.fields <+: b.fields

theorem Step.extends (h : Step Q a b) : Extends a b := by
  cases h with
  | sizes => exact ⟨rfl, rfl, List.prefix_rfl, List.prefix_rfl⟩
  | string => exact ⟨rfl, rfl, List.prefix_append _ _, List.prefix_rfl⟩
  | field => exact ⟨rfl, rfl, List.prefix_rfl, List.prefix_append _ _⟩

theorem Steps.extends (h : Steps Q a b) : Extends a b := by
  induction h with
  | refl => exact ⟨rfl, rfl, List.prefix_rfl, List.prefix_rfl⟩
  | tail _ hstep ih =>
    have hext := hstep.extends
    exact ⟨hext.types.trans ih.types, hext.heapSize.trans ih.heapSize,
      ih.strings.trans hext.strings, ih.fields.trans hext.fields⟩

theorem find?_of_prefix {α : Type} {p : α → Bool} {l l' : List α} {x : α} (h : l <+: l')
    (hx : l.find? p = some x) : l'.find? p = some x := by
  obtain ⟨rest, rfl⟩ := h
  rw [List.find?_append, hx]
  rfl

theorem Extends.string? (h : Extends a b) {content : Bytes} {s : StringSlot}
    (hs : a.string? content = some s) : b.string? content = some s :=
  find?_of_prefix h.strings hs

theorem Extends.field? (h : Extends a b) {field : MemberRef} {f : FieldSlot}
    (hf : a.field? field = some f) : b.field? field = some f :=
  find?_of_prefix h.fields hf

/-- Slots are those of fields that were placed. -/
theorem Steps.fields (h : Steps Q a b) (ha : ∀ f ∈ a.fields, Q f.field f.type) :
    ∀ f ∈ b.fields, Q f.field f.type := by
  induction h with
  | refl => exact ha
  | tail _ hstep ih =>
    cases hstep with
    | sizes => exact ih
    | string => exact ih
    | field hfield =>
      exact List.forall_mem_append.mpr ⟨ih, List.forall_mem_singleton.mpr hfield⟩

/-- The strings are placed in the order of their offsets. -/
theorem Sound.stringTable (h : a.Sound) : a.stringTable = a.strings := by
  refine List.mergeSort_of_pairwise (h.strings.imp fun {s t} hst => ?_)
  have hle : s.offset.toNat ≤ s.stop := Nat.le_add_right _ _
  exact decide_eq_true (UInt32.le_iff_toNat_le.mpr (hle.trans hst))

/-- The fields are placed in the order of their offsets. -/
theorem Sound.fieldTable (h : a.Sound) : a.fieldTable = a.fields := by
  refine List.mergeSort_of_pairwise (h.fields.imp fun {f g} hfg => ?_)
  have hle : f.offset.toNat ≤ f.stop := Nat.le_add_right _ _
  exact decide_eq_true (UInt32.le_iff_toNat_le.mpr (hle.trans hfg))

end Arena

end WastForge
