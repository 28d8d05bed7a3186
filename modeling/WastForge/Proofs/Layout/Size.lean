import Mathlib
import WastForge.Layout.Size
import WastForge.Types.Keyword

/-!
# Packed sizes

The size of a type by the type table alone: that of a machine type is fixed, and a struct is the
packed sum of its fields. What is remembered of sizes is true as long as it was found this way, so
a size that is asked for is found whatever was asked for before.
-/

namespace WastForge

/-- The size of the values of a type that is no struct. -/
def Descriptor.scalarSize? (d : Descriptor) : Option UInt32 :=
  match d.kind with
  | .void => some 0
  | .bool => some 1
  | .char => some 2
  | .int | .uint | .float => some (d.width.toUInt32 / 8)
  | .pointer | .delegate | .string => some 4
  | _ => none

namespace TypeTable

/-- A type has a packed size. -/
inductive HasSize (tt : TypeTable) : TypeId → UInt32 → Prop where
  | scalar {id : TypeId} {d : Descriptor} {n : UInt32} (hd : tt.lookup? id = some d)
    (hn : d.scalarSize? = some n) : HasSize tt id n
  | struct {id : TypeId} {info : Nominal} {sizes : List UInt32}
    (hinfo : tt.structInfo? id = some info) (hlength : sizes.length = info.fields.length)
    (hsizes : ∀ x ∈ info.fields.zip sizes, HasSize tt x.1.type x.2)
    (hlt : (sizes.map UInt32.toNat).sum < 0x100000000) :
    HasSize tt id (UInt32.ofNat (sizes.map UInt32.toNat).sum)

variable {tt : TypeTable} {known : KnownSizes} {id : TypeId}

/-- A struct has a field of a type. -/
def Holds (tt : TypeTable) (id field : TypeId) : Prop :=
  ∃ info f, tt.structInfo? id = some info ∧ f ∈ info.fields ∧ f.type = field

theorem kind_of_structInfo? {info : Nominal} (h : tt.structInfo? id = some info) :
    ∃ d, tt.lookup? id = some d ∧ d.kind = .struct := by
  unfold structInfo? structSlot? at h
  cases hd : tt.lookup? id with
  | none => simp [hd] at h
  | some d =>
    refine ⟨d, rfl, ?_⟩
    by_contra hkind
    simp [hd, hkind] at h

theorem lt_size_of_lookup? {d : Descriptor} (h : tt.lookup? id = some d) : id.toNat < tt.size := by
  unfold lookup? at h
  split at h
  · cases h
  · exact (List.getElem?_eq_some_iff.mp h).1

theorem scalarSize?_of_struct {d : Descriptor} (h : d.kind = .struct) : d.scalarSize? = none := by
  unfold Descriptor.scalarSize?
  rw [h]

theorem scalarSize?_of_structInfo? {info : Nominal} {d : Descriptor}
    (hinfo : tt.structInfo? id = some info) (hd : tt.lookup? id = some d) :
    d.scalarSize? = none := by
  obtain ⟨d', hd', hkind⟩ := kind_of_structInfo? hinfo
  obtain rfl := Option.some.inj (hd.symm.trans hd')
  exact scalarSize?_of_struct hkind

/-- The size of a struct is the sum of the sizes of its fields. -/
theorem HasSize.sizes {n : UInt32} {info : Nominal} (h : tt.HasSize id n)
    (hinfo : tt.structInfo? id = some info) :
    ∃ sizes : List UInt32, sizes.length = info.fields.length
      ∧ (∀ x ∈ info.fields.zip sizes, tt.HasSize x.1.type x.2)
      ∧ (sizes.map UInt32.toNat).sum < 0x100000000
      ∧ n = UInt32.ofNat (sizes.map UInt32.toNat).sum := by
  cases h with
  | scalar hd hn => cases hn.symm.trans (scalarSize?_of_structInfo? hinfo hd)
  | struct hinfo' hlength hsizes hlt =>
    obtain rfl := Option.some.inj (hinfo.symm.trans hinfo')
    exact ⟨_, hlength, hsizes, hlt, rfl⟩

theorem exists_mem_zip {α β : Type} {l : List α} {l' : List β} (h : l'.length = l.length) {x : α}
    (hx : x ∈ l) : ∃ y, (x, y) ∈ l.zip l' := by
  obtain ⟨i, hi, rfl⟩ := List.getElem_of_mem hx
  exact ⟨l'[i], List.mem_iff_getElem.mpr ⟨i, by simp [hi, h], List.getElem_zip⟩⟩

/-- Two lists of sizes of the same fields are the same if they agree at every field. -/
theorem sizes_eq {fields : List StructField} {sizes sizes' : List UInt32}
    (hlength : sizes.length = fields.length) (hlength' : sizes'.length = fields.length)
    (h : ∀ f n n', (f, n) ∈ fields.zip sizes → (f, n') ∈ fields.zip sizes' → n = n') :
    sizes = sizes' := by
  refine List.ext_getElem (hlength.trans hlength'.symm) fun i hi hi' => ?_
  have hf : i < fields.length := hlength ▸ hi
  exact h fields[i] _ _ (List.mem_iff_getElem.mpr ⟨i, by simp [hi, hf], List.getElem_zip⟩)
    (List.mem_iff_getElem.mpr ⟨i, by simp [hi', hf], List.getElem_zip⟩)

/-- A type with a size does not hold itself. -/
theorem HasSize.acc {n : UInt32} (h : tt.HasSize id n) :
    Acc (fun field id => tt.Holds id field) id := by
  induction h with
  | scalar hd hn =>
    refine ⟨_, fun field hfield => ?_⟩
    obtain ⟨info, _, hinfo, _, _⟩ := hfield
    cases hn.symm.trans (scalarSize?_of_structInfo? hinfo hd)
  | struct hinfo hlength _ _ ih =>
    refine ⟨_, fun field hfield => ?_⟩
    obtain ⟨info', f, hinfo', hf, rfl⟩ := hfield
    obtain rfl := Option.some.inj (hinfo.symm.trans hinfo')
    obtain ⟨n, hmem⟩ := exists_mem_zip hlength hf
    exact ih _ hmem

theorem HasSize.not_within_self {n : UInt32} (h : tt.HasSize id n) :
    ¬Relation.TransGen (fun field id => tt.Holds id field) id id := by
  have hacc := h.acc.transGen
  clear h
  induction hacc with
  | intro id _ ih => exact fun hself => ih id hself hself

/-- A type has one size. -/
theorem HasSize.unique {n n' : UInt32} (h : tt.HasSize id n) (h' : tt.HasSize id n') :
    n = n' := by
  induction h generalizing n' with
  | scalar hd hn =>
    cases h' with
    | scalar hd' hn' =>
      obtain rfl := Option.some.inj (hd.symm.trans hd')
      exact Option.some.inj (hn.symm.trans hn')
    | struct hinfo => cases hn.symm.trans (scalarSize?_of_structInfo? hinfo hd)
  | struct hinfo hlength _ _ ih =>
    obtain ⟨sizes', hlength', hsizes', _, rfl⟩ := h'.sizes hinfo
    have hsame := sizes_eq hlength hlength' fun f m m' hm hm' => ih _ hm (hsizes' _ hm')
    rw [hsame]

/-- A machine type has a size. -/
theorem hasSize_of_valueKeyword? (h : (tt.valueKeyword? id).isSome) : ∃ n, tt.HasSize id n := by
  unfold valueKeyword? keyword? at h
  cases hd : tt.lookup? id with
  | none => simp [hd] at h
  | some d =>
    rw [hd] at h
    have hscalar : d.scalarSize?.isSome := by
      unfold Descriptor.scalarSize?
      cases hkind : d.kind with
      | _ => simp [hkind] at h ⊢
    obtain ⟨n, hn⟩ := Option.isSome_iff_exists.mp hscalar
    exact ⟨n, .scalar hd hn⟩

/-- What was found is the size of the type, if it has one. -/
def IsSize (tt : TypeTable) (id : TypeId) (found : Except LayoutError UInt32) : Prop :=
  ∀ n, found = .ok n ↔ tt.HasSize id n

/-- What is known are sizes. -/
def Knows (tt : TypeTable) (known : KnownSizes) : Prop :=
  ∀ entry ∈ known, tt.IsSize entry.1 entry.2

/-- The work finds the size of a type, and what is known afterwards are sizes again. -/
def Finds (tt : TypeTable) (act : SizeM (Except LayoutError UInt32)) (id : TypeId) : Prop :=
  ∀ known, tt.Knows known → tt.IsSize id (act known).1 ∧ tt.Knows (act known).2

theorem isSize_error {e : LayoutError} (h : ∀ n, ¬tt.HasSize id n) : tt.IsSize id (.error e) :=
  fun n => ⟨fun he => (nomatch he), fun hn => absurd hn (h n)⟩

theorem isSize_failing {why : Bytes → LayoutError} (h : ∀ n, ¬tt.HasSize id n) :
    tt.IsSize id (tt.failing id why) := by
  unfold failing
  split
  · exact isSize_error h
  · exact isSize_error h

theorem HasSize.isSize {n : UInt32} (h : tt.HasSize id n) : tt.IsSize id (.ok n) :=
  fun _ => ⟨fun hm => Except.ok.inj hm ▸ h, fun hm => congrArg _ (h.unique hm)⟩

theorem finds_pure {found : Except LayoutError UInt32} (h : tt.IsSize id found) :
    tt.Finds (pure found) id :=
  fun _ hknown => ⟨h, hknown⟩

theorem bind_run {σ α β : Type} {act : StateM σ α} {next : α → StateM σ β} {s s' : σ} {x : α}
    (h : act s = (x, s')) : (act >>= next) s = next x s' := by
  show next (act s).1 (act s).2 = _
  rw [h]

/-- The sum of the sizes of fields, if all of them have one. -/
def AreSizes (tt : TypeTable) (fields : List StructField) (total : Nat)
    (found : Except LayoutError Nat) : Prop :=
  ∀ n, found = .ok n ↔ ∃ sizes : List UInt32, sizes.length = fields.length
    ∧ (∀ x ∈ fields.zip sizes, tt.HasSize x.1.type x.2) ∧ n = total + (sizes.map UInt32.toNat).sum

theorem finds_sumSizes {find : TypeId → SizeM (Except LayoutError UInt32)}
    (fields : List StructField) (hfind : ∀ f ∈ fields, tt.Finds (find f.type) f.type) :
    ∀ total known, tt.Knows known →
      tt.AreSizes fields total (sumSizes find total fields known).1
        ∧ tt.Knows (sumSizes find total fields known).2 := by
  induction fields with
  | nil =>
    refine fun total known h => ⟨fun n => ⟨fun hn => ⟨[], rfl, List.forall_mem_nil _, ?_⟩, ?_⟩, h⟩
    · exact (Except.ok.inj hn).symm
    · rintro ⟨sizes, hlength, _, rfl⟩
      obtain rfl := List.length_eq_zero_iff.mp hlength
      rfl
  | cons f rest ih =>
    rw [List.forall_mem_cons] at hfind
    intro total known h
    obtain ⟨hsize, hknows⟩ := hfind.1 known h
    unfold sumSizes
    rcases hrun : find f.type known with ⟨e | m, known'⟩
    · rw [hrun] at hsize hknows
      rw [bind_run hrun]
      refine ⟨fun n => ⟨fun he => (nomatch he), ?_⟩, hknows⟩
      rintro ⟨_ | ⟨m, sizes⟩, hlength, hsizes, _⟩
      · cases hlength
      · cases (hsize m).mpr (hsizes (f, m) List.mem_cons_self)
    · rw [hrun] at hsize hknows
      rw [bind_run hrun]
      obtain ⟨hsum, hafter⟩ := ih hfind.2 (total + m.toNat) known' hknows
      refine ⟨fun n => (hsum n).trans ⟨?_, ?_⟩, hafter⟩
      · rintro ⟨sizes, hlength, hsizes, rfl⟩
        refine ⟨m :: sizes, congrArg (· + 1) hlength, ?_, ?_⟩
        · exact List.forall_mem_cons.mpr ⟨(hsize m).mp rfl, hsizes⟩
        · simp [Nat.add_assoc]
      · rintro ⟨_ | ⟨m', sizes⟩, hlength, hsizes, rfl⟩
        · cases hlength
        · rw [List.zip_cons_cons, List.forall_mem_cons] at hsizes
          obtain rfl := Except.ok.inj ((hsize m').mpr hsizes.1)
          exact ⟨sizes, Nat.succ.inj hlength, hsizes.2, by simp [Nat.add_assoc]⟩

theorem isSize_structSize {info : Nominal} {total : Nat} (hinfo : tt.structInfo? id = some info)
    (h : tt.AreSizes info.fields 0 (.ok total)) : tt.IsSize id (structSize total) := by
  obtain ⟨sizes, hlength, hsizes, htotal⟩ := (h total).mp rfl
  rw [Nat.zero_add] at htotal
  subst htotal
  unfold structSize
  split
  · rename_i hlt
    exact (HasSize.struct hinfo hlength hsizes hlt).isSize
  · rename_i hnot
    refine isSize_error fun n hn => ?_
    obtain ⟨sizes', hlength', hsizes', hlt', -⟩ := hn.sizes hinfo
    have hsame := (h (0 + (sizes'.map UInt32.toNat).sum)).mpr ⟨sizes', hlength', hsizes', rfl⟩
    rw [Nat.zero_add] at hsame
    rw [Except.ok.inj hsame] at hnot
    exact hnot hlt'

/-- A type that is neither a machine type nor a struct has no size. -/
theorem not_hasSize {d : Descriptor} (hd : tt.lookup? id = some d) (hscalar : d.scalarSize? = none)
    (hinfo : tt.structInfo? id = none) (n : UInt32) : ¬tt.HasSize id n := by
  intro hn
  cases hn with
  | scalar hd' hn =>
    obtain rfl := Option.some.inj (hd.symm.trans hd')
    cases hn.symm.trans hscalar
  | struct hinfo' => cases hinfo.symm.trans hinfo'

theorem structInfo?_eq_none {d : Descriptor} (hd : tt.lookup? id = some d)
    (h : d.kind ≠ .struct) : tt.structInfo? id = none := by
  cases hinfo : tt.structInfo? id with
  | none => rfl
  | some info =>
    obtain ⟨d', hd', hkind⟩ := kind_of_structInfo? hinfo
    obtain rfl := Option.some.inj (hd.symm.trans hd')
    exact absurd hkind h

/-- A size that is not known is found if the sizes of fields are. -/
theorem finds_freshSize {find : TypeId → SizeM (Except LayoutError UInt32)}
    (hfind : ∀ field, tt.Holds id field → tt.Finds (find field) field) :
    tt.Finds (freshSize tt find id) id := by
  unfold freshSize
  cases hd : tt.lookup? id with
  | none =>
    refine finds_pure (isSize_failing fun n hn => ?_)
    cases hn with
    | scalar hd' => cases hd.symm.trans hd'
    | struct hinfo =>
      obtain ⟨d', hd', _⟩ := kind_of_structInfo? hinfo
      cases hd.symm.trans hd'
  | some d =>
    cases hkind : d.kind with
    | struct =>
      cases hinfo : tt.structInfo? id with
      | none =>
        simp only [hkind]
        exact finds_pure (isSize_failing (not_hasSize hd (scalarSize?_of_struct hkind) hinfo))
      | some info =>
        intro known hknown
        obtain ⟨hsum, hafter⟩ := finds_sumSizes info.fields
          (fun f hf => hfind f.type ⟨info, f, hinfo, hf, rfl⟩) 0 known hknown
        rcases hrun : sumSizes find 0 info.fields known with ⟨e | total, known'⟩
        · rw [hrun] at hsum hafter
          simp only [hkind, bind_run hrun]
          refine ⟨isSize_error fun n hn => ?_, hafter⟩
          obtain ⟨sizes, hlength, hsizes, -⟩ := hn.sizes hinfo
          cases (hsum _).mpr ⟨sizes, hlength, hsizes, rfl⟩
        · rw [hrun] at hsum hafter
          simp only [hkind, bind_run hrun]
          exact ⟨isSize_structSize hinfo hsum, hafter⟩
    | invalid | array | generic | object | unknown =>
      simp only [hkind]
      refine finds_pure (isSize_failing (not_hasSize hd ?_ (structInfo?_eq_none hd ?_)))
      · simp [Descriptor.scalarSize?, hkind]
      · simp [hkind]
    | _ =>
      simp only [hkind]
      refine finds_pure (HasSize.isSize (.scalar hd ?_))
      simp [Descriptor.scalarSize?, hkind]

theorem length_le_of_nodup {l : List TypeId} {n : Nat} (h : l.Nodup) (hl : ∀ x ∈ l, x.toNat < n) :
    l.length ≤ n := by
  have hnodup : (l.map UInt32.toNat).Nodup := h.map fun _ _ => UInt32.toNat_inj.mp
  have hsubset : l.map UInt32.toNat ⊆ List.range n := by
    intro x hx
    obtain ⟨y, hy, rfl⟩ := List.mem_map.mp hx
    exact List.mem_range.mpr (hl y hy)
  simpa using hnodup.length_le_of_subset hsubset

/-- The structs that a size is asked for inside of: each holds the next one, at some depth, and
they are all different. -/
structure IsOuter (tt : TypeTable) (outer : List TypeId) (id : TypeId) : Prop where
  nodup : outer.Nodup
  lt_size : ∀ o ∈ outer, o.toNat < tt.size
  within : ∀ o ∈ outer, Relation.TransGen (fun field id => tt.Holds id field) id o

theorem IsOuter.concat {outer : List TypeId} {field : TypeId} (h : tt.IsOuter outer id)
    (hid : id ∉ outer) (hfield : tt.Holds id field) : tt.IsOuter (outer ++ [id]) field := by
  obtain ⟨info, _, hinfo, _, _⟩ := hfield
  obtain ⟨d, hd, _⟩ := kind_of_structInfo? hinfo
  constructor
  case nodup =>
    refine List.nodup_append.mpr ⟨h.nodup, List.nodup_singleton id, fun x hx y hy hxy => hid ?_⟩
    rwa [← List.mem_singleton.mp hy, ← hxy]
  case lt_size =>
    exact List.forall_mem_append.mpr
      ⟨h.lt_size, List.forall_mem_singleton.mpr (lt_size_of_lookup? hd)⟩
  case within =>
    refine List.forall_mem_append.mpr ⟨fun o ho => ?_, List.forall_mem_singleton.mpr (.single ?_)⟩
    · exact Relation.TransGen.head ⟨info, _, hinfo, ‹_›, ‹_›⟩ (h.within o ho)
    · exact ⟨info, _, hinfo, ‹_›, ‹_›⟩

/-- Looking for a size finds it: the fuel suffices, since the structs around a type are different
ones of the table, and a type that is found inside of itself has no size. -/
theorem finds_sizeWith (fuel : Nat) {outer : List TypeId} (houter : tt.IsOuter outer id)
    (hfuel : fuel + outer.length = tt.size + 2) : tt.Finds (tt.sizeWith fuel outer id) id := by
  induction fuel generalizing outer id with
  | zero =>
    have hle := length_le_of_nodup houter.nodup houter.lt_size
    omega
  | succ fuel ih =>
    intro known hknown
    unfold sizeWith
    have hget : (get : SizeM KnownSizes) known = (known, known) := rfl
    rw [bind_run hget]
    cases hfound : known.lookup id with
    | some found =>
      obtain ⟨before, after, rfl, _⟩ := List.lookup_eq_some_iff.mp hfound
      exact ⟨hknown (id, found) (List.mem_append_right _ List.mem_cons_self), hknown⟩
    | none =>
      by_cases hmem : outer.contains id
      · have hself := houter.within id (by simpa using hmem)
        have hnone : ∀ n, ¬tt.HasSize id n := fun n hn => hn.not_within_self hself
        simp only [hmem, if_true]
        exact ⟨isSize_failing hnone, List.forall_mem_cons.mpr ⟨isSize_failing hnone, hknown⟩⟩
      · have hfresh : tt.Finds (freshSize tt (tt.sizeWith fuel (outer ++ [id])) id) id := by
          refine finds_freshSize fun field hfield =>
            ih (houter.concat (by simpa using hmem) hfield) ?_
          rw [List.length_append, List.length_singleton]
          omega
        obtain ⟨hsize, hafter⟩ := hfresh known hknown
        rcases hrun : freshSize tt (tt.sizeWith fuel (outer ++ [id])) id known with ⟨found, known'⟩
        rw [hrun] at hsize hafter
        simp only [if_neg hmem, bind_run hrun]
        exact ⟨hsize, List.forall_mem_cons.mpr ⟨hsize, hafter⟩⟩

/-- The size that is asked for is found, whatever is known of other sizes. -/
theorem finds_sizeOf (tt : TypeTable) (id : TypeId) : tt.Finds (tt.sizeOf id) id :=
  finds_sizeWith (tt.size + 2)
    ⟨List.nodup_nil, List.forall_mem_nil _, List.forall_mem_nil _⟩ rfl

end TypeTable

end WastForge
