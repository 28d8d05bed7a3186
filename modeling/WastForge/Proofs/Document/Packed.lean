import WastForge.Document.Pack

/-!
# Packed values are read back

A reader that takes exactly the bytes of a value off the front, whatever follows them, and gives
the value. Every number, truth value and text is read back from its own encoding, and a list from
the encodings of its elements.
-/

namespace WastForge.Pack

/-- Lengths are written with at most four bytes. -/
def limit : Nat := 0x100000000

theorem limit_pos : 0 < limit := by decide

/-- The reader takes exactly the bytes `b` off the front and gives `a`. -/
def Reads {α : Type} (r : Reader α) (b : Bytes) (a : α) : Prop :=
  ∀ rest, r (b ++ rest) = .ok (a, rest)

section Reads

variable {α β : Type} {r : Reader α} {f : α → Reader β} {b c : Bytes} {a : α} {d : β}

theorem reads_pure (a : α) : Reads (pure a) [] a := fun _ => rfl

theorem Reads.bind_append (h : Reads r b a) (rest : Bytes) : (r >>= f) (b ++ rest) = f a rest := by
  show (r (b ++ rest) >>= fun p => f p.1 p.2) = _
  rw [h]
  rfl

theorem Reads.bind (h : Reads r b a) (hf : Reads (f a) c d) : Reads (r >>= f) (b ++ c) d := by
  intro rest
  rw [List.append_assoc, h.bind_append]
  exact hf rest

/-- Nothing is read behind the last value. -/
theorem Reads.last (h : Reads r b a) (hf : f a = pure d) : Reads (r >>= f) b d := by
  have hd : Reads (f a) [] d := hf ▸ reads_pure d
  simpa only [List.append_nil] using h.bind hd

theorem Reads.map (h : Reads r b a) (g : α → β) : Reads (r >>= fun x => pure (g x)) b (g a) :=
  h.last rfl

end Reads

/-! ## Numbers -/

theorem length_bigEndian (n v : Nat) : (bigEndian n v).length = n := by
  induction n generalizing v with
  | zero => rfl
  | succ n ih => simp [bigEndian, ih]

theorem ofBigEndian_append (b : Bytes) (d : UInt8) :
    ofBigEndian (b ++ [d]) = ofBigEndian b * 256 + d.toNat := by
  simp [ofBigEndian]

theorem ofBigEndian_bigEndian (n v : Nat) : ofBigEndian (bigEndian n v) = v % Nat.pow 256 n := by
  induction n generalizing v with
  | zero => simp [bigEndian, ofBigEndian, Nat.mod_one]
  | succ n ih =>
    have hd : (UInt8.ofNat v).toNat = v % 256 := by simp
    rw [bigEndian, ofBigEndian_append, ih, hd]
    show v / 256 % 256 ^ n * 256 + v % 256 = v % (256 ^ n * 256)
    rw [Nat.mul_comm (256 ^ n), Nat.mod_mul]
    omega

/-- The bytes of a text hold at least as many as it has. -/
theorem longEnough_append (s rest : Bytes) : longEnough s.length (s ++ rest) = true := by
  induction s with
  | nil => rfl
  | cons _ s ih => exact ih

theorem reads_take (s : Bytes) : Reads (take s.length) s s := by
  intro rest
  show (if longEnough s.length (s ++ rest) then _ else _ : Reader Bytes) (s ++ rest) = _
  rw [longEnough_append, if_pos rfl]
  show Except.ok ((s ++ rest).take s.length, (s ++ rest).drop s.length) = _
  simp

theorem reads_number {n v : Nat} (h : v < Nat.pow 256 n) : Reads (number n) (bigEndian n v) v := by
  have ht : Reads (take n) (bigEndian n v) (bigEndian n v) := by
    simpa only [length_bigEndian] using reads_take (bigEndian n v)
  have hv : ofBigEndian (bigEndian n v) = v := by
    rw [ofBigEndian_bigEndian, Nat.mod_eq_of_lt h]
  have h := ht.map ofBigEndian
  rwa [hv] at h

/-! ## Leading bytes -/

/-- A leading byte that says how wide the number behind it is. -/
theorem reads_head_number {c : UInt8} {n v : Nat} {g : Nat → Head}
    (hc : ∀ rest, head (c :: rest) = (number n >>= fun v => pure (g v) : Reader Head) rest)
    (h : v < Nat.pow 256 n) : Reads head (c :: bigEndian n v) (g v) := by
  intro rest
  rw [List.cons_append, hc]
  exact (reads_number h).map g rest

theorem reads_head_nil : Reads head nil .nil := fun _ => rfl

theorem reads_head_bool (b : Bool) : Reads head (bool b) (.bool b) := by
  cases b <;> exact fun _ => rfl

theorem reads_head_text {n : Nat} (h : n < 32) :
    Reads head [UInt8.ofNat (0xA0 + n)] (.text n) := by
  have hc : (UInt8.ofNat (0xA0 + n)).toNat = 0xA0 + n := by
    simp; omega
  intro rest
  show (if (UInt8.ofNat (0xA0 + n)).toNat < 0x80 then _ else _ : Reader Head) rest = _
  rw [hc, if_neg (by omega), if_neg (by omega), if_neg (by omega), if_pos (by omega),
    Nat.add_sub_cancel_left]
  rfl

theorem reads_head_array {n : Nat} (h : n < 16) :
    Reads head [UInt8.ofNat (0x90 + n)] (.array n) := by
  have hc : (UInt8.ofNat (0x90 + n)).toNat = 0x90 + n := by
    simp; omega
  intro rest
  show (if (UInt8.ofNat (0x90 + n)).toNat < 0x80 then _ else _ : Reader Head) rest = _
  rw [hc, if_neg (by omega), if_neg (by omega), if_pos (by omega), Nat.add_sub_cancel_left]
  rfl

theorem reads_head_map {n : Nat} (h : n < 16) :
    Reads head [UInt8.ofNat (0x80 + n)] (.map n) := by
  have hc : (UInt8.ofNat (0x80 + n)).toNat = 0x80 + n := by
    simp; omega
  intro rest
  show (if (UInt8.ofNat (0x80 + n)).toNat < 0x80 then _ else _ : Reader Head) rest = _
  rw [hc, if_neg (by omega), if_pos (by omega), Nat.add_sub_cancel_left]
  rfl

theorem reads_textHeader {n : Nat} (h : n < limit) : Reads head (textHeader n) (.text n) := by
  unfold textHeader
  split
  · exact reads_head_text ‹_›
  split
  · exact reads_head_number (fun _ => rfl) ‹_›
  split
  · exact reads_head_number (fun _ => rfl) ‹_›
  · exact reads_head_number (fun _ => rfl) h

theorem reads_arrayHeader {n : Nat} (h : n < limit) : Reads head (arrayHeader n) (.array n) := by
  unfold arrayHeader
  split
  · exact reads_head_array ‹_›
  split
  · exact reads_head_number (fun _ => rfl) ‹_›
  · exact reads_head_number (fun _ => rfl) h

/-! ## Values of one head -/

theorem reads_int {b : Bytes} {n : Int} (h : Reads head b (.int n)) : Reads readInt b n :=
  h.last rfl

/-- A number of `m` bits is not changed when it is cut to `m` bits. -/
theorem cut_eq {m v : Nat} (h : v < Nat.pow 2 m) :
    ((v : Int) % (Nat.pow 2 m : Nat)).toNat = v := by
  rw [← Int.natCast_emod, Nat.mod_eq_of_lt h, Int.toNat_natCast]

theorem reads_u8 (n : UInt8) : Reads readU8 (u8 n) n := by
  have h : Reads head (u8 n) (.int n.toNat) :=
    reads_head_number (g := fun v => .int v) (fun _ => rfl) n.toNat_lt
  have hn : UInt8.ofInt n.toNat = n :=
    (congrArg UInt8.ofNat (cut_eq n.toNat_lt)).trans UInt8.ofNat_toNat
  exact (reads_int h).last (congrArg pure hn)

theorem reads_u16 (n : UInt16) : Reads readU16 (u16 n) n := by
  have h : Reads head (u16 n) (.int n.toNat) :=
    reads_head_number (g := fun v => .int v) (fun _ => rfl) n.toNat_lt
  have hn : UInt16.ofInt n.toNat = n :=
    (congrArg UInt16.ofNat (cut_eq n.toNat_lt)).trans UInt16.ofNat_toNat
  exact (reads_int h).last (congrArg pure hn)

theorem reads_u32 (n : UInt32) : Reads readU32 (u32 n) n := by
  have h : Reads head (u32 n) (.int n.toNat) :=
    reads_head_number (g := fun v => .int v) (fun _ => rfl) n.toNat_lt
  have hn : UInt32.ofInt n.toNat = n :=
    (congrArg UInt32.ofNat (cut_eq n.toNat_lt)).trans UInt32.ofNat_toNat
  exact (reads_int h).last (congrArg pure hn)

/-- A number in two's complement is read with its sign. -/
theorem signed_i32 (n : Int32) : signed 4 n.toUInt32.toNat = n.toInt := by
  rw [signed, ← Int32.toInt_toBitVec, BitVec.toInt_eq_toNat_cond, Int32.toNat_toBitVec]
  have hlow : Nat.pow 2 (8 * 4 - 1) = 2147483648 := rfl
  have hhigh : Nat.pow 2 (8 * 4) = 4294967296 := rfl
  split <;> split <;> omega

@[inherit_doc signed_i32]
theorem signed_i64 (n : Int64) : signed 8 n.toUInt64.toNat = n.toInt := by
  rw [signed, ← Int64.toInt_toBitVec, BitVec.toInt_eq_toNat_cond, Int64.toNat_toBitVec]
  have hlow : Nat.pow 2 (8 * 8 - 1) = 9223372036854775808 := rfl
  have hhigh : Nat.pow 2 (8 * 8) = 18446744073709551616 := rfl
  split <;> split <;> omega

theorem reads_i32 (n : Int32) : Reads readI32 (i32 n) n := by
  have h : Reads head (i32 n) (.int (signed 4 n.toUInt32.toNat)) :=
    reads_head_number (g := fun v => .int (signed 4 v)) (fun _ => rfl) n.toUInt32.toNat_lt
  rw [signed_i32] at h
  exact (reads_int h).last (congrArg pure n.ofInt_toInt)

theorem reads_i64 (n : Int64) : Reads readI64 (i64 n) n := by
  have h : Reads head (i64 n) (.int (signed 8 n.toUInt64.toNat)) :=
    reads_head_number (g := fun v => .int (signed 8 v)) (fun _ => rfl) n.toUInt64.toNat_lt
  rw [signed_i64] at h
  exact (reads_int h).last (congrArg pure n.ofInt_toInt)

theorem reads_bool (b : Bool) : Reads readBool (bool b) b :=
  (reads_head_bool b).last rfl

theorem reads_double (bits : UInt64) : Reads readDouble (double bits) bits := by
  have h : Reads head (double bits) (.double bits.toNat) :=
    reads_head_number (g := .double) (fun _ => rfl) bits.toNat_lt
  exact h.last (congrArg pure UInt64.ofNat_toNat)

theorem reads_text {s : Bytes} (h : s.length < limit) : Reads readText (text s) s :=
  (reads_textHeader h).bind (reads_take s)

/-! ## Lists -/

section Lists

variable {α β : Type} {f : α → Bytes} {l : List α}

theorem reads_elements {r : Reader α} (h : ∀ x ∈ l, Reads r (f x) x) :
    Reads (elements r l.length) (l.map f).flatten l := by
  induction l with
  | nil => exact reads_pure []
  | cons x rest ih =>
    have hrest := ih fun y hy => h y (List.mem_cons_of_mem x hy)
    exact (h x List.mem_cons_self).bind (hrest.map (x :: ·))

/-- A list is read back from its elements when no earlier list stands in its place. -/
theorem reads_updateElements {zero : β} {update : Update β} {g : α → β}
    (h : ∀ x ∈ l, Reads (update zero) (f x) (g x)) :
    Reads (updateElements zero update l.length []) (l.map f).flatten (l.map g) := by
  induction l with
  | nil => exact reads_pure []
  | cons x rest ih =>
    have hrest := ih fun y hy => h y (List.mem_cons_of_mem x hy)
    exact (h x List.mem_cons_self).bind (hrest.map (g x :: ·))

theorem reads_list {l : List α} (hlen : l.length < limit) {k : Head → Reader β} {d : β}
    (hk : Reads (k (.array l.length)) (l.map f).flatten d) :
    Reads (head >>= k) (array (l.map f)) d := by
  have hhead := reads_arrayHeader hlen
  rw [← List.length_map (f := f)] at hhead
  exact hhead.bind (by rwa [List.length_map])

theorem reads_rows {r : Reader α} {rows : Option (List α)} (hlen : (rows.getD []).length < limit)
    (h : ∀ x ∈ rows.getD [], Reads r (f x) x) : Reads (readRows r) (Pack.rows f rows) rows := by
  cases rows with
  | none => exact reads_head_nil.last rfl
  | some l => exact reads_list hlen ((reads_elements h).map some)

/-- A list that was read with nothing behind its end. -/
def Slots.ofRows (rows : Option (List α)) : Slots α := ⟨rows, []⟩

/-- The elements that were read, with what was made of each taken back. -/
theorem Slots.items_ofRows {g : α → β} {k : β → α} (h : ∀ x, k (g x) = x)
    (rows : Option (List α)) :
    ((Slots.ofRows (rows.map (List.map g))).items.map fun l => l.map k) = rows := by
  cases rows with
  | none => rfl
  | some l =>
    have hid : k ∘ g = id := funext h
    simp [Slots.ofRows, hid]

/-- Elements that may be left out are all there, with what was made of each taken back. -/
theorem Slots.items_ofRows_there {g : α → β} {k : β → α} (h : ∀ x, k (g x) = x)
    (rows : Option (List α)) :
    ((Slots.ofRows (rows.map (List.map fun x => some (g x)))).items.map fun l =>
      l.filterMap fun y => y.map k) = rows := by
  cases rows with
  | none => rfl
  | some l =>
    have hsome : (fun y : Option β => y.map k) ∘ (fun x => some (g x)) = some :=
      funext fun x => congrArg some (h x)
    show some ((l.map fun x => some (g x)).filterMap fun y => y.map k) = some l
    rw [List.filterMap_map, hsome, List.filterMap_some]

/-- A list is read back when no list was read in its place before. -/
theorem reads_updateSlots {zero : β} {update : Update β} {g : α → β} {rows : Option (List α)}
    (hlen : (rows.getD []).length < limit)
    (h : ∀ x ∈ rows.getD [], Reads (update zero) (f x) (g x)) :
    Reads (updateSlots zero update {}) (Pack.rows f rows) (.ofRows (rows.map (List.map g))) := by
  cases rows with
  | none => exact reads_head_nil.last rfl
  | some l =>
    refine reads_list hlen ((reads_updateElements h).last ?_)
    show (pure ⟨some (l.map g), [].drop l.length⟩ : Reader (Slots β)) = _
    rw [List.drop_nil]
    rfl

@[inherit_doc reads_updateSlots]
theorem reads_slots {zero : α} {update : Update α} {rows : Option (List α)}
    (hlen : (rows.getD []).length < limit)
    (h : ∀ x ∈ rows.getD [], Reads (update zero) (f x) x) :
    Reads (updateSlots zero update {}) (Pack.rows f rows) (.ofRows rows) := by
  have hrows := reads_updateSlots (g := id) hlen h
  rwa [List.map_id_fun, Option.map_id] at hrows

end Lists

/-! ## Records -/

section Records

variable {α : Type}

/-- A field is read by its name, and the others behind it. -/
theorem entries_succ {fields : Fields α} {name value rest : Bytes} {update : Update α} {a b : α}
    {n : Nat} (hlen : name.length < limit) (hlook : fields.lookup name = some update)
    (h : Reads (update a) value b) :
    entries fields (n + 1) a (text name ++ (value ++ rest)) = entries fields n b rest := by
  rw [entries, (reads_text hlen).bind_append, hlook]
  exact h.bind_append rest

/-- The fields and the written values go together under their names: each value is read back by
its field, one after the other from the record `a` on, and the last one gives the record `b`. -/
inductive Aligned : List Bytes → Fields α → α → List (Bytes × Bytes) → α → Prop where
  | nil {a : α} : Aligned [] [] a [] a
  | cons {name value : Bytes} {update : Update α} {names : List Bytes} {fields : Fields α}
      {parts : List (Bytes × Bytes)} {a b c : α} (head : Reads (update a) value b)
      (rest : Aligned names fields b parts c) :
      Aligned (name :: names) ((name, update) :: fields) a ((name, value) :: parts) c

namespace Aligned

variable {names : List Bytes} {fields : Fields α} {a b : α} {parts : List (Bytes × Bytes)}

theorem names_eq (h : Aligned names fields a parts b) : fields.map Prod.fst = names := by
  induction h with
  | nil => rfl
  | cons _ _ ih => rw [List.map_cons, ih]

theorem length_eq (h : Aligned names fields a parts b) : parts.length = fields.length := by
  induction h with
  | nil => rfl
  | cons _ _ ih => rw [List.length_cons, List.length_cons, ih]

/-- Fields whose values were all written in their order are read back by name. -/
theorem reads_entries {all : Fields α} (h : Aligned names fields a parts b)
    (hname : ∀ p ∈ fields, p.1.length < limit ∧ all.lookup p.1 = some p.2) :
    Reads (entries all fields.length a) (parts.flatMap fun p => text p.1 ++ p.2) b := by
  induction h with
  | nil => exact reads_pure _
  | cons hhead _ ih =>
    intro rest
    obtain ⟨hlen, hlook⟩ := hname _ List.mem_cons_self
    rw [List.flatMap_cons, List.append_assoc, List.append_assoc, List.length_cons,
      entries_succ hlen hlook hhead]
    exact ih (fun p hp => hname p (List.mem_cons_of_mem _ hp)) rest

end Aligned

theorem lookup_of_nodup {fields : Fields α} (h : (fields.map Prod.fst).Nodup) :
    ∀ p ∈ fields, fields.lookup p.1 = some p.2 := by
  induction fields with
  | nil => exact fun _ hp => absurd hp List.not_mem_nil
  | cons q rest ih =>
    rw [List.map_cons, List.nodup_cons] at h
    intro p hp
    rcases List.mem_cons.mp hp with rfl | hp
    · rw [List.lookup_cons, beq_self_eq_true]
    · have hne : p.1 ≠ q.1 := fun he => h.1 (he ▸ List.mem_map_of_mem hp)
      rw [List.lookup_cons, beq_eq_false_iff_ne.mpr hne]
      exact ih h.2 p hp

/-- The names of the fields of a record are different and short, and there are few of them. -/
def distinct (names : List Bytes) : Bool :=
  names.length < 16 && names.all (·.length < 32) && decide names.Nodup

/-- Fields with distinct names are found by them. -/
theorem distinct_lookup {fields : Fields α} (h : distinct (fields.map Prod.fst) = true) :
    fields.length < 16 ∧ ∀ p ∈ fields, p.1.length < limit ∧ fields.lookup p.1 = some p.2 := by
  simp only [distinct, Bool.and_eq_true, decide_eq_true_eq, List.all_eq_true] at h
  obtain ⟨⟨hcount, hshort⟩, hnodup⟩ := h
  rw [List.length_map] at hcount
  exact ⟨hcount, fun p hp => ⟨Nat.lt_trans (hshort p.1 (List.mem_map_of_mem hp)) (by decide),
    lookup_of_nodup hnodup p hp⟩⟩

/-- A record is read back from its fields when no record was read in its place before. -/
theorem Aligned.reads {names : List Bytes} {fields : Fields α} {zero b : α}
    {parts : List (Bytes × Bytes)} (h : Aligned names fields zero parts b)
    (hn : distinct names = true) : Reads (readRecord zero fields) (record parts) b := by
  obtain ⟨hcount, hname⟩ := distinct_lookup (h.names_eq ▸ hn)
  have hheader : mapHeader parts.length = [UInt8.ofNat (0x80 + fields.length)] := by
    rw [mapHeader, h.length_eq, if_pos hcount]
  rw [record, hheader]
  exact (reads_head_map hcount).bind (h.reads_entries hname)

end Records

/-- A record does not begin like nothing. -/
theorem head?_record {parts : List (Bytes × Bytes)} (h : parts.length < 16) (rest : Bytes) :
    (record parts ++ rest).head? ≠ some 0xC0 := by
  have hfirst : ∀ n < 16, some (UInt8.ofNat (0x80 + n)) ≠ some 0xC0 := by decide
  rw [record, mapHeader, if_pos h]
  exact hfirst parts.length h

/-! ## Values that may be left out -/

section Optional

variable {α β : Type} {zero : β} {update : Update β}

theorem reads_optional_none : Reads (updateOptional zero update none) nil none := fun _ => rfl

/-- A value that does not begin like nothing is read back as one that is there. -/
theorem reads_optional_some {b : Bytes} {y : β} (hfirst : ∀ rest, (b ++ rest).head? ≠ some 0xC0)
    (h : Reads (update zero) b y) : Reads (updateOptional zero update none) b (some y) := by
  intro rest
  show (if (b ++ rest).head? = some 0xC0 then _ else update zero >>= fun y => pure (some y) :
    Reader (Option β)) (b ++ rest) = _
  rw [if_neg (hfirst rest)]
  exact h.map some rest

end Optional

/-! ## Lengths -/

/-- An element is not longer than the list. -/
theorem length_le_array {parts : List Bytes} {b : Bytes} (h : b ∈ parts) :
    b.length ≤ (array parts).length := by
  have hsub := (List.sublist_flatten_of_mem h).length_le
  rw [array, List.length_append]
  omega

theorem length_le_rows {α : Type} {f : α → Bytes} {rows : Option (List α)} {x : α}
    (h : x ∈ rows.getD []) : (f x).length ≤ (Pack.rows f rows).length := by
  cases rows with
  | none => exact absurd h List.not_mem_nil
  | some l => exact length_le_array (List.mem_map_of_mem h)

/-- A field is not longer than its record. -/
theorem length_le_record {parts : List (Bytes × Bytes)} {p : Bytes × Bytes} (h : p ∈ parts) :
    p.2.length ≤ (record parts).length := by
  have hsub := (List.sublist_flatten_of_mem (List.mem_map_of_mem
    (f := fun p : Bytes × Bytes => text p.1 ++ p.2) h)).length_le
  show p.2.length ≤ (mapHeader _ ++ parts.flatMap fun p => text p.1 ++ p.2).length
  rw [List.length_append] at hsub ⊢
  rw [List.flatMap_def]
  omega

end WastForge.Pack
