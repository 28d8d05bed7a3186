import WastForge.Proofs.Document.Packed

/-!
# What readers give

What holds of every value that a reader gives, whatever bytes it reads: texts and lists are no
longer than their lengths can be written, and a record has a property that its zero has and every
field keeps.
-/

namespace WastForge.Pack

/-- The property holds of every value that the reader gives. -/
def Gives {α : Type} (P : α → Prop) (r : Reader α) : Prop :=
  ∀ s a rest, r s = .ok (a, rest) → P a

section Gives

variable {α β : Type} {P : α → Prop} {Q : β → Prop} {r : Reader α} {f : α → Reader β}

theorem gives_pure {a : α} (h : P a) : Gives P (pure a) := by
  rintro s b rest ⟨⟩
  exact h

theorem gives_throw (e : Error) : Gives P (throw e) := by
  rintro s a rest ⟨⟩

theorem Gives.mono {P' : α → Prop} (h : Gives P r) (hp : ∀ a, P a → P' a) : Gives P' r :=
  fun s a rest hs => hp a (h s a rest hs)

theorem gives_any : Gives (fun _ => True) r := fun _ _ _ _ => trivial

theorem Gives.bind (h : Gives P r) (hf : ∀ a, P a → Gives Q (f a)) : Gives Q (r >>= f) := by
  intro s b rest hs
  change (r s >>= fun p => f p.1 p.2) = _ at hs
  cases hr : r s with
  | error e =>
    rw [hr] at hs
    cases hs
  | ok p =>
    rw [hr] at hs
    exact hf p.1 (h s p.1 p.2 hr) p.2 b rest hs

theorem Gives.map (h : Gives P r) {g : α → β} (hg : ∀ a, P a → Q (g a)) :
    Gives Q (r >>= fun x => pure (g x)) :=
  h.bind fun a ha => gives_pure (hg a ha)

end Gives

/-! ## Numbers and texts -/

theorem foldl_bytes_lt (b : Bytes) (n : Nat) :
    b.foldl (fun n d => n * 256 + d.toNat) n < (n + 1) * Nat.pow 256 b.length := by
  induction b generalizing n with
  | nil => exact Nat.lt_of_lt_of_eq (Nat.lt_succ_self n) (Nat.mul_one _).symm
  | cons d rest ih =>
    have hd : d.toNat < 256 := d.toNat_lt
    have hn : n * 256 + d.toNat + 1 ≤ (n + 1) * 256 := by omega
    calc rest.foldl _ (n * 256 + d.toNat)
        < (n * 256 + d.toNat + 1) * Nat.pow 256 rest.length := ih _
      _ ≤ (n + 1) * 256 * Nat.pow 256 rest.length := Nat.mul_le_mul_right _ hn
      _ = (n + 1) * (Nat.pow 256 rest.length * 256) := by rw [Nat.mul_assoc, Nat.mul_comm 256]

theorem ofBigEndian_lt (b : Bytes) : ofBigEndian b < Nat.pow 256 b.length := by
  have h := foldl_bytes_lt b 0
  rwa [Nat.zero_add, Nat.one_mul] at h

theorem length_of_longEnough {n : Nat} {s : Bytes} (h : longEnough n s = true) : n ≤ s.length := by
  induction n generalizing s with
  | zero => exact Nat.zero_le _
  | succ n ih =>
    cases s with
    | nil => cases h
    | cons b rest => exact Nat.succ_le_succ (ih h)

theorem gives_take (n : Nat) : Gives (fun b => b.length = n) (take n) := by
  intro s a rest h
  change (if longEnough n s = true then _ else _ : Reader Bytes) s = _ at h
  split at h
  · cases h
    exact List.length_take_of_le (length_of_longEnough ‹_›)
  · cases h

theorem gives_number (n : Nat) : Gives (fun v => v < Nat.pow 256 n) (number n) :=
  (gives_take n).map fun b hb => hb ▸ ofBigEndian_lt b

/-- The length that a head announces can be written. -/
def Head.Fits : Head → Prop
  | .text n | .array n => n < limit
  | _ => True

/-- A length is announced in four bytes at most. -/
theorem gives_head : Gives Head.Fits head := by
  refine gives_any.bind fun b _ => ?_
  have hb : b.toNat < 256 := b.toNat_lt
  have h1 : Nat.pow 256 1 < limit := by decide
  have h2 : Nat.pow 256 2 < limit := by decide
  have hshort : ∀ n, b.toNat - n < limit := fun n =>
    Nat.lt_of_le_of_lt (Nat.sub_le _ _) (Nat.lt_trans hb (by decide))
  dsimp only
  split
  · exact gives_pure trivial
  split
  · exact gives_pure trivial
  split
  · exact gives_pure (hshort _)
  split
  · exact gives_pure (hshort _)
  split
  · exact gives_pure trivial
  split
  all_goals first
    | exact gives_pure trivial
    | exact gives_throw _
    | exact gives_any.map fun _ _ => trivial
    | exact (gives_number 1).map fun _ hn => Nat.lt_trans hn h1
    | exact (gives_number 2).map fun _ hn => Nat.lt_trans hn h2
    | exact (gives_number 4).map fun _ hn => hn

theorem gives_text : Gives (fun s => s.length < limit) readText := by
  refine gives_head.bind fun h hh => ?_
  cases h with
  | nil => exact gives_pure limit_pos
  | text n => exact (gives_take n).mono fun s hs => Nat.lt_of_le_of_lt (Nat.le_of_eq hs) hh
  | _ => exact gives_throw _

/-! ## Lists -/

section Lists

variable {α : Type} {P : α → Prop}

theorem gives_elements {r : Reader α} (h : Gives P r) (n : Nat) :
    Gives (fun l => l.length = n ∧ ∀ x ∈ l, P x) (elements r n) := by
  induction n with
  | zero => exact gives_pure (by simp)
  | succ n ih =>
    refine h.bind fun a ha => ih.map fun l hl => ⟨by rw [List.length_cons, hl.1], ?_⟩
    exact List.forall_mem_cons.mpr ⟨ha, hl.2⟩

theorem gives_rows {r : Reader α} (h : Gives P r) :
    Gives (fun rows => (rows.getD []).length < limit ∧ ∀ x ∈ rows.getD [], P x) (readRows r) := by
  refine gives_head.bind fun hd hh => ?_
  cases hd with
  | nil => exact gives_pure ⟨limit_pos, fun _ hx => absurd hx List.not_mem_nil⟩
  | array n =>
    exact (gives_elements h n).map fun l hl => ⟨Nat.lt_of_le_of_lt (Nat.le_of_eq hl.1) hh, hl.2⟩
  | _ => exact gives_throw _

/-- The elements have the property, those behind the end included, and the length of the list can
be written. -/
def Slots.All (P : α → Prop) (s : Slots α) : Prop :=
  (s.items.getD []).length < limit ∧ ∀ x ∈ s.all, P x

theorem Slots.all_empty : Slots.All P {} := ⟨limit_pos, fun _ hx => absurd hx List.not_mem_nil⟩

theorem Slots.All.items {s : Slots α} (h : s.All P) : ∀ x ∈ s.items.getD [], P x :=
  fun x hx => h.2 x (List.mem_append_left _ hx)

theorem gives_updateElements {zero : α} {update : Update α} (hzero : P zero)
    (hu : ∀ a, P a → Gives P (update a)) (n : Nat) {old : List α} (hold : ∀ x ∈ old, P x) :
    Gives (fun l => l.length = n ∧ ∀ x ∈ l, P x) (updateElements zero update n old) := by
  induction n generalizing old with
  | zero => exact gives_pure (by simp)
  | succ n ih =>
    have hhead : P (old.headD zero) := by
      cases old with
      | nil => exact hzero
      | cons a rest => exact hold a List.mem_cons_self
    refine (hu _ hhead).bind fun a ha =>
      (ih fun x hx => hold x (List.mem_of_mem_tail hx)).map fun l hl => ⟨?_, ?_⟩
    · rw [List.length_cons, hl.1]
    · exact List.forall_mem_cons.mpr ⟨ha, hl.2⟩

/-- A list that is read over an earlier one has the property if the earlier one has it. -/
theorem gives_updateSlots {zero : α} {update : Update α} {old : Slots α} (hzero : P zero)
    (hu : ∀ a, P a → Gives P (update a)) (hold : old.All P) :
    Gives (Slots.All P) (updateSlots zero update old) := by
  refine gives_head.bind fun hd hh => ?_
  cases hd with
  | nil => exact gives_pure Slots.all_empty
  | array n =>
    refine (gives_updateElements hzero hu n hold.2).map fun l hl => ⟨?_, fun x hx => ?_⟩
    · exact Nat.lt_of_le_of_lt (Nat.le_of_eq hl.1) hh
    · rcases List.mem_append.mp hx with hx | hx
      · exact hl.2 x hx
      · exact hold.2 x (List.mem_of_mem_drop hx)
  | _ => exact gives_throw _

end Lists

/-! ## Values that may be left out -/

/-- A value that is there has the property if the one it is read over has it, or is left out. -/
theorem gives_updateOptional {α : Type} {P : α → Prop} {zero : α} {update : Update α}
    (hzero : P zero) (hu : ∀ a, P a → Gives P (update a)) (old : Option α)
    (hold : ∀ a ∈ old, P a) : Gives (fun o => ∀ a ∈ o, P a) (updateOptional zero update old) := by
  have hfrom : P (old.getD zero) := by
    cases old with
    | none => exact hzero
    | some a => exact hold a rfl
  refine gives_any.bind fun s _ => ?_
  split
  · exact gives_any.bind fun _ _ => gives_pure nofun
  · exact (hu _ hfrom).map fun a ha _ h => Option.some.inj h ▸ ha

/-! ## Records -/

section Records

variable {α β : Type} {P : α → Prop} {Q : β → Prop} {fields : Fields α} {zero old : α}

/-- Every field keeps the property of the record it is read into. -/
def Kept (P : α → Prop) (fields : Fields α) : Prop :=
  ∀ p ∈ fields, ∀ a, P a → Gives P (p.2 a)

theorem kept_nil : Kept P [] := fun _ hp => absurd hp List.not_mem_nil

theorem Kept.cons {name : Bytes} {update : Update α} (h : ∀ a, P a → Gives P (update a))
    (hrest : Kept P fields) : Kept P ((name, update) :: fields) :=
  List.forall_mem_cons.mpr ⟨h, hrest⟩

theorem mem_of_lookup {name : Bytes} {update : Update α} (h : fields.lookup name = some update) :
    ∃ p ∈ fields, p.2 = update := by
  induction fields with
  | nil => cases h
  | cons q rest ih =>
    rw [List.lookup_cons] at h
    split at h
    · exact ⟨q, List.mem_cons_self, Option.some.inj h⟩
    · obtain ⟨p, hp, he⟩ := ih h
      exact ⟨p, List.mem_cons_of_mem q hp, he⟩

theorem gives_entries (hf : Kept P fields) (n : Nat) {a : α} (ha : P a) :
    Gives P (entries fields n a) := by
  induction n generalizing a with
  | zero => exact gives_pure ha
  | succ n ih =>
    refine gives_any.bind fun name _ => ?_
    cases h : fields.lookup name with
    | none => exact gives_any.bind fun _ _ => ih ha
    | some update =>
      obtain ⟨p, hp, rfl⟩ := mem_of_lookup h
      exact (hf p hp a ha).bind fun b hb => ih hb

theorem gives_positional (hf : Kept P fields) {a : α} (ha : P a) :
    Gives P (positional fields a) := by
  induction fields generalizing a with
  | nil => exact gives_pure ha
  | cons q rest ih =>
    rw [Kept, List.forall_mem_cons] at hf
    exact (hf.1 a ha).bind fun b hb => ih hf.2 hb

/-- A record has every property that its zero has, the earlier record has and its fields keep. -/
theorem gives_updateRecord (hf : Kept P fields) (hzero : P zero) (hold : P old) :
    Gives P (updateRecord zero fields old) := by
  refine gives_any.bind fun hd _ => ?_
  cases hd with
  | nil => exact gives_pure hzero
  | map n => exact gives_entries hf n hold
  | array n =>
    dsimp only
    split
    · exact gives_pure hzero
    split
    · exact gives_positional hf hold
    · exact gives_throw _
  | _ => exact gives_throw _

theorem gives_record {f : α → Reader β} (hf : Kept P fields) (hzero : P zero)
    (hq : ∀ a, P a → Gives Q (f a)) : Gives Q (readRecord zero fields >>= f) :=
  (gives_updateRecord hf hzero hzero).bind hq

end Records

end WastForge.Pack
