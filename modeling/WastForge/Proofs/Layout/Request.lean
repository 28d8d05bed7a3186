import WastForge.Proofs.Layout.Arena

/-!
# Requests to an arena

An arena is asked for strings and for static fields. Every request finds an entry that is there,
places a new one behind all others, or fails and leaves all entries as they are. So the layout of
the memory is sound after any requests in any order.

A call for a block of memory is answered with the end of what is given away so far, and moves that
end by a whole number of slots. Whether there is room is decided in 64 bits. So the end stays an
address whatever was asked for, but slots that lead past the last number of 64 bits are granted too,
and move the end back. All calls that stay below that number are answered as they should be, and
their blocks do not overlap.
-/

namespace WastForge.Arena

section

variable {α β : Type} {a b : Arena} {r : Except LayoutError β}

/-- The work leads from one arena to another, with a result or a failure. -/
def Leads (act : ArenaM α) (a : Arena) (r : Except LayoutError α) (b : Arena) : Prop :=
  act.run.run a = (r, b)

theorem leads_pure {x : β} (h : Leads (pure x) a r b) : r = .ok x ∧ b = a :=
  ⟨(congrArg Prod.fst h).symm, (congrArg Prod.snd h).symm⟩

theorem leads_throw {e : LayoutError} (h : Leads (throw e) a r b) : r = .error e ∧ b = a :=
  ⟨(congrArg Prod.fst h).symm, (congrArg Prod.snd h).symm⟩

theorem leads_bind {act : ArenaM α} {f : α → ArenaM β} (h : Leads (act >>= f) a r b) :
    (∃ x c, Leads act a (.ok x) c ∧ Leads (f x) c r b)
      ∨ ∃ e, r = .error e ∧ Leads act a (.error e) b := by
  unfold Leads at h ⊢
  rw [ExceptT.run_bind, StateT.run_bind] at h
  rcases hact : act.run.run a with ⟨e | x, c⟩
  · rw [hact] at h
    obtain ⟨rfl, rfl⟩ := Prod.mk.inj h
    exact .inr ⟨e, rfl, rfl⟩
  · rw [hact] at h
    exact .inl ⟨x, c, rfl, h⟩

theorem leads_get_bind {f : Arena → ArenaM β} (h : Leads (get >>= f) a r b) : Leads (f a) a r b :=
  h

theorem leads_set_bind {c : Arena} {f : PUnit → ArenaM β} (h : Leads (set c >>= f) a r b) :
    Leads (f ⟨⟩) c r b :=
  h

theorem leads_modify_bind {g : Arena → Arena} {f : PUnit → ArenaM β}
    (h : Leads (modify g >>= f) a r b) : Leads (f ⟨⟩) (g a) r b :=
  h

end

section

variable {a b : Arena}

theorem find?_concat {α : Type} {f : α → Bool} {l : List α} {x : α} (h : l.find? f = none)
    (hx : f x) : (l ++ [x]).find? f = some x := by
  rw [List.find?_append, h, Option.none_or, List.find?_cons, hx]

theorem leads_reserve {size : UInt64} {r : Except LayoutError UInt32}
    (h : Leads (reserve size) a r b) :
    (r = .ok a.total.toUInt32 ∧ b = a.grown size ∧ a.HasRoom size)
      ∨ r = .error .overflow ∧ b = a ∧ ¬a.HasRoom size := by
  have h := leads_get_bind h
  split at h
  · rename_i hroom
    have h := leads_set_bind h
    obtain ⟨rfl, rfl⟩ := leads_pure h
    exact .inl ⟨rfl, rfl, by simpa [HasRoom] using hroom⟩
  · rename_i hroom
    obtain ⟨hr, hb⟩ := leads_throw h
    exact .inr ⟨hr, hb, by simpa [HasRoom] using hroom⟩

/-- The string has a slot or gets one, unless it has no Latin-1 form or there is no room for it. -/
theorem leads_placeString {content : Bytes} {r : Except LayoutError StringSlot}
    (h : Leads (placeString content) a r b) :
    (∃ s, a.string? content = some s ∧ r = .ok s ∧ b = a)
      ∨ a.string? content = none
        ∧ ((∃ chars, Latin1.encode? content = some chars ∧ chars.length < 0x100000000
            ∧ a.HasRoom (UInt64.ofNat chars.length + 8) ∧ r = .ok (a.newString content chars)
            ∧ b = { a.grown (UInt64.ofNat chars.length + 8) with
                strings := a.strings ++ [a.newString content chars] })
          ∨ (∃ e, r = .error e) ∧ b = a ∧ ∀ chars, Latin1.encode? content = some chars →
            0x100000000 ≤ chars.length ∨ ¬a.HasRoom (UInt64.ofNat chars.length + 8)) := by
  have h := leads_get_bind h
  cases hknown : a.string? content with
  | some s =>
    rw [hknown] at h
    obtain ⟨rfl, rfl⟩ := leads_pure h
    exact .inl ⟨s, rfl, rfl, rfl⟩
  | none =>
    refine .inr ⟨rfl, ?_⟩
    rw [hknown] at h
    cases hchars : Latin1.encode? content with
    | none =>
      rw [hchars] at h
      obtain ⟨rfl, rfl⟩ := leads_throw h
      exact .inr ⟨⟨_, rfl⟩, rfl, fun _ hc => nomatch hc⟩
    | some chars =>
      simp only [hchars] at h
      split at h
      · rename_i hlength
        obtain ⟨rfl, rfl⟩ := leads_throw h
        refine .inr ⟨⟨_, rfl⟩, rfl, fun chars' hc => .inl ?_⟩
        rwa [← Option.some.inj hc]
      · rename_i hlength
        rcases leads_bind h with ⟨offset, c, hreserve, hrest⟩ | ⟨e, rfl, hreserve⟩
        · rcases leads_reserve hreserve with ⟨hoffset, rfl, hroom⟩ | ⟨hoverflow, _⟩
          · obtain rfl := Except.ok.inj hoffset
            have hrest := leads_modify_bind hrest
            obtain ⟨rfl, rfl⟩ := leads_pure hrest
            exact .inl ⟨chars, rfl, Nat.lt_of_not_le hlength, hroom, rfl, rfl⟩
          · cases hoverflow
        · rcases leads_reserve hreserve with ⟨hok, _⟩ | ⟨_, rfl, hroom⟩
          · cases hok
          · refine .inr ⟨⟨_, rfl⟩, rfl, fun chars' hc => .inr ?_⟩
            rwa [← Option.some.inj hc]

theorem leads_sizeOf {id : TypeId} {r : Except LayoutError UInt32} (h : Leads (sizeOf id) a r b) :
    r = (a.types.sizeOf id a.sizes).1 ∧ b = a.sized id := by
  have h := leads_get_bind h
  have h := leads_set_bind h
  simp only at h
  split at h
  · rename_i n hn
    obtain ⟨rfl, rfl⟩ := leads_pure h
    exact ⟨hn.symm, rfl⟩
  · rename_i e he
    obtain ⟨rfl, rfl⟩ := leads_throw h
    exact ⟨he.symm, rfl⟩

/-- The field has a slot or gets one, unless its type has no size or there is no room for it. -/
theorem leads_placeField {field : MemberRef} {type : TypeId} {readOnly : Bool}
    {r : Except LayoutError FieldSlot} (h : Leads (placeField field type readOnly) a r b) :
    (∃ f, a.field? field = some f ∧ r = .ok f ∧ b = a)
      ∨ a.field? field = none
        ∧ ((∃ size, (a.types.sizeOf type a.sizes).1 = .ok size ∧ a.HasRoom size.toUInt64
            ∧ r = .ok (a.newField field type readOnly size)
            ∧ b = { (a.sized type).grown size.toUInt64 with
                fields := a.fields ++ [a.newField field type readOnly size] })
          ∨ ∃ e, r = .error e ∧ b = a.sized type
            ∧ ((∃ size, (a.types.sizeOf type a.sizes).1 = .ok size ∧ e = .overflow
                ∧ ¬a.HasRoom size.toUInt64)
              ∨ (a.types.sizeOf type a.sizes).1 = .error e)) := by
  have h := leads_get_bind h
  cases hknown : a.field? field with
  | some f =>
    rw [hknown] at h
    obtain ⟨rfl, rfl⟩ := leads_pure h
    exact .inl ⟨f, rfl, rfl, rfl⟩
  | none =>
    refine .inr ⟨rfl, ?_⟩
    rw [hknown] at h
    rcases leads_bind h with ⟨size, c, hsize, hrest⟩ | ⟨e, rfl, hsize⟩
    · obtain ⟨hfound, rfl⟩ := leads_sizeOf hsize
      rcases leads_bind hrest with ⟨offset, c, hreserve, hrest⟩ | ⟨e, rfl, hreserve⟩
      · rcases leads_reserve hreserve with ⟨hoffset, rfl, hroom⟩ | ⟨hoverflow, _⟩
        · obtain rfl := Except.ok.inj hoffset
          have hrest := leads_modify_bind hrest
          obtain ⟨rfl, rfl⟩ := leads_pure hrest
          exact .inl ⟨size, hfound.symm, hroom, rfl, rfl⟩
        · cases hoverflow
      · rcases leads_reserve hreserve with ⟨hok, _⟩ | ⟨herror, rfl, hroom⟩
        · cases hok
        · exact .inr ⟨e, rfl, rfl, .inl ⟨size, hfound.symm, Except.error.inj herror, hroom⟩⟩
    · obtain ⟨hfound, rfl⟩ := leads_sizeOf hsize
      exact .inr ⟨e, rfl, rfl, .inr hfound.symm⟩

end

/-- What an arena can be asked for. -/
inductive Request where
  | string (content : Bytes)
  /-- The string that stands for a missing one. -/
  | nullString
  | field (ref : MemberRef) (type : TypeId) (readOnly : Bool)
  deriving Repr, DecidableEq

/-- What an arena answers with. -/
inductive Entry where
  | string (s : StringSlot)
  | field (f : FieldSlot)
  deriving Repr, DecidableEq

namespace Entry

/-- Where the slot starts. -/
def offset : Entry → Nat
  | .string s => s.offset.toNat
  | .field f => f.offset.toNat

/-- The bytes of the slot. -/
def width : Entry → Nat
  | .string s => s.size.toNat
  | .field f => f.width

/-- Where the slot ends. -/
def stop (x : Entry) : Nat := x.offset + x.width

/-- The bytes that are used: the length and the characters of a string, or a value. -/
def payload : Entry → Nat
  | .string s => 4 + s.chars.length
  | .field f => f.size.toNat

/-- What the slot is for: the contents of a string, or a field. -/
def key : Entry → Bytes ⊕ MemberRef
  | .string s => .inl s.content
  | .field f => .inr f.field

/-- The slot holds what it is for: characters in Latin-1, or a value of a type with a size. -/
def IsFor (types : TypeTable) : Entry → Prop
  | .string s => Latin1.encode? s.content = some s.chars
  | .field f => types.HasSize f.type f.size

end Entry

namespace Request

/-- What is asked for. -/
def key : Request → Bytes ⊕ MemberRef
  | .string content => .inl content
  | .nullString => .inl []
  | .field ref _ _ => .inr ref

/-- Find or place an entry. -/
def serve : Request → ArenaM Entry
  | .string content => do return .string (← placeString content)
  | .nullString => do return .string (← placeString [])
  | .field ref type readOnly => do return .field (← placeField ref type readOnly)

end Request

/-- Ask for an entry. -/
def ask (a : Arena) (r : Request) : Except LayoutError Entry × Arena := r.serve.run.run a

/-- The arena after requests. -/
def askAll (a : Arena) (requests : List Request) : Arena :=
  requests.foldl (fun a r => (a.ask r).2) a

/-- All entries: the table of strings and the table of fields. -/
def entries (a : Arena) : List Entry := a.stringTable.map .string ++ a.fieldTable.map .field

/-- The entry that is there for a key. -/
def lookup? (a : Arena) : Bytes ⊕ MemberRef → Option Entry
  | .inl content => (a.string? content).map .string
  | .inr ref => (a.field? ref).map .field

/-- A new entry can be placed: a string has a Latin-1 form, the type of a field has a size, and the
slot ends below the last address. -/
def Fits (a : Arena) (r : Request) : Prop :=
  match r, r.key with
  | .field _ type _, _ =>
    ∃ n, a.types.HasSize type n ∧ a.total.toNat + slotSize n.toNat < 0x100000000
  | _, .inl content =>
    ∃ chars, Latin1.encode? content = some chars
      ∧ a.total.toNat + slotSize (chars.length + 8) < 0x100000000
  | _, .inr _ => False

variable {a b : Arena}

/-- What asking can do: find an entry, place one, or fail. -/
inductive Asked (a : Arena) (r : Request) : Except LayoutError Entry → Arena → Prop where
  | found {x : Entry} (h : a.lookup? r.key = some x) : Asked a r (.ok x) a
  | placed {x : Entry} {b : Arena} (hnew : a.lookup? r.key = none) (hfits : a.Fits r)
    (hstep : Step (fun _ _ => True) a b) (hx : b.lookup? r.key = some x) : Asked a r (.ok x) b
  | failed {e : LayoutError} {b : Arena} (hnew : a.lookup? r.key = none) (hfits : ¬a.Fits r)
    (hb : b = a ∨ ∃ type, b = a.sized type) : Asked a r (.error e) b

theorem ask_map {α : Type} {act : ArenaM α} {f : α → Entry} {r : Request}
    (h : r.serve = do return f (← act)) : ∃ x b, Leads act a x b ∧ a.ask r = (x.map f, b) := by
  rcases hact : act.run.run a with ⟨x, b⟩
  refine ⟨x, b, hact, ?_⟩
  unfold ask
  rw [h, ExceptT.run_bind, StateT.run_bind, hact]
  cases x with
  | error e => rfl
  | ok x => rfl

theorem fits_string (ha : a.Sound) {content chars : Bytes} {r : Request}
    (hserve : r = .string content ∨ r = .nullString ∧ content = [])
    (hchars : Latin1.encode? content = some chars) :
    a.Fits r ↔ chars.length < 0x100000000 ∧ a.HasRoom (UInt64.ofNat chars.length + 8) := by
  have hfits : a.Fits r ↔ ∃ chars, Latin1.encode? content = some chars
      ∧ a.total.toNat + slotSize (chars.length + 8) < 0x100000000 := by
    rcases hserve with rfl | ⟨rfl, rfl⟩ <;> rfl
  rw [hfits, hchars, ha.total]
  have hspec := slotSize_spec (chars.length + 8)
  constructor
  · rintro ⟨_, hc, hlt⟩
    obtain rfl := Option.some.inj hc
    have hlength : chars.length < 0x100000000 := by omega
    have hsize := toNat_stringSize hlength
    exact ⟨hlength, (ha.hasRoom_iff (by omega)).mpr (by rwa [hsize])⟩
  · rintro ⟨hlength, hroom⟩
    have hsize := toNat_stringSize hlength
    have hlt := (ha.hasRoom_iff (by omega)).mp hroom
    exact ⟨chars, rfl, by rwa [hsize] at hlt⟩

theorem asked_string (ha : a.Sound) {content : Bytes} {r : Request}
    (hr : r = .string content ∨ r = .nullString ∧ content = []) :
    Asked a r (a.ask r).1 (a.ask r).2 := by
  have hkey : r.key = .inl content := by rcases hr with rfl | ⟨rfl, rfl⟩ <;> rfl
  have hserve : r.serve = do return .string (← placeString content) := by
    rcases hr with rfl | ⟨rfl, rfl⟩ <;> rfl
  obtain ⟨x, b, hleads, hask⟩ := ask_map (a := a) hserve
  rw [hask]
  rcases leads_placeString hleads with ⟨s, hs, rfl, rfl⟩ | ⟨hnone, hnew | ⟨⟨e, rfl⟩, rfl, hwhy⟩⟩
  · exact .found (by rw [hkey, lookup?, hs, Option.map_some])
  · obtain ⟨chars, hchars, hlength, hroom, rfl, rfl⟩ := hnew
    refine .placed ?_ ((fits_string ha hr hchars).mpr ⟨hlength, hroom⟩)
      (.string hnone hchars hlength hroom) ?_
    · rw [hkey, lookup?, hnone, Option.map_none]
    · have hslot := find?_concat (x := a.newString content chars) hnone (beq_iff_eq.mpr rfl)
      rw [hkey, lookup?, string?, hslot, Option.map_some]
  · refine .failed ?_ (fun hfits => ?_) (.inl rfl)
    · rw [hkey, lookup?, hnone, Option.map_none]
    · have hchars : ∃ chars, Latin1.encode? content = some chars := by
        rcases hr with rfl | ⟨rfl, rfl⟩ <;> obtain ⟨chars, hchars, _⟩ := hfits <;>
          exact ⟨chars, hchars⟩
      obtain ⟨chars, hchars⟩ := hchars
      obtain ⟨hlength, hroom⟩ := (fits_string ha hr hchars).mp hfits
      exact (hwhy chars hchars).elim (Nat.not_le.mpr hlength) (· hroom)

theorem asked_field (ha : a.Sound) (field : MemberRef) (type : TypeId) (readOnly : Bool) :
    Asked a (.field field type readOnly) (a.ask (.field field type readOnly)).1
      (a.ask (.field field type readOnly)).2 := by
  obtain ⟨x, b, hleads, hask⟩ := ask_map (a := a) (r := .field field type readOnly) rfl
  have hsize := (a.types.finds_sizeOf type a.sizes ha.known).1
  have hroom : ∀ n : UInt32, a.HasRoom n.toUInt64
      ↔ a.total.toNat + slotSize n.toNat < 0x100000000 := by
    intro n
    have hlt := n.toNat_lt
    have hn : n.toUInt64.toNat = n.toNat := UInt32.toNat_toUInt64 n
    rw [ha.hasRoom_iff (by omega), ha.total, hn]
  rw [hask]
  rcases leads_placeField hleads with ⟨f, hf, rfl, rfl⟩ | ⟨hnone, hnew | ⟨e, rfl, rfl, hwhy⟩⟩
  · exact .found (by rw [Request.key, lookup?, hf, Option.map_some])
  · obtain ⟨size, hfound, hfree, rfl, rfl⟩ := hnew
    refine .placed ?_ ⟨size, (hsize size).mp hfound, (hroom size).mp hfree⟩
      (.field trivial hnone hfound hfree) ?_
    · rw [Request.key, lookup?, hnone, Option.map_none]
    · have hslot := find?_concat (x := a.newField field type readOnly size) hnone
        (decide_eq_true rfl)
      rw [Request.key, lookup?, field?, hslot, Option.map_some]
  · refine .failed ?_ ?_ (.inr ⟨type, rfl⟩)
    · rw [Request.key, lookup?, hnone, Option.map_none]
    · rintro ⟨n, hn, hlt⟩
      have hok := (hsize n).mpr hn
      rcases hwhy with ⟨size, hfound, -, hfull⟩ | hfound
      · obtain rfl := Except.ok.inj (hok.symm.trans hfound)
        exact hfull ((hroom n).mpr hlt)
      · cases hok.symm.trans hfound

/-- Asking finds an entry, places one, or fails. -/
theorem asked (ha : a.Sound) (r : Request) : Asked a r (a.ask r).1 (a.ask r).2 := by
  cases r with
  | string content => exact asked_string ha (.inl rfl)
  | nullString => exact asked_string ha (.inr ⟨rfl, rfl⟩)
  | field field type readOnly => exact asked_field ha field type readOnly

theorem Asked.steps {r : Request} {x : Except LayoutError Entry} (h : Asked a r x b) :
    Steps (fun _ _ => True) a b := by
  cases h with
  | found => exact .refl
  | placed _ _ hstep => exact .single hstep
  | failed _ _ hb =>
    rcases hb with rfl | ⟨type, rfl⟩
    · exact .refl
    · exact .single (.sizes a type)

theorem steps_askAll (ha : a.Sound) (requests : List Request) :
    Steps (fun _ _ => True) a (a.askAll requests) := by
  induction requests generalizing a with
  | nil => exact .refl
  | cons r requests ih =>
    have hfirst := (asked ha r).steps
    exact hfirst.trans (ih (hfirst.sound ha))

theorem Extends.lookup? (h : Extends a b) {key : Bytes ⊕ MemberRef} {x : Entry}
    (hx : a.lookup? key = some x) : b.lookup? key = some x := by
  cases key with
  | inl content =>
    obtain ⟨s, hs, rfl⟩ := Option.map_eq_some_iff.mp hx
    rw [Arena.lookup?, h.string? hs, Option.map_some]
  | inr field =>
    obtain ⟨f, hf, rfl⟩ := Option.map_eq_some_iff.mp hx
    rw [Arena.lookup?, h.field? hf, Option.map_some]

theorem key_of_lookup? {key : Bytes ⊕ MemberRef} {x : Entry} (h : a.lookup? key = some x) :
    x.key = key := by
  cases key with
  | inl content =>
    obtain ⟨s, hs, rfl⟩ := Option.map_eq_some_iff.mp h
    have hcontent := List.find?_some hs
    exact congrArg _ (beq_iff_eq.mp hcontent)
  | inr field =>
    obtain ⟨f, hf, rfl⟩ := Option.map_eq_some_iff.mp h
    have hfield := List.find?_some hf
    exact congrArg _ (of_decide_eq_true hfield)

theorem mem_entries_of_lookup? (ha : a.Sound) {key : Bytes ⊕ MemberRef} {x : Entry}
    (h : a.lookup? key = some x) : x ∈ a.entries := by
  unfold entries
  rw [ha.stringTable, ha.fieldTable]
  cases key with
  | inl content =>
    obtain ⟨s, hs, rfl⟩ := Option.map_eq_some_iff.mp h
    exact List.mem_append_left _ (List.mem_map_of_mem (List.mem_of_find?_eq_some hs))
  | inr field =>
    obtain ⟨f, hf, rfl⟩ := Option.map_eq_some_iff.mp h
    exact List.mem_append_right _ (List.mem_map_of_mem (List.mem_of_find?_eq_some hf))

/-- What holds of the entries of an arena behind a heap. -/
structure LaidOut (heapSize : UInt32) (a : Arena) : Prop where
  /-- Slots lie behind the heap and before the end. -/
  inside : ∀ x ∈ a.entries, heapSize.toNat ≤ x.offset ∧ x.stop ≤ a.total.toNat
  /-- Slots start a multiple of eight bytes behind the heap. -/
  aligned : ∀ x ∈ a.entries, ∃ k, x.offset = heapSize.toNat + 8 * k
  /-- Slots are large enough for what they are for. -/
  covers : ∀ x ∈ a.entries, x.IsFor a.types ∧ x.payload ≤ x.width
  /-- No two slots overlap. -/
  disjoint : a.entries.Pairwise fun x y => x.stop ≤ y.offset ∨ y.stop ≤ x.offset
  /-- The end is where the heap and all slots end. -/
  total : a.total.toNat = heapSize.toNat + (a.entries.map Entry.width).sum
  /-- The end is an address. -/
  bound : a.total.toNat ≤ 0xFFFFFFFF
  strings : a.stringTable.Pairwise fun s t => s.offset < t.offset
  fields : a.fieldTable.Pairwise fun f g => f.offset < g.offset

theorem forall_mem_entries (ha : a.Sound) {P : Entry → Prop} :
    (∀ x ∈ a.entries, P x) ↔ (∀ s ∈ a.strings, P (.string s)) ∧ ∀ f ∈ a.fields, P (.field f) := by
  rw [entries, ha.stringTable, ha.fieldTable, List.forall_mem_append, List.forall_mem_map,
    List.forall_mem_map]

theorem Sound.laidOut (ha : a.Sound) : LaidOut a.heapSize a := by
  have haligned : ∀ {n : Nat}, a.heapSize.toNat ≤ n → 8 ∣ n - a.heapSize.toNat →
      ∃ k, n = a.heapSize.toNat + 8 * k :=
    fun {n} hle ⟨k, hk⟩ => ⟨k, by omega⟩
  constructor
  case inside =>
    rw [ha.total]
    exact (forall_mem_entries ha).mpr ⟨fun s hs => ⟨(ha.string s hs).start, (ha.string s hs).stop⟩,
      fun f hf => ⟨(ha.field f hf).start, (ha.field f hf).stop⟩⟩
  case aligned =>
    exact (forall_mem_entries ha).mpr
      ⟨fun s hs => haligned (ha.string s hs).start (ha.string s hs).aligned,
        fun f hf => haligned (ha.field f hf).start (ha.field f hf).aligned⟩
  case covers =>
    refine (forall_mem_entries ha).mpr ⟨fun s hs => ⟨(ha.string s hs).chars, ?_⟩,
      fun f hf => ⟨(ha.field f hf).size, (slotSize_spec _).1⟩⟩
    have hwidth : Entry.width (.string s) = slotSize (s.chars.length + 8) := (ha.string s hs).size
    have hspec := slotSize_spec (s.chars.length + 8)
    rw [hwidth, Entry.payload]
    omega
  case disjoint =>
    rw [entries, ha.stringTable, ha.fieldTable, List.pairwise_append, List.pairwise_map,
      List.pairwise_map]
    refine ⟨ha.strings.imp .inl, ha.fields.imp .inl, List.forall_mem_map.mpr fun s hs => ?_⟩
    exact List.forall_mem_map.mpr (ha.apart s hs)
  case total =>
    rw [ha.total, stop, ha.used, entries, ha.stringTable, ha.fieldTable, List.map_append,
      List.map_map, List.map_map, List.sum_append]
    rfl
  case bound =>
    rw [ha.total]
    exact Nat.le_of_lt_succ ha.bound
  case strings =>
    rw [ha.stringTable]
    refine ha.strings.imp_of_mem fun {s t} hs _ hst => UInt32.lt_iff_toNat_lt.mpr ?_
    have hsize := (ha.string s hs).size
    have hspec := slotSize_spec (s.chars.length + 8)
    unfold StringSlot.stop at hst
    omega
  case fields =>
    rw [ha.fieldTable]
    refine ha.fields.imp fun {f g} hfg => UInt32.lt_iff_toNat_lt.mpr ?_
    have hspec := slotSize_spec f.size.toNat
    unfold FieldSlot.stop FieldSlot.width at hfg
    omega

/-- An entry that is there is found again, and nothing changes. -/
theorem ask_of_lookup? (ha : a.Sound) {r : Request} {x : Entry} (h : a.lookup? r.key = some x) :
    a.ask r = (.ok x, a) := by
  have hasked := asked ha r
  rcases hask : a.ask r with ⟨y, b⟩
  rw [hask] at hasked
  cases hasked with
  | found h' => rw [Option.some.inj (h.symm.trans h')]
  | placed hnew => cases h.symm.trans hnew
  | failed hnew => cases h.symm.trans hnew

/-- An arena is laid out after any requests. The next request is answered with an entry for what
is asked for, which every later request for it is answered with; or it fails, which changes no
entry and happens exactly if there is no entry yet and none can be placed. -/
theorem laidOut_askAll (types : TypeTable) (heapSize : UInt32) (requests : List Request) :
    let a := askAll { types := types, heapSize := heapSize } requests
    LaidOut heapSize a ∧ a.types = types ∧ ∀ r : Request,
      (∀ x b, a.ask r = (.ok x, b) → x.key = r.key ∧ x ∈ b.entries ∧ a.entries ⊆ b.entries
        ∧ ∀ later r', r'.key = r.key → (b.askAll later).ask r' = (.ok x, b.askAll later))
      ∧ (∀ e b, a.ask r = (.error e, b) → b.entries = a.entries ∧ b.total = a.total
        ∧ ∀ key, b.lookup? key = a.lookup? key)
      ∧ ((a.ask r).1.isOk ↔ (a.lookup? r.key).isSome ∨ a.Fits r) := by
  have hstart := sound_start types heapSize
  have hsteps := steps_askAll hstart requests
  have ha := hsteps.sound hstart
  have hheap : (askAll { types := types, heapSize := heapSize } requests).heapSize = heapSize :=
    hsteps.extends.heapSize
  have hlaid := ha.laidOut
  rw [hheap] at hlaid
  refine ⟨hlaid, hsteps.extends.types, fun r => ?_⟩
  generalize askAll { types := types, heapSize := heapSize } requests = a at ha
  have hasked := asked ha r
  refine ⟨fun x b hask => ?_, fun e b hask => ?_, ?_⟩
  · rw [hask] at hasked
    have hb := hasked.steps.sound ha
    have hx : b.lookup? r.key = some x := by
      cases hasked with
      | found h => exact h
      | placed _ _ _ h => exact h
    refine ⟨key_of_lookup? hx, mem_entries_of_lookup? hb hx, ?_, fun later r' hkey => ?_⟩
    · have hext := hasked.steps.extends
      refine (forall_mem_entries ha).mpr ⟨fun s hs => ?_, fun f hf => ?_⟩
      · exact (forall_mem_entries hb).mp (fun x hx => hx) |>.1 s (hext.strings.subset hs)
      · exact (forall_mem_entries hb).mp (fun x hx => hx) |>.2 f (hext.fields.subset hf)
    · have hlater := steps_askAll hb later
      exact ask_of_lookup? (hlater.sound hb) (hlater.extends.lookup? (hkey ▸ hx))
  · rw [hask] at hasked
    cases hasked with
    | failed _ _ hb =>
      rcases hb with rfl | ⟨type, rfl⟩
      · exact ⟨rfl, rfl, fun _ => rfl⟩
      · exact ⟨rfl, rfl, fun key => by cases key <;> rfl⟩
  · generalize (a.ask r).1 = x at hasked
    generalize (a.ask r).2 = b at hasked
    cases hasked with
    | found h => exact ⟨fun _ => .inl (by rw [h]; rfl), fun _ => rfl⟩
    | placed _ hfits => exact ⟨fun _ => .inr hfits, fun _ => rfl⟩
    | failed hnew hfits =>
      refine ⟨fun h => (nomatch h), fun h => h.elim (fun hsome => ?_) fun h => absurd h hfits⟩
      rw [hnew] at hsome
      cases hsome

/-- The text and the field are behind the ten bytes of the heap; the text is found again. -/
theorem laidOut_askAll_again :
    let a := askAll { types := .builtin, heapSize := 10 }
      [.string "hi", .field ⟨"T", "f"⟩ TypeTable.int64 false]
    a.total = 34 ∧ LaidOut 10 a ∧ ∃ s, a.ask (.string "hi") = (.ok (.string s), a)
      ∧ s.offset = 10 ∧ (a.ask (.string "hi")).2.ask (.string "hi") = (.ok (.string s), a) := by
  intro a
  obtain ⟨hlaid, -, hask⟩ := laidOut_askAll .builtin 10
    [.string "hi", .field ⟨"T", "f"⟩ TypeTable.int64 false]
  have hfirst : a.ask (.string "hi") = (.ok (.string ⟨"hi", "hi", 10, 16⟩), a) := rfl
  have hagain := ((hask (.string "hi")).1 _ _ hfirst).2.2.2 [] (.string "hi") rfl
  exact ⟨rfl, hlaid, _, hfirst, rfl, hagain⟩

end WastForge.Arena

namespace WastForge

/-! ## Blocks of memory -/

/-- A block of memory: where it starts and how many bytes were asked for. -/
structure Block where
  start : UInt32
  size : UInt64
  deriving DecidableEq

/-- Where the bytes of a block end. -/
def Block.stop (b : Block) : Nat := b.start.toNat + b.size.toNat

namespace Arena

/-- The arena after calls for blocks, one after the other. -/
def reserveAll (a : Arena) : List UInt64 → Arena
  | [] => a
  | size :: rest => ((reserve size).run.run a).2.reserveAll rest

/-- The blocks that calls are given, one after the other. -/
def granted (a : Arena) : List UInt64 → List Block
  | [] => []
  | size :: rest =>
    match (reserve size).run.run a with
    | (.ok start, b) => ⟨start, size⟩ :: b.granted rest
    | (.error _, b) => b.granted rest

/-- The slots for `size` bytes end at a number of 64 bits. -/
def StaysBelow (a : Arena) (size : UInt64) : Prop := a.total.toNat + slotSize size.toNat < 2 ^ 64

/-- The same for calls one after the other. -/
def StayBelow (a : Arena) : List UInt64 → Prop
  | [] => True
  | size :: rest => a.StaysBelow size ∧ ((reserve size).run.run a).2.StayBelow rest

/-- What a call for `size` bytes has to answer. -/
structure ServesCall (a : Arena) (size : UInt64) : Prop where
  /-- The block starts at the end, which moves behind it by whole slots and is an address still. -/
  granted : ∀ start b, Leads (reserve size) a (.ok start) b →
    start.toNat = a.total.toNat ∧ b.total.toNat < 2 ^ 32
      ∧ ∃ k, 0 < k ∧ size.toNat ≤ 8 * k ∧ b.total.toNat = a.total.toNat + 8 * k
  /-- Slots that do not fit are refused, and nothing changes. -/
  refused : 2 ^ 32 ≤ a.total.toNat + slotSize size.toNat →
    Leads (reserve size) a (.error .overflow) a
  /-- Slots that fit are not refused. -/
  served : a.total.toNat + slotSize size.toNat < 2 ^ 32 →
    ∃ start b, Leads (reserve size) a (.ok start) b

section

variable {a b : Arena} {size : UInt64}

theorem slotSize_le (size : UInt64) : slotSize size.toNat ≤ 2 ^ 64 := by
  have hlt := size.toNat_lt
  unfold slotSize
  split <;> omega

theorem total_grown_eq (a : Arena) (size : UInt64) :
    (a.grown size).total = a.total + roundUp size :=
  (UInt64.add_assoc _ _ _).symm

theorem total_grown (a : Arena) (size : UInt64) :
    (a.grown size).total.toNat = (a.total.toNat + slotSize size.toNat) % 2 ^ 64 := by
  rw [total_grown_eq, UInt64.toNat_add, toNat_roundUp_eq_mod]
  omega

/-- Whether there is room is decided by the end behind the slots, in 64 bits. -/
theorem hasRoom_iff_total_grown (size : UInt64) (ha : a.total.toNat < 2 ^ 32) :
    a.HasRoom size ↔ (a.grown size).total.toNat < 2 ^ 32 := by
  simp only [HasRoom, isAddress, decide_eq_true_eq, UInt64.lt_iff_toNat_lt, total_grown_eq]
  exact ⟨fun h => h.2, fun h => ⟨ha, h⟩⟩

theorem toNat_start (ha : a.total.toNat < 2 ^ 32) : a.total.toUInt32.toNat = a.total.toNat := by
  rw [UInt64.toNat_toUInt32]
  exact Nat.mod_eq_of_lt ha

/-- A call grants its block and moves the end, or it is refused and changes nothing. -/
theorem leads_reserve_of_address (size : UInt64) (ha : a.total.toNat < 2 ^ 32) :
    if (a.total.toNat + slotSize size.toNat) % 2 ^ 64 < 2 ^ 32
    then Leads (reserve size) a (.ok a.total.toUInt32) (a.grown size)
    else Leads (reserve size) a (.error .overflow) a := by
  have hroom := hasRoom_iff_total_grown size ha
  rw [total_grown] at hroom
  rcases hrun : (reserve size).run.run a with ⟨r, b⟩
  rcases leads_reserve hrun with ⟨rfl, rfl, h⟩ | ⟨rfl, rfl, h⟩
  · rw [if_pos (hroom.mp h)]
    exact hrun
  · rw [if_neg fun hlt => h (hroom.mpr hlt)]
    exact hrun

/-- Whatever is asked for, the end stays an address. -/
theorem total_lt_of_leads (ha : a.total.toNat < 2 ^ 32) {r : Except LayoutError UInt32}
    (h : Leads (reserve size) a r b) : b.total.toNat < 2 ^ 32 := by
  rcases leads_reserve h with ⟨_, rfl, hroom⟩ | ⟨_, rfl, _⟩
  · exact (hasRoom_iff_total_grown size ha).mp hroom
  · exact ha

theorem total_lt_reserveAll (calls : List UInt64) (ha : a.total.toNat < 2 ^ 32) :
    (a.reserveAll calls).total.toNat < 2 ^ 32 := by
  induction calls generalizing a with
  | nil => exact ha
  | cons size rest ih => exact ih (total_lt_of_leads ha rfl)

/-- A call that stays below is answered as it should be. -/
theorem StaysBelow.servesCall (h : a.StaysBelow size) (ha : a.total.toNat < 2 ^ 32) :
    a.ServesCall size := by
  have hspec := slotSize_spec size.toNat
  have hcall := leads_reserve_of_address size ha
  rw [Nat.mod_eq_of_lt h] at hcall
  constructor
  case granted =>
    intro start b hb
    rcases leads_reserve hb with ⟨hstart, rfl, hroom⟩ | ⟨hr, _⟩
    · obtain rfl := Except.ok.inj hstart
      have hlt := (hasRoom_iff_total_grown size ha).mp hroom
      have htotal := total_grown a size
      rw [Nat.mod_eq_of_lt h] at htotal
      obtain ⟨k, hk⟩ := hspec.2.2.2
      exact ⟨toNat_start ha, hlt, k, by omega, by omega, by omega⟩
    · cases hr
  case refused =>
    intro hfull
    rwa [if_neg (Nat.not_lt.mpr hfull)] at hcall
  case served =>
    intro hfits
    rw [if_pos hfits] at hcall
    exact ⟨_, _, hcall⟩

/-- A call that goes over the last number of 64 bits is granted, and moves the end back. -/
theorem leads_reserve_of_not_staysBelow (h : ¬a.StaysBelow size) (ha : a.total.toNat < 2 ^ 32) :
    Leads (reserve size) a (.ok a.total.toUInt32) (a.grown size)
      ∧ (a.grown size).total.toNat ≤ a.total.toNat := by
  have hle := slotSize_le size
  have hover : 2 ^ 64 ≤ a.total.toNat + slotSize size.toNat := Nat.not_lt.mp h
  have hback : (a.total.toNat + slotSize size.toNat) % 2 ^ 64 ≤ a.total.toNat := by omega
  have hcall := leads_reserve_of_address size ha
  rw [if_pos (hback.trans_lt ha)] at hcall
  exact ⟨hcall, (total_grown a size).trans_le hback⟩

theorem servesCall_iff (ha : a.total.toNat < 2 ^ 32) : a.ServesCall size ↔ a.StaysBelow size := by
  refine ⟨fun hserves => ?_, fun h => h.servesCall ha⟩
  by_contra hover
  obtain ⟨hcall, hback⟩ := leads_reserve_of_not_staysBelow hover ha
  obtain ⟨_, _, k, hk, _, htotal⟩ := hserves.granted _ _ hcall
  omega

/-- Calls that stay below are given blocks one behind the other. -/
theorem granted_of_stayBelow {calls : List UInt64} (h : a.StayBelow calls)
    (ha : a.total.toNat < 2 ^ 32) :
    (a.granted calls).Pairwise (fun x y => x.stop ≤ y.start.toNat)
      ∧ ∀ x ∈ a.granted calls, a.total.toNat ≤ x.start.toNat := by
  induction calls generalizing a with
  | nil => exact ⟨.nil, List.forall_mem_nil _⟩
  | cons size rest ih =>
    have hserves := h.1.servesCall ha
    rcases hrun : (reserve size).run.run a with ⟨r, b⟩
    have hrest := h.2
    rw [hrun] at hrest
    obtain ⟨hapart, hbehind⟩ := ih hrest (total_lt_of_leads ha hrun)
    change ∀ x ∈ b.granted rest, b.total.toNat ≤ x.start.toNat at hbehind
    rcases leads_reserve hrun with ⟨rfl, -, -⟩ | ⟨rfl, rfl, -⟩
    · obtain ⟨hstart, -, k, -, hsize, htotal⟩ := hserves.granted _ _ hrun
      have hstop : (Block.mk a.total.toUInt32 size).stop ≤ b.total.toNat := by
        show a.total.toUInt32.toNat + size.toNat ≤ _
        omega
      simp only [granted, hrun]
      refine ⟨.cons (fun y hy => hstop.trans (hbehind y hy)) hapart, ?_⟩
      refine List.forall_mem_cons.mpr ⟨hstart.ge, fun y hy => ?_⟩
      exact Nat.le_trans (by omega) (hbehind y hy)
    · simp only [granted, hrun]
      exact ⟨hapart, hbehind⟩

end

/-- After any calls for blocks the end is an address. The next call is answered as it should be just
when its slots end at a number of 64 bits; and the blocks of calls that all do lie one behind the
other. -/
theorem reserve_serves_iff (types : TypeTable) (heapSize : UInt32) (calls : List UInt64) :
    let a := reserveAll { types := types, heapSize := heapSize } calls
    a.total.toNat < 2 ^ 32
      ∧ (∀ size, a.ServesCall size ↔ a.total.toNat + slotSize size.toNat < 2 ^ 64)
      ∧ ∀ more, a.StayBelow more →
        (a.granted more).Pairwise fun x y => x.stop ≤ y.start.toNat := by
  have hstart : (Arena.total { types := types, heapSize := heapSize }).toNat < 2 ^ 32 :=
    (sound_start types heapSize).total.trans_lt (sound_start types heapSize).bound
  have ha := total_lt_reserveAll calls hstart
  exact ⟨ha, fun _ => servesCall_iff ha, fun _ h => (granted_of_stayBelow h ha).1⟩

/-- Behind a heap of 100 bytes and one slot, 9 bytes and then none are given blocks of their own,
and a call for 4 GiB between them is refused. -/
theorem reserve_serves_iff_slots :
    let a := reserveAll { types := .builtin, heapSize := 100 } [1]
    a.StayBelow [9, 0x100000000, 0] ∧ a.granted [9, 0x100000000, 0] = [⟨108, 9⟩, ⟨124, 0⟩]
      ∧ (a.granted [9, 0x100000000, 0]).Pairwise fun x y => x.stop ≤ y.start.toNat := by
  intro a
  have hbelow : a.StayBelow [9, 0x100000000, 0] := by
    refine ⟨?_, ?_, ?_, trivial⟩ <;> (unfold StaysBelow; decide)
  exact ⟨hbelow, by decide, (reserve_serves_iff .builtin 100 [1]).2.2 _ hbelow⟩

/-- A call for all but eight bytes of 64 bits behind one slot is granted and moves the end back to
the start of memory, so that the next block lies over the first one. -/
theorem reserve_overlaps :
    let a : Arena := { types := .builtin, heapSize := 0 }
    a.granted [8, 0xfffffffffffffff8, 8] = [⟨0, 8⟩, ⟨8, 0xfffffffffffffff8⟩, ⟨0, 8⟩]
      ∧ ¬(a.granted [8, 0xfffffffffffffff8, 8]).Pairwise fun x y =>
        x.stop ≤ y.start.toNat ∨ y.stop ≤ x.start.toNat := by
  decide

end Arena

end WastForge
