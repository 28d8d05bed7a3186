import WastForge.Proofs.Layout.Size
import WastForge.Proofs.Types.Name

/-!
# Why a type has no size

A struct fails at its first field without a size. Following these fields from a type leads back to
a struct that was met before, to a type that is not held in memory, or to a struct that is too
large. This is the cause that is found, whatever was asked for before: what is remembered in the
middle of a search is already true of the type that it is remembered for.

The failure tells the name of the type that is not held in memory. If there is no end to this name,
there is none to the search.
-/

namespace WastForge

open Relation

/-- Why a type has no size. -/
inductive SizeCause where
  /-- A struct contains itself. -/
  | recursive
  /-- A type is not held in memory. -/
  | unsupported
  /-- A struct has more bytes than addresses of 32 bits. -/
  | overflow
  deriving Repr, DecidableEq

/-- The cause that a failure tells; a text without a Latin-1 form is no matter of sizes, and the
search for a name without an end tells nothing. -/
def LayoutError.cause? : LayoutError → Option SizeCause
  | .recursive .. => some .recursive
  | .unsupported _ => some .unsupported
  | .overflow => some .overflow
  | .unencodable _ | .crash _ => none

namespace TypeTable

/-- The type of a field that is reached when the sizes of the fields of a struct are asked for in
order: all fields in front of it have one. -/
def Meets (tt : TypeTable) (id field : TypeId) : Prop :=
  ∃ info front f rear, tt.structInfo? id = some info ∧ info.fields = front ++ f :: rear
    ∧ (∀ g ∈ front, ∃ n, tt.HasSize g.type n) ∧ f.type = field

/-- The type of the first field of a struct that has no size. -/
def FirstFailing (tt : TypeTable) (id field : TypeId) : Prop :=
  tt.Meets id field ∧ ∀ n, ¬tt.HasSize field n

/-- A number without a type, or a type that is neither a machine type nor a struct. -/
def Unsupported (tt : TypeTable) (id : TypeId) : Prop :=
  (∀ d, tt.lookup? id = some d → d.scalarSize? = none) ∧ tt.structInfo? id = none

/-- All fields of a struct have sizes, but 32 bits do not hold their sum. -/
def Overflows (tt : TypeTable) (id : TypeId) : Prop :=
  ∃ (info : Nominal) (sizes : List UInt32), tt.structInfo? id = some info
    ∧ sizes.length = info.fields.length ∧ (∀ x ∈ info.fields.zip sizes, tt.HasSize x.1.type x.2)
    ∧ 0x100000000 ≤ (sizes.map UInt32.toNat).sum

/-- What is wrong with the type at which the path of failing fields ends, or runs in a circle. -/
def EndsIn (tt : TypeTable) (id : TypeId) : SizeCause → Prop
  | .recursive => TransGen tt.FirstFailing id id
  | .unsupported => tt.Unsupported id
  | .overflow => tt.Overflows id

/-- A type has no size for a cause: the path of failing fields leads from it there. -/
def Fails (tt : TypeTable) (id : TypeId) (c : SizeCause) : Prop :=
  ∃ s, ReflTransGen tt.FirstFailing id s ∧ tt.EndsIn s c

/-- The search for the size of a type does not come to an end: the path of failing fields leads to a
type that is not held in memory and whose name has no end. -/
def Endless (tt : TypeTable) (id : TypeId) : Prop :=
  ∃ s, ReflTransGen tt.FirstFailing id s ∧ tt.Unsupported s ∧ ¬tt.Ends s

variable {tt : TypeTable} {known : KnownSizes} {id field field' s s' : TypeId} {c c' : SizeCause}

/-! ## One path, one cause -/

theorem Meets.holds (h : tt.Meets id field) : tt.Holds id field := by
  obtain ⟨info, front, f, rear, hinfo, hfields, _, htype⟩ := h
  exact ⟨info, f, hinfo, by rw [hfields]; simp, htype⟩

/-- A struct has one first failing field: of two, the earlier one would have a size. -/
theorem FirstFailing.unique (h : tt.FirstFailing id field) (h' : tt.FirstFailing id field') :
    field = field' := by
  obtain ⟨⟨info, front, f, rear, hinfo, hfields, hfront, rfl⟩, hf⟩ := h
  obtain ⟨⟨info', front', f', rear', hinfo', hfields', hfront', rfl⟩, hf'⟩ := h'
  obtain rfl := Option.some.inj (hinfo.symm.trans hinfo')
  have hnot : ∀ {g : StructField} {l : List StructField}, (∀ n, ¬tt.HasSize g.type n) →
      (∀ x ∈ l, ∃ n, tt.HasSize x.type n) → g ∉ l :=
    fun hg hl hmem => (hl _ hmem).elim fun n hn => hg n hn
  rcases List.append_eq_append_iff.mp (hfields.symm.trans hfields') with
    ⟨more, rfl, hmore⟩ | ⟨more, rfl, hmore⟩
  · cases more with
    | nil => exact congrArg StructField.type (List.cons.inj hmore).1
    | cons g more =>
      obtain rfl := (List.cons.inj hmore).1
      exact absurd (by simp) (hnot hf hfront')
  · cases more with
    | nil => exact congrArg StructField.type (List.cons.inj hmore).1.symm
    | cons g more =>
      obtain rfl := (List.cons.inj hmore).1
      exact absurd (by simp) (hnot hf' hfront)

/-- A struct whose fields all have sizes has no failing field. -/
theorem not_firstFailing_of_sizes {info : Nominal} {sizes : List UInt32}
    (hinfo : tt.structInfo? id = some info) (hlength : sizes.length = info.fields.length)
    (hsizes : ∀ x ∈ info.fields.zip sizes, tt.HasSize x.1.type x.2) :
    ¬tt.FirstFailing id field := by
  rintro ⟨hmeets, hfield⟩
  obtain ⟨info', f, hinfo', hf, rfl⟩ := hmeets.holds
  obtain rfl := Option.some.inj (hinfo.symm.trans hinfo')
  obtain ⟨n, hmem⟩ := exists_mem_zip hlength hf
  exact hfield n (hsizes _ hmem)

theorem HasSize.not_firstFailing {n : UInt32} (h : tt.HasSize id n) :
    ¬tt.FirstFailing id field := by
  intro hfield
  obtain ⟨info, _, hinfo, _⟩ := hfield.1.holds
  obtain ⟨sizes, hlength, hsizes, -⟩ := h.sizes hinfo
  exact not_firstFailing_of_sizes hinfo hlength hsizes hfield

/-- A type with a size is no end of a path of failing fields. -/
theorem HasSize.not_endsIn {n : UInt32} (h : tt.HasSize id n) : ¬tt.EndsIn id c := by
  intro hends
  cases c with
  | recursive =>
    obtain ⟨field, hfield, _⟩ := TransGen.head'_iff.mp hends
    exact h.not_firstFailing hfield
  | unsupported =>
    cases h with
    | scalar hd hn => cases hn.symm.trans (hends.1 _ hd)
    | struct hinfo => cases hinfo.symm.trans hends.2
  | overflow =>
    obtain ⟨info, sizes, hinfo, hlength, hsizes, hsum⟩ := hends
    obtain ⟨sizes', hlength', hsizes', hlt, -⟩ := h.sizes hinfo
    have hsame := sizes_eq hlength hlength' fun f m m' hm hm' =>
      (hsizes _ hm).unique (hsizes' _ hm')
    rw [← hsame] at hlt
    omega

/-- A path goes on from its end only in a circle. -/
theorem EndsIn.eq_recursive (h : tt.EndsIn id c) (hfield : tt.FirstFailing id field) :
    c = .recursive := by
  cases c with
  | recursive => rfl
  | unsupported =>
    obtain ⟨info, _, hinfo, _⟩ := hfield.1.holds
    cases hinfo.symm.trans h.2
  | overflow =>
    obtain ⟨info, sizes, hinfo, hlength, hsizes, _⟩ := h
    exact absurd hfield (not_firstFailing_of_sizes hinfo hlength hsizes)

theorem Unsupported.not_overflows (h : tt.Unsupported id) : ¬tt.Overflows id := by
  rintro ⟨_, _, hinfo, _⟩
  cases hinfo.symm.trans h.2

theorem HasSize.not_fails {n : UInt32} (h : tt.HasSize id n) : ¬tt.Fails id c := by
  rintro ⟨s, hpath, hends⟩
  rcases hpath.cases_head with rfl | ⟨field, hfield, _⟩
  · exact h.not_endsIn hends
  · exact h.not_firstFailing hfield

/-- A circle is followed around, as there is only one way to go on. -/
theorem circle_of_path (h : TransGen tt.FirstFailing s s)
    (hpath : ReflTransGen tt.FirstFailing s s') :
    TransGen tt.FirstFailing s' s' := by
  induction hpath with
  | refl => exact h
  | tail _ hstep ih =>
    obtain ⟨x, hx, hback⟩ := TransGen.head'_iff.mp ih
    obtain rfl := hstep.unique hx
    exact TransGen.tail' hback hstep

/-- If the end of a path leads on to another end, both have the same cause. -/
theorem EndsIn.cause_eq (h : tt.EndsIn s c) (h' : tt.EndsIn s' c')
    (hpath : ReflTransGen tt.FirstFailing s s') : c = c' := by
  by_cases hgo : ∃ field, tt.FirstFailing s field
  · obtain ⟨field, hfield⟩ := hgo
    obtain rfl := h.eq_recursive hfield
    obtain ⟨x, hx, _⟩ := TransGen.head'_iff.mp (circle_of_path h hpath)
    exact (h'.eq_recursive hx).symm
  · have hcircle : ¬TransGen tt.FirstFailing s s := fun hself =>
      hgo ((TransGen.head'_iff.mp hself).imp fun _ hstep => hstep.1)
    obtain rfl : s = s' := by
      rcases hpath.cases_head with heq | ⟨field, hfield, _⟩
      · exact heq
      · exact absurd ⟨field, hfield⟩ hgo
    cases c with
    | recursive => exact absurd h hcircle
    | unsupported =>
      cases c' with
      | recursive => exact absurd h' hcircle
      | unsupported => rfl
      | overflow => exact absurd h' h.not_overflows
    | overflow =>
      cases c' with
      | recursive => exact absurd h' hcircle
      | unsupported => exact absurd h h'.not_overflows
      | overflow => rfl

/-- A type fails for one cause. -/
theorem Fails.unique (h : tt.Fails id c) (h' : tt.Fails id c') : c = c' := by
  obtain ⟨s, hpath, hends⟩ := h
  obtain ⟨s', hpath', hends'⟩ := h'
  rcases ReflTransGen.total_of_right_unique (fun _ _ _ h h' => h.unique h') hpath hpath' with
    hon | hon
  · exact hends.cause_eq hends' hon
  · exact (hends'.cause_eq hends hon).symm

theorem Fails.head (h : tt.Fails field c) (hfield : tt.FirstFailing id field) : tt.Fails id c := by
  obtain ⟨s, hpath, hends⟩ := h
  exact ⟨s, hpath.head hfield, hends⟩

theorem Unsupported.not_firstFailing (h : tt.Unsupported id) : ¬tt.FirstFailing id field := by
  intro hfield
  obtain ⟨info, _, hinfo, _⟩ := hfield.1.holds
  cases hinfo.symm.trans h.2

theorem Endless.fails (h : tt.Endless id) : tt.Fails id .unsupported := by
  obtain ⟨s, hpath, hs, -⟩ := h
  exact ⟨s, hpath, hs⟩

/-- The first failing field goes on with the search, so it decides whether there is an end. -/
theorem endless_iff_of_firstFailing (hfield : tt.FirstFailing id field) :
    tt.Endless id ↔ tt.Endless field := by
  constructor
  · rintro ⟨s, hpath, hs, hends⟩
    rcases hpath.cases_head with rfl | ⟨next, hnext, hrest⟩
    · exact absurd hfield hs.not_firstFailing
    · obtain rfl := hfield.unique hnext
      exact ⟨s, hrest, hs, hends⟩
  · rintro ⟨s, hpath, hs⟩
    exact ⟨s, hpath.head hfield, hs⟩

theorem Unsupported.endless_iff (h : tt.Unsupported id) : tt.Endless id ↔ ¬tt.Ends id := by
  constructor
  · rintro ⟨s, hpath, hs, hends⟩
    rcases hpath.cases_head with rfl | ⟨next, hnext, _⟩
    · exact hends
    · exact absurd hnext h.not_firstFailing
  · exact fun hends => ⟨id, .refl, h, hends⟩

/-- The elements of a struct come to an end at once. -/
theorem ends_of_structInfo? {info : Nominal} (h : tt.structInfo? id = some info) : tt.Ends id := by
  obtain ⟨d, hd, hkind⟩ := kind_of_structInfo? h
  refine ⟨0, id, rfl, ?_⟩
  rw [elem?, hd, Option.bind_some, hkind]
  exact if_neg (by decide)

/-- Fields that are met in a circle are the failing ones: what holds itself has no size. -/
theorem circle_of_meets (h : TransGen tt.Meets id id) : TransGen tt.FirstFailing id id := by
  have hholds : ∀ {a b}, TransGen tt.Meets a b →
      TransGen (fun field id => tt.Holds id field) b a := fun hab =>
    transGen_swap.mp (TransGen.mono (fun _ _ => Meets.holds) _ _ hab)
  have hfails : ∀ {a b}, TransGen tt.Meets a b → ReflTransGen tt.Meets b a →
      ∀ n, ¬tt.HasSize b n := fun hab hba n hn =>
    hn.not_within_self (hholds (TransGen.trans_right hba hab))
  have hpath : ∀ {b}, TransGen tt.Meets id b → ReflTransGen tt.Meets b id →
      TransGen tt.FirstFailing id b := by
    intro b hab hba
    induction hab with
    | single hstep => exact .single ⟨hstep, hfails (.single hstep) hba⟩
    | tail hab hstep ih =>
      exact (ih (hba.head hstep)).tail ⟨hstep, hfails (hab.tail hstep) hba⟩
  exact hpath h .refl

/-! ## What a search finds -/

/-- What a failure tells of a type without a size: the cause, or that the search has no end. -/
inductive Tells (tt : TypeTable) (id : TypeId) : LayoutError → Prop where
  | cause {e : LayoutError} {c : SizeCause} (hcause : e.cause? = some c) (hfails : tt.Fails id c)
    (hends : ¬tt.Endless id) : Tells tt id e
  | endless (h : tt.Endless id) : Tells tt id (.crash .endless)

theorem Tells.head {e : LayoutError} (h : tt.Tells field e) (hfield : tt.FirstFailing id field) :
    tt.Tells id e := by
  have hiff := endless_iff_of_firstFailing hfield
  cases h with
  | cause hcause hfails hends => exact .cause hcause (hfails.head hfield) (mt hiff.mp hends)
  | endless h => exact .endless (hiff.mpr h)

/-- A failure that was found tells why the type has no size. -/
def Explains (tt : TypeTable) (id : TypeId) (found : Except LayoutError UInt32) : Prop :=
  ∀ e, found = .error e → tt.Tells id e

/-- What is known are sizes, and failures with their causes. -/
structure Remembers (tt : TypeTable) (known : KnownSizes) : Prop where
  knows : tt.Knows known
  explains : ∀ entry ∈ known, tt.Explains entry.1 entry.2

/-- A failure of the work has its cause, and what is known afterwards is right again. -/
def Settles (tt : TypeTable) (act : SizeM (Except LayoutError UInt32)) (id : TypeId) : Prop :=
  ∀ known, tt.Remembers known → tt.Explains id (act known).1 ∧ tt.Remembers (act known).2

theorem explains_ok (n : UInt32) : tt.Explains id (.ok n) := fun _ he => nomatch he

theorem explains_of_tells {e : LayoutError} (h : tt.Tells id e) : tt.Explains id (.error e) :=
  fun _ he => Except.error.inj he ▸ h

/-- A cause other than a type that is not held in memory is told. -/
theorem tells_of_fails {e : LayoutError} (hcause : e.cause? = some c) (h : tt.Fails id c)
    (hc : c ≠ .unsupported) : tt.Tells id e :=
  .cause hcause h fun hendless => hc (h.unique hendless.fails)

theorem explains_unsupported (h : tt.Unsupported id) :
    tt.Explains id (tt.failing id .unsupported) := by
  unfold failing
  split
  · rename_i name hname
    refine explains_of_tells (.cause (c := .unsupported) rfl ⟨id, .refl, h⟩ fun hendless => ?_)
    rw [name?_eq_none_iff.mpr (h.endless_iff.mp hendless)] at hname
    cases hname
  · rename_i hname
    exact explains_of_tells (.endless (h.endless_iff.mpr (name?_eq_none_iff.mp hname)))

theorem explains_recursive (h : TransGen tt.FirstFailing id id) (cycle : List TypeId) :
    tt.Explains id (tt.failing id fun name => .recursive name cycle) := by
  obtain ⟨field, hfield, -⟩ := TransGen.head'_iff.mp h
  obtain ⟨info, _, hinfo, _⟩ := hfield.1.holds
  obtain ⟨name, hname⟩ := exists_name? (ends_of_structInfo? hinfo)
  rw [failing, hname]
  exact explains_of_tells (tells_of_fails (c := .recursive) rfl ⟨id, .refl, h⟩ (by decide))

theorem settles_pure {found : Except LayoutError UInt32} (h : tt.Explains id found) :
    tt.Settles (pure found) id :=
  fun _ hknown => ⟨h, hknown⟩

/-- The sum of the sizes of fields fails at the first field without a size, for the cause of its
type. -/
theorem settles_sumSizes {find : TypeId → SizeM (Except LayoutError UInt32)}
    (fields : List StructField) (hfind : ∀ f ∈ fields, tt.Finds (find f.type) f.type)
    (hsettle : ∀ front f rear, fields = front ++ f :: rear →
      (∀ g ∈ front, ∃ n, tt.HasSize g.type n) → tt.Settles (find f.type) f.type) :
    ∀ total known, tt.Remembers known →
      (∀ e, (sumSizes find total fields known).1 = .error e →
        ∃ front f rear, fields = front ++ f :: rear ∧ (∀ g ∈ front, ∃ n, tt.HasSize g.type n)
          ∧ (∀ n, ¬tt.HasSize f.type n) ∧ tt.Explains f.type (.error e))
        ∧ tt.Remembers (sumSizes find total fields known).2 := by
  induction fields with
  | nil => exact fun total known h => ⟨fun e he => (nomatch he), h⟩
  | cons f rest ih =>
    rw [List.forall_mem_cons] at hfind
    intro total known h
    obtain ⟨hexplains, hafter⟩ := hsettle [] f rest rfl (List.forall_mem_nil _) known h
    have hsize := (hfind.1 known h.knows).1
    unfold sumSizes
    rcases hrun : find f.type known with ⟨e | m, known'⟩
    · rw [hrun] at hexplains hafter hsize
      rw [bind_run hrun]
      refine ⟨fun e' he => ⟨[], f, rest, rfl, List.forall_mem_nil _, fun n hn => ?_, ?_⟩, hafter⟩
      · cases (hsize n).mpr hn
      · exact Except.error.inj he ▸ hexplains
    · rw [hrun] at hafter hsize
      rw [bind_run hrun]
      have hf : ∃ n, tt.HasSize f.type n := ⟨m, (hsize m).mp rfl⟩
      obtain ⟨hfails, hafter'⟩ := ih hfind.2
        (fun front g rear hrest hfront => hsettle (f :: front) g rear (congrArg (f :: ·) hrest)
          (List.forall_mem_cons.mpr ⟨hf, hfront⟩)) (total + m.toNat) known' hafter
      refine ⟨fun e he => ?_, hafter'⟩
      obtain ⟨front, g, rear, hrest, hfront, hg, hexplains⟩ := hfails e he
      exact ⟨f :: front, g, rear, congrArg (f :: ·) hrest,
        List.forall_mem_cons.mpr ⟨hf, hfront⟩, hg, hexplains⟩

/-- A struct fails for the cause of its first failing field, or is too large. -/
theorem settles_struct {find : TypeId → SizeM (Except LayoutError UInt32)} {info : Nominal}
    (hinfo : tt.structInfo? id = some info)
    (hfind : ∀ field, tt.Holds id field → tt.Finds (find field) field)
    (hsettle : ∀ field, tt.Meets id field → tt.Settles (find field) field) :
    tt.Settles (do
      match ← sumSizes find 0 info.fields with
      | .error e => pure (.error e)
      | .ok total => pure (structSize total)) id := by
  intro known hknown
  have hfields : ∀ f ∈ info.fields, tt.Finds (find f.type) f.type :=
    fun f hf => hfind f.type ⟨info, f, hinfo, hf, rfl⟩
  have hmeets : ∀ front f rear, info.fields = front ++ f :: rear →
      (∀ g ∈ front, ∃ n, tt.HasSize g.type n) → tt.Meets id f.type :=
    fun front f rear hsplit hfront => ⟨info, front, f, rear, hinfo, hsplit, hfront, rfl⟩
  obtain ⟨hsum, -⟩ := finds_sumSizes info.fields hfields 0 known hknown.knows
  obtain ⟨hfails, hafter⟩ := settles_sumSizes info.fields hfields
    (fun front f rear hsplit hfront => hsettle _ (hmeets front f rear hsplit hfront)) 0 known hknown
  rcases hrun : sumSizes find 0 info.fields known with ⟨e | total, known'⟩
  · rw [hrun] at hfails hafter
    rw [bind_run hrun]
    obtain ⟨front, f, rear, hsplit, hfront, hf, hexplains⟩ := hfails e rfl
    have hfield : tt.FirstFailing id f.type := ⟨hmeets front f rear hsplit hfront, hf⟩
    exact ⟨explains_of_tells ((hexplains e rfl).head hfield), hafter⟩
  · rw [hrun] at hsum hafter
    rw [bind_run hrun]
    refine ⟨?_, hafter⟩
    obtain ⟨sizes, hlength, hsizes, htotal⟩ := (hsum total).mp rfl
    rw [Nat.zero_add] at htotal
    show tt.Explains id (structSize total)
    unfold structSize
    split
    · exact explains_ok _
    · rename_i hnot
      have hover : tt.Overflows id :=
        ⟨info, sizes, hinfo, hlength, hsizes, htotal ▸ Nat.le_of_not_lt hnot⟩
      exact explains_of_tells (tells_of_fails (c := .overflow) rfl ⟨id, .refl, hover⟩ (by decide))

/-- A failure that is not known yet is found with its cause if those of fields are. -/
theorem settles_freshSize {find : TypeId → SizeM (Except LayoutError UInt32)}
    (hfind : ∀ field, tt.Holds id field → tt.Finds (find field) field)
    (hsettle : ∀ field, tt.Meets id field → tt.Settles (find field) field) :
    tt.Settles (freshSize tt find id) id := by
  have hunsupported : tt.Unsupported id → tt.Settles (pure (tt.failing id .unsupported)) id :=
    fun h => settles_pure (explains_unsupported h)
  unfold freshSize
  cases hd : tt.lookup? id with
  | none =>
    have hnone : tt.Unsupported id :=
      ⟨fun d hd' => absurd (hd.symm.trans hd') (by simp), by rw [structInfo?, structSlot?, hd]; rfl⟩
    exact hunsupported hnone
  | some d =>
    have hscalar : d.scalarSize? = none → ∀ d', tt.lookup? id = some d' → d'.scalarSize? = none :=
      fun h d' hd' => Option.some.inj (hd.symm.trans hd') ▸ h
    cases hkind : d.kind with
    | struct =>
      cases hinfo : tt.structInfo? id with
      | none =>
        simp only [hkind]
        exact hunsupported ⟨hscalar (scalarSize?_of_struct hkind), hinfo⟩
      | some info =>
        simp only [hkind]
        exact settles_struct hinfo hfind hsettle
    | invalid | array | generic | object | unknown =>
      simp only [hkind]
      refine hunsupported ⟨hscalar ?_, structInfo?_eq_none hd ?_⟩
      · simp [Descriptor.scalarSize?, hkind]
      · simp [hkind]
    | _ =>
      simp only [hkind]
      exact settles_pure (explains_ok _)

/-- The structs that a size is asked for inside of, each reached at its first field without a
known size. -/
structure IsPath (tt : TypeTable) (outer : List TypeId) (id : TypeId) : Prop where
  isOuter : tt.IsOuter outer id
  meets : ∀ o ∈ outer, TransGen tt.Meets o id

theorem IsPath.concat {outer : List TypeId} (h : tt.IsPath outer id) (hid : id ∉ outer)
    (hfield : tt.Meets id field) : tt.IsPath (outer ++ [id]) field where
  isOuter := h.isOuter.concat hid hfield.holds
  meets := List.forall_mem_append.mpr ⟨fun o ho => (h.meets o ho).tail hfield,
    List.forall_mem_singleton.mpr (.single hfield)⟩

theorem Remembers.cons {found : Except LayoutError UInt32} (h : tt.Remembers known)
    (hsize : tt.IsSize id found) (hexplains : tt.Explains id found) :
    tt.Remembers ((id, found) :: known) where
  knows := List.forall_mem_cons.mpr ⟨hsize, h.knows⟩
  explains := List.forall_mem_cons.mpr ⟨hexplains, h.explains⟩

/-- Looking for a size finds the cause if there is none. A type that is met inside of itself is
remembered as failing before the search around it has ended; this is true already then, as the
circle is closed. -/
theorem settles_sizeWith (fuel : Nat) {outer : List TypeId} (hpath : tt.IsPath outer id)
    (hfuel : fuel + outer.length = tt.size + 2) : tt.Settles (tt.sizeWith fuel outer id) id := by
  induction fuel generalizing outer id with
  | zero =>
    have hle := length_le_of_nodup hpath.isOuter.nodup hpath.isOuter.lt_size
    omega
  | succ fuel ih =>
    intro known hknown
    have hsize := (finds_sizeWith (fuel + 1) hpath.isOuter hfuel known hknown.knows).1
    unfold sizeWith at hsize ⊢
    have hget : (get : SizeM KnownSizes) known = (known, known) := rfl
    rw [bind_run hget] at hsize ⊢
    cases hfound : known.lookup id with
    | some found =>
      obtain ⟨before, after, rfl, _⟩ := List.lookup_eq_some_iff.mp hfound
      exact ⟨hknown.explains (id, found) (List.mem_append_right _ List.mem_cons_self), hknown⟩
    | none =>
      simp only [hfound] at hsize
      by_cases hmem : outer.contains id
      · have hcircle := circle_of_meets (hpath.meets id (by simpa using hmem))
        have hexplains := explains_recursive hcircle (outer.dropWhile (· ≠ id) ++ [id])
        simp only [hmem, if_true] at hsize ⊢
        exact ⟨hexplains, hknown.cons hsize hexplains⟩
      · have hin : id ∉ outer := by simpa using hmem
        have hinner : fuel + (outer ++ [id]).length = tt.size + 2 := by
          rw [List.length_append, List.length_singleton]
          omega
        have hfresh : tt.Settles (freshSize tt (tt.sizeWith fuel (outer ++ [id])) id) id :=
          settles_freshSize
            (fun field hfield => finds_sizeWith fuel (hpath.isOuter.concat hin hfield) hinner)
            fun field hfield => ih (hpath.concat hin hfield) hinner
        obtain ⟨hexplains, hafter⟩ := hfresh known hknown
        rcases hrun : freshSize tt (tt.sizeWith fuel (outer ++ [id])) id known with ⟨found, known'⟩
        rw [hrun] at hexplains hafter
        simp only [if_neg hmem, bind_run hrun] at hsize ⊢
        exact ⟨hexplains, hafter.cons hsize hexplains⟩

theorem settles_sizeOf (tt : TypeTable) (id : TypeId) : tt.Settles (tt.sizeOf id) id :=
  settles_sizeWith (tt.size + 2)
    ⟨⟨List.nodup_nil, List.forall_mem_nil _, List.forall_mem_nil _⟩, List.forall_mem_nil _⟩ rfl

/-! ## Any history -/

/-- What is known after sizes of several types were asked for, one after the other. -/
def knownAfter (tt : TypeTable) (asked : List TypeId) : KnownSizes :=
  asked.foldl (fun known id => (tt.sizeOf id known).2) []

theorem remembers_knownAfter (tt : TypeTable) (asked : List TypeId) :
    tt.Remembers (tt.knownAfter asked) := by
  have hrun : ∀ known, tt.Remembers known →
      tt.Remembers (asked.foldl (fun known id => (tt.sizeOf id known).2) known) := by
    induction asked with
    | nil => exact fun known h => h
    | cons id asked ih => exact fun known h => ih _ (settles_sizeOf tt id known h).2
  exact hrun [] ⟨List.forall_mem_nil _, List.forall_mem_nil _⟩

/-- Whatever was asked for before, a size that is asked for is the packed size of the type, and a
failure is one of a type without a size. It tells the cause to which the first failing fields lead,
unless they lead to a type that is not held in memory and whose name has no end: there the search
does not come to an end, and nowhere else. -/
theorem sizeOf_knownAfter (tt : TypeTable) (asked : List TypeId) (id : TypeId) :
    let found := (tt.sizeOf id (tt.knownAfter asked)).1
    (∀ n, found = .ok n ↔ tt.HasSize id n)
      ∧ (∀ c, (∃ e, found = .error e ∧ e.cause? = some c) ↔ tt.Fails id c ∧ ¬tt.Endless id)
      ∧ (found = .error (.crash .endless) ↔ tt.Endless id)
      ∧ ((∃ n, found = .ok n) ∨ (∃ e c, found = .error e ∧ e.cause? = some c)
        ∨ found = .error (.crash .endless)) := by
  intro found
  have hknown := remembers_knownAfter tt asked
  have hsize : tt.IsSize id found := (finds_sizeOf tt id _ hknown.knows).1
  have hexplains : tt.Explains id found := (settles_sizeOf tt id _ hknown).1
  -- A failure is one that the path of failing fields explains.
  have hfound : (∃ n, found = .ok n) ∨ ∃ e, found = .error e ∧ tt.Tells id e := by
    cases h : found with
    | ok n => exact .inl ⟨n, rfl⟩
    | error e => exact .inr ⟨e, rfl, hexplains e h⟩
  have hfails : ∀ {c}, tt.Fails id c → ∃ e, found = .error e ∧ tt.Tells id e := fun h =>
    hfound.resolve_left fun ⟨n, hn⟩ => ((hsize n).mp hn).not_fails h
  refine ⟨hsize, fun c => ⟨?_, ?_⟩, ⟨fun he => ?_, fun hendless => ?_⟩, ?_⟩
  · rintro ⟨e, he, hcause⟩
    cases hexplains e he with
    | cause hcause' hfails hends =>
      exact ⟨Option.some.inj (hcause.symm.trans hcause') ▸ hfails, hends⟩
    | endless _ => cases hcause
  · rintro ⟨h, hends⟩
    obtain ⟨e, he, htells⟩ := hfails h
    cases htells with
    | cause hcause hfails' _ => exact ⟨e, he, h.unique hfails' ▸ hcause⟩
    | endless hendless => exact absurd hendless hends
  · cases hexplains _ he with
    | cause hcause _ _ => cases hcause
    | endless h => exact h
  · obtain ⟨e, he, htells⟩ := hfails hendless.fails
    cases htells with
    | cause _ _ hends => exact absurd hendless hends
    | endless _ => exact he
  · rcases hfound with h | ⟨e, he, htells⟩
    · exact .inl h
    · cases htells with
      | cause hcause _ _ => exact .inr (.inl ⟨e, _, he, hcause⟩)
      | endless _ => exact .inr (.inr he)

/-- An array whose element is its own number is restored. Its size should be refused, as arrays are
not held in memory, but the search for it does not come to an end. -/
theorem size_never_told :
    let tt := (builtin.intern { kind := .array, elem := 17 }).1
    restore tt.types tt.nominals = .ok tt ∧ tt.Fails 17 .unsupported
      ∧ (tt.sizeOf 17 []).1 = .error (.crash .endless) := by
  intro tt
  have hunsupported : tt.Unsupported 17 := by
    refine ⟨fun d hd => ?_, by decide +kernel⟩
    have hlookup : tt.lookup? 17 = some { kind := .array, elem := 17 } := by decide +kernel
    obtain rfl := Option.some.inj (hd.symm.trans hlookup)
    rfl
  have hsound : Sound tt := sound_builtin.intern rfl rfl
  exact ⟨hsound.restore_eq, ⟨17, .refl, hunsupported⟩, by decide +kernel⟩

end TypeTable

end WastForge
