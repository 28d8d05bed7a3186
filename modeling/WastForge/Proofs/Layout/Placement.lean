import WastForge.Proofs.Emit.Emits
import WastForge.Proofs.Layout.Request

/-!
# What a program mentions has its slot

Laying out the memory of a program takes steps, one after the other, and whatever an expression of
the bodies mentions has a slot in the end: every string, and every static field whose type has a
size.
-/

namespace WastForge

/-- The string that an expression stands for: that of a literal, and the empty one where a string is
missing. -/
def Expr.stringContent? (tt : TypeTable) : Expr → Option Bytes
  | .literal a l =>
    if l.kind = .string then some l.string
    else if (l.kind = .null ∨ l.kind = .default) ∧ tt.isString a.type then some []
    else none
  | _ => none

/-- The program declares the field, with this type. -/
def Program.Declares (p : Program) (field : MemberRef) (type : TypeId) : Prop :=
  ∃ decl, p.field? field = some decl ∧ type = decl.type

/-- The static field that an expression reads or writes. -/
def Expr.staticField? : Expr → Option MemberRef
  | .field _ target isStatic _ => if isStatic then some target else none
  | _ => none

/-- The field of a reference is the one at which the search for it ends. -/
theorem Program.field?_of_stop {p : Program} {target : MemberRef}
    {stop : Option (Option FieldDecl)} (h : p.fieldStop? target = stop) :
    p.field? target = stop.join := by
  rw [← h, field?, fieldStop?]
  cases p.type? target.type <;> rfl

namespace Arena

section

variable {α β : Type} {a b : Arena} {r : Except LayoutError β}

theorem leads_tryCatch {act : ArenaM β} {f : LayoutError → ArenaM β}
    (h : Leads (tryCatch act f) a r b) :
    (∃ x, r = .ok x ∧ Leads act a (.ok x) b)
      ∨ ∃ e c, Leads act a (.error e) c ∧ Leads (f e) c r b := by
  unfold Leads at h ⊢
  simp only [tryCatch, tryCatchThe, MonadExceptOf.tryCatch, ExceptT.tryCatch, ExceptT.run_mk,
    StateT.run_bind] at h
  rcases hact : act.run.run a with ⟨e | x, c⟩
  · have hrun : @StateT.run Arena Id _ act a = (.error e, c) := hact
    rw [hrun] at h
    exact .inr ⟨e, c, rfl, h⟩
  · have hrun : @StateT.run Arena Id _ act a = (.ok x, c) := hact
    rw [hrun] at h
    obtain ⟨rfl, rfl⟩ := Prod.mk.inj h
    exact .inl ⟨x, rfl, rfl⟩

theorem leads_error_of_map {act : ArenaM α} {x : β} {e : LayoutError}
    (h : Leads (act >>= fun _ => pure x) a (.error e) b) : Leads act a (.error e) b := by
  rcases leads_bind h with ⟨_, _, _, hpure⟩ | ⟨_, he, hact⟩
  · cases (leads_pure hpure).1
  · rwa [← Except.error.inj he] at hact

end

section

variable {p : Program} {a b : Arena}

/-- Placing a string takes a step at most, and then it has its slot. -/
theorem steps_placeString {Q : MemberRef → TypeId → Prop} {content : Bytes}
    {r : Except LayoutError StringSlot} (h : Leads (placeString content) a r b) :
    Steps Q a b ∧ ∀ s, r = .ok s → b.string? content = some s := by
  rcases leads_placeString h with ⟨s, hs, rfl, rfl⟩ | ⟨hnone, hnew | ⟨⟨e, rfl⟩, rfl, _⟩⟩
  · refine ⟨.refl, fun s' hs' => ?_⟩
    obtain rfl := Except.ok.inj hs'
    exact hs
  · obtain ⟨chars, hchars, hlength, hroom, rfl, rfl⟩ := hnew
    refine ⟨.single (.string hnone hchars hlength hroom), fun s hs => ?_⟩
    obtain rfl := Except.ok.inj hs
    exact find?_concat hnone (beq_iff_eq.mpr rfl)
  · exact ⟨.refl, fun s hs => nomatch hs⟩

/-- Placing a field takes a step at most, and then it has its slot. It fails because there is no
room, or because its type has no size. -/
theorem steps_placeField {Q : MemberRef → TypeId → Prop} {field : MemberRef} {type : TypeId}
    {readOnly : Bool} {r : Except LayoutError FieldSlot} (ha : a.Sound) (hfield : Q field type)
    (h : Leads (placeField field type readOnly) a r b) :
    Steps Q a b ∧ (∀ f, r = .ok f → b.field? field = some f)
      ∧ ∀ e, r = .error e → e = .overflow ∨ ∀ n, ¬a.types.HasSize type n := by
  rcases leads_placeField h with ⟨f, hf, rfl, rfl⟩ | ⟨hnone, hnew | ⟨e, rfl, rfl, hwhy⟩⟩
  · refine ⟨.refl, fun f' hf' => ?_, fun e he => nomatch he⟩
    obtain rfl := Except.ok.inj hf'
    exact hf
  · obtain ⟨size, hsize, hroom, rfl, rfl⟩ := hnew
    refine ⟨.single (.field hfield hnone hsize hroom), fun f hf => ?_, fun e he => nomatch he⟩
    obtain rfl := Except.ok.inj hf
    exact find?_concat hnone (decide_eq_true rfl)
  · refine ⟨.single (.sizes a type), fun f hf => (nomatch hf), fun e' he' => ?_⟩
    obtain rfl := Except.error.inj he'
    rcases hwhy with ⟨_, _, hoverflow, _⟩ | hsize
    · exact .inl hoverflow
    · refine .inr fun n hn => ?_
      cases hsize.symm.trans (((a.types.finds_sizeOf type a.sizes ha.known).1 n).mpr hn)

/-- What an expression mentions has its slot. -/
structure Serves (p : Program) (a : Arena) (e : Expr) : Prop where
  string : ∀ content, e.stringContent? p.types = some content → (a.string? content).isSome
  field : ∀ target decl, e.staticField? = some target → p.field? target = some decl →
    (∃ n, p.types.HasSize decl.type n) → (a.field? target).isSome

theorem serves_of_neither {e : Expr} (hstring : e.stringContent? p.types = none)
    (hfield : e.staticField? = none) : Serves p a e where
  string := fun _ h => nomatch hstring.symm.trans h
  field := fun _ _ h => nomatch hfield.symm.trans h

theorem serves_string {e : Expr} {content : Bytes} {r : Except LayoutError StringSlot}
    (hcontent : e.stringContent? p.types = some content) (hfield : e.staticField? = none)
    (h : Leads (placeString content) a r b) :
    Steps p.Declares a b ∧ ∀ s, r = .ok s → Serves p b e := by
  obtain ⟨hsteps, hslot⟩ := steps_placeString h
  refine ⟨hsteps, fun s hs => ⟨fun content' hcontent' => ?_, fun _ _ h => ?_⟩⟩
  · obtain rfl := Option.some.inj (hcontent.symm.trans hcontent')
    rw [hslot s hs]
    rfl
  · cases hfield.symm.trans h

theorem eq_of_staticField? {annot : Annot} {target target' : MemberRef} {isStatic : Bool}
    {receiver : Expr}
    (h : (Expr.field annot target isStatic receiver).staticField? = some target') :
    isStatic ∧ target = target' := by
  change (if isStatic then some target else none) = some target' at h
  split at h
  · exact ⟨‹_›, Option.some.inj h⟩
  · cases h

/-- Work that is given up with a warning where something has no representation. -/
theorem leads_attempt {α : Type} {act : ArenaM α} {warn : Bytes → Diagnostic}
    {r : Except LayoutError (Option Diagnostic)}
    (h : Leads (do
      try
        let _ ← act
        return none
      catch
        | .unsupported name => return some (warn name)
        | err => throw err) a r b) :
    ∃ r₁, Leads act a r₁ b
      ∧ (∀ e, r₁ = .error e → r = .error e ∨ ∃ name, e = .unsupported name)
      ∧ ∀ d, r = .ok (some d) → ∃ name, d = warn name := by
  rcases leads_bind h with ⟨x, c, htry, hend⟩ | ⟨e, rfl, htry⟩
  · -- the outcome of either branch is passed on as it is
    have hend : (∀ w, x = .error w ∨ x = .ok w → r = .ok w) ∧ b = c := by
      cases x with
      | ok x =>
        obtain ⟨hr, hb⟩ := leads_pure hend
        refine ⟨fun w hw => hr.trans ?_, hb⟩
        rcases hw with hw | hw <;> cases hw
        rfl
      | error x =>
        obtain ⟨hr, hb⟩ := leads_pure hend
        refine ⟨fun w hw => hr.trans ?_, hb⟩
        rcases hw with hw | hw <;> cases hw
        rfl
    obtain ⟨hr, rfl⟩ := hend
    rcases leads_tryCatch htry with ⟨y, hy, hplace⟩ | ⟨e, d, hact, hcatch⟩
    · rcases leads_bind hplace with ⟨f, d, hact, hret⟩ | ⟨e, hr, _⟩
      · obtain ⟨hx, rfl⟩ := Prod.mk.inj hret
        refine ⟨_, hact, fun e he => (nomatch he), fun d hd => ?_⟩
        have hnone := hr none (.inl (Except.ok.inj (hy.trans hx.symm)))
        cases hnone.symm.trans hd
      · cases hr
    · have hact := leads_error_of_map hact
      cases e with
      | unsupported name =>
        obtain ⟨hx, rfl⟩ := Prod.mk.inj hcatch
        refine ⟨_, hact, fun e he => .inr ⟨name, ?_⟩, fun d hd => ⟨name, ?_⟩⟩
        · exact (Except.error.inj he).symm
        · have hsome := hr (some (warn name)) (.inl (Except.ok.inj hx).symm)
          exact Option.some.inj (Except.ok.inj (hd.symm.trans hsome))
      | _ => cases congrArg Prod.fst hcatch
  · rcases leads_tryCatch htry with ⟨y, hy, _⟩ | ⟨e', d, hact, hcatch⟩
    · cases hy
    · have hact := leads_error_of_map hact
      cases e' with
      | unsupported name => cases congrArg Prod.fst hcatch
      | _ =>
        obtain rfl := congrArg Prod.snd hcatch
        refine ⟨_, hact, fun e he => .inl ?_, fun d hd => nomatch hd⟩
        obtain rfl := Except.error.inj he
        exact congrArg _ (Except.error.inj (congrArg Prod.fst hcatch)).symm

/-- Placing what an expression mentions takes steps, and then it has its slot. -/
theorem leads_placeMention {member : Bytes} {e : Expr} {r : Except LayoutError (Option Diagnostic)}
    (htypes : a.types = p.types) (ha : a.Sound) (h : Leads (placeMention p member e) a r b) :
    Steps p.Declares a b ∧ ∀ w, r = .ok w → Serves p b e := by
  unfold placeMention at h
  split at h
  · rename_i annot l
    have hplaced : ∀ {content : Bytes},
        (Expr.literal annot l).stringContent? p.types = some content →
        Leads (placeString content >>= fun _ => pure none) a r b →
        Steps p.Declares a b ∧ ∀ w, r = .ok w → Serves p b (.literal annot l) := by
      intro content hcontent hboth
      rcases leads_bind hboth with ⟨s, c, hplace, hrest⟩ | ⟨e, rfl, hplace⟩
      · obtain ⟨rfl, rfl⟩ := leads_pure hrest
        obtain ⟨hsteps, hserves⟩ := serves_string hcontent rfl hplace
        exact ⟨hsteps, fun _ _ => hserves s rfl⟩
      · exact ⟨(serves_string hcontent rfl hplace).1, fun w hw => nomatch hw⟩
    have hmissing : (l.kind = .null ∨ l.kind = .default) →
        Leads (if p.types.isString annot.type then placeString [] >>= fun _ => pure none
          else pure none) a r b →
        Steps p.Declares a b ∧ ∀ w, r = .ok w → Serves p b (.literal annot l) := by
      intro hkind hplace
      have hnot : l.kind ≠ .string := by rcases hkind with hkind | hkind <;> rw [hkind] <;> decide
      split at hplace
      · rename_i hstring
        refine hplaced ?_ hplace
        simp only [Expr.stringContent?, if_neg hnot]
        exact if_pos ⟨hkind, hstring⟩
      · rename_i hstring
        obtain ⟨rfl, rfl⟩ := leads_pure hplace
        refine ⟨.refl, fun _ _ => serves_of_neither ?_ rfl⟩
        simp only [Expr.stringContent?, if_neg hnot]
        exact if_neg fun hboth => hstring hboth.2
    split at h
    · rename_i hkind
      exact hplaced (by simp only [Expr.stringContent?, if_pos hkind]) h
    · rename_i hkind
      exact hmissing (.inl hkind) h
    · rename_i hkind
      exact hmissing (.inr hkind) h
    · rename_i hstring hnull hdefault
      obtain ⟨rfl, rfl⟩ := leads_pure h
      refine ⟨.refl, fun _ _ => serves_of_neither ?_ rfl⟩
      simp only [Expr.stringContent?, if_neg hstring]
      exact if_neg fun hboth => hboth.1.elim hnull hdefault
  · rename_i annot target isStatic receiver
    cases hstop : p.fieldStop? target with
    | none =>
      have hdecl : p.field? target = none := Program.field?_of_stop hstop
      rw [hstop] at h
      obtain ⟨rfl, rfl⟩ := leads_pure h
      refine ⟨.refl, fun _ _ => ⟨fun _ h => (nomatch h), fun target' decl htarget hdecl' => ?_⟩⟩
      obtain ⟨-, rfl⟩ := eq_of_staticField? htarget
      cases hdecl.symm.trans hdecl'
    | some stop =>
    cases stop with
    | none =>
      rw [hstop] at h
      obtain ⟨rfl, rfl⟩ := leads_throw h
      exact ⟨.refl, fun w hw => nomatch hw⟩
    | some decl =>
      have hdecl : p.field? target = some decl := Program.field?_of_stop hstop
      simp only [hstop] at h
      split at h
      · rename_i hstatic
        obtain ⟨rfl, rfl⟩ := leads_pure h
        refine ⟨.refl, fun _ _ => serves_of_neither rfl ?_⟩
        simpa [Expr.staticField?] using hstatic
      · obtain ⟨r₁, hplace, hfailed, -⟩ := leads_attempt h
        have hdeclares : p.Declares target decl.type := ⟨decl, hdecl, rfl⟩
        obtain ⟨hsteps, hslot, hwhy⟩ := steps_placeField ha hdeclares hplace
        refine ⟨hsteps, fun w hw => ⟨fun _ h => (nomatch h), ?_⟩⟩
        intro target' decl' htarget hdecl' hsize
        obtain ⟨-, rfl⟩ := eq_of_staticField? htarget
        obtain rfl := Option.some.inj (hdecl.symm.trans hdecl')
        cases hr₁ : r₁ with
        | ok f =>
          rw [hslot f hr₁]
          rfl
        | error e =>
          rcases hfailed e hr₁ with herror | ⟨name, rfl⟩
          · cases hw.symm.trans herror
          · obtain ⟨n, hn⟩ := hsize
            rcases hwhy _ hr₁ with hoverflow | hnone
            · cases hoverflow
            · exact absurd (htypes ▸ hn) (hnone n)
  · rename_i hliteral hfield
    obtain ⟨rfl, rfl⟩ := leads_pure h
    refine ⟨.refl, fun _ _ => serves_of_neither ?_ ?_⟩
    · cases e with
      | literal annot l => exact absurd rfl (hliteral annot l)
      | _ => rfl
    · cases e with
      | field annot target isStatic receiver =>
        exact absurd rfl (hfield annot target isStatic receiver)
      | _ => rfl

/-- The only warnings are those of fields whose types have no representation. -/
theorem warning_placeMention {member : Bytes} {e : Expr} {d : Diagnostic}
    (h : Leads (placeMention p member e) a (.ok (some d)) b) :
    d.code = .fieldType ∧ d.severity = .warning := by
  have hplaced : ∀ content : Bytes,
      ¬Leads (placeString content >>= fun _ => pure none) a (.ok (some d)) b := by
    intro content hboth
    rcases leads_bind hboth with ⟨s, c, _, hrest⟩ | ⟨e, he, _⟩
    · cases (leads_pure hrest).1
    · cases he
  unfold placeMention at h
  split at h
  · split at h
    · exact absurd h (hplaced _)
    · split at h
      · exact absurd h (hplaced _)
      · cases (leads_pure h).1
    · split at h
      · exact absurd h (hplaced _)
      · cases (leads_pure h).1
    · cases (leads_pure h).1
  · split at h
    · cases (leads_pure h).1
    · cases (leads_throw h).1
    · split at h
      · cases (leads_pure h).1
      · obtain ⟨_, _, _, hwarn⟩ := leads_attempt h
        obtain ⟨name, rfl⟩ := hwarn d rfl
        exact ⟨rfl, rfl⟩
  · cases (leads_pure h).1

theorem Serves.mono {e : Expr} (h : Serves p a e) (hsteps : Steps p.Declares a b) :
    Serves p b e where
  string := fun content hcontent => by
    obtain ⟨s, hs⟩ := Option.isSome_iff_exists.mp (h.string content hcontent)
    rw [hsteps.extends.string? hs]
    rfl
  field := fun target decl htarget hdecl hsize => by
    obtain ⟨f, hf⟩ := Option.isSome_iff_exists.mp (h.field target decl htarget hdecl hsize)
    rw [hsteps.extends.field? hf]
    rfl

/-- Work that is written down leads from one arena to another. -/
def Goes {α : Type} (act : PlaceM α) (a : Arena) (r : Except Failure α) (b : Arena) : Prop :=
  ∃ j j', (act.run.run a).run j = ((r, b), j')

theorem goes_get_bind {α : Type} {f : Arena → PlaceM α} {r : Except Failure α}
    (h : Goes (getThe Arena >>= f) a r b) : Goes (f a) a r b :=
  h

theorem goes_set_bind {α : Type} {c : Arena} {f : PUnit → PlaceM α} {r : Except Failure α}
    (h : Goes (set c >>= f) a r b) : Goes (f ⟨⟩) c r b :=
  h

theorem goes_bind {α β : Type} {act : PlaceM α} {f : α → PlaceM β} {r : Except Failure β}
    (h : Goes (act >>= f) a r b) :
    (∃ x c, Goes act a (.ok x) c ∧ Goes (f x) c r b)
      ∨ ∃ e, r = .error e ∧ Goes act a (.error e) b := by
  obtain ⟨j, j', h⟩ := h
  rw [ExceptT.run_bind, StateT.run_bind, StateT.run_bind] at h
  rcases hact : (act.run.run a).run j with ⟨⟨e | x, c⟩, j₁⟩
  · rw [hact] at h
    obtain ⟨hboth, rfl⟩ := Prod.mk.inj h
    obtain ⟨rfl, rfl⟩ := Prod.mk.inj hboth
    exact .inr ⟨e, rfl, j, j₁, hact⟩
  · rw [hact] at h
    exact .inl ⟨x, c, ⟨j, j₁, hact⟩, j₁, j', h⟩

/-- The work takes steps, and if it is not given up then whatever the expressions mention has its
slot. -/
def Covers (p : Program) (act : PlaceM Unit) (es : List Expr) : Prop :=
  ∀ a r b, Goes act a r b → a.types = p.types → a.Sound →
    Steps p.Declares a b ∧ (r = .ok () → ∀ e ∈ es, Serves p b e)

theorem covers_place (member : Bytes) (e : Expr) : Covers p (place p member e) [e] := by
  intro a r b h htypes ha
  rcases hrun : (placeMention p member e).run a with ⟨r₁, c⟩
  obtain ⟨hsteps, hserves⟩ := leads_placeMention htypes ha hrun
  have h := goes_get_bind h
  simp only [hrun] at h
  obtain ⟨j, j', h⟩ := goes_set_bind h
  have hb : b = c := by
    rcases r₁ with err | _ | d
    all_goals exact (congrArg (fun x => x.1.2) h).symm
  refine ⟨hb ▸ hsteps, fun hr => List.forall_mem_singleton.mpr ?_⟩
  subst hb
  rcases r₁ with err | w
  · cases hr.symm.trans (congrArg (fun x => x.1.1) h).symm
  · exact hserves w rfl

theorem covers_pure : Covers p (pure ()) [] := by
  rintro a r b ⟨j, j', h⟩ _ _
  obtain rfl := congrArg (fun x => x.1.2) h
  exact ⟨.refl, fun _ => List.forall_mem_nil _⟩

theorem Covers.seq {act next : PlaceM Unit} {es es' : List Expr} (h : Covers p act es)
    (hnext : Covers p next es') : Covers p (act >>= fun _ => next) (es ++ es') := by
  intro a r b hrun htypes ha
  rcases goes_bind hrun with ⟨_, c, hact, hrest⟩ | ⟨e, rfl, hact⟩
  · obtain ⟨hsteps, hserves⟩ := h a _ c hact htypes ha
    obtain ⟨hsteps', hserves'⟩ := hnext c r b hrest (hsteps.extends.types.trans htypes)
      (hsteps.sound ha)
    refine ⟨hsteps.trans hsteps', fun hr => List.forall_mem_append.mpr ⟨?_, hserves' hr⟩⟩
    exact fun e he => (hserves rfl e he).mono hsteps'
  · exact ⟨(h a _ b hact htypes ha).1, fun hr => nomatch hr⟩

theorem covers_forM {α : Type} {f : α → PlaceM Unit} {es : α → List Expr}
    (hf : ∀ x, Covers p (f x) (es x)) (l : List α) : Covers p (l.forM f) (l.flatMap es) := by
  induction l with
  | nil => exact covers_pure
  | cons x l ih => exact (hf x).seq ih

theorem covers_placeAll (bodies : List Body) :
    Covers p (placeAll p bodies) (bodies.flatMap mentions) := by
  refine covers_forM (fun b => ?_) bodies
  have h := covers_forM (p := p) (covers_place b.func.qualifiedName) (mentions b)
  rwa [List.flatMap_singleton'] at h

/-- What comes out does not depend on what was written down before. -/
def Silent {α : Type} (act : PlaceM α) : Prop :=
  ∀ a j j', ((act.run.run a).run j).1 = ((act.run.run a).run j').1

theorem Silent.bind {α β : Type} {act : PlaceM α} {f : α → PlaceM β} (h : Silent act)
    (hf : ∀ x, Silent (f x)) : Silent (act >>= f) := by
  intro a j j'
  have hact := h a j j'
  rw [ExceptT.run_bind, StateT.run_bind, StateT.run_bind, StateT.run_bind]
  rcases hj : (act.run.run a).run j with ⟨⟨r, c⟩, k⟩
  rcases hj' : (act.run.run a).run j' with ⟨⟨r', c'⟩, k'⟩
  rw [hj, hj'] at hact
  obtain ⟨rfl, rfl⟩ := Prod.mk.inj hact
  cases r with
  | error e => rfl
  | ok x => exact hf x c k k'

theorem silent_place (member : Bytes) (e : Expr) : Silent (place p member e) := by
  unfold place
  refine Silent.bind (fun _ _ _ => rfl) fun a => ?_
  rcases (placeMention p member e).run a with ⟨r, c⟩
  refine Silent.bind (fun _ _ _ => rfl) fun _ => ?_
  rcases r with err | _ | d
  all_goals exact fun _ _ _ => rfl

theorem silent_forM {α : Type} {f : α → PlaceM Unit} (hf : ∀ x, Silent (f x)) (l : List α) :
    Silent (l.forM f) := by
  induction l with
  | nil => exact fun _ _ _ => rfl
  | cons x l ih => exact (hf x).bind fun _ => ih

theorem silent_placeAll (bodies : List Body) : Silent (placeAll p bodies) := by
  refine silent_forM (fun b => ?_) bodies
  exact silent_forM (silent_place b.func.qualifiedName) (mentions b)

/-- What is laid out does not depend on what was written down before. -/
theorem result?_ofProgram {heapSize : UInt32} {bodies : List Body}
    (h : Work.Comes (ofProgram p heapSize bodies) a) :
    (ofProgram p heapSize bodies).result? = some a := by
  obtain ⟨j, j', h⟩ := h
  have hrun := silent_placeAll (p := p) bodies { types := p.types, heapSize := heapSize }
    (.enter .pass "layout" :: j) [.enter .pass "layout"]
  have hsame : ((ofProgram p heapSize bodies).run j).1 = ((ofProgram p heapSize bodies).run []).1 :=
    congrArg (fun x => x.1.map fun _ => x.2) hrun
  rw [Work.result?, ← hsame, h]
  rfl

/-- Laying out a program takes steps, and whatever its bodies mention has its slot. -/
theorem comes_ofProgram {heapSize : UInt32} {bodies : List Body}
    (h : Work.Comes (ofProgram p heapSize bodies) a) :
    Steps p.Declares { types := p.types, heapSize := heapSize } a
      ∧ ∀ body ∈ bodies, ∀ e ∈ mentions body, Serves p a e := by
  obtain ⟨j, j', h⟩ := h
  rcases hrun : ((placeAll p bodies).run.run { types := p.types, heapSize := heapSize }).run
    (.enter .pass "layout" :: j) with ⟨⟨r, b⟩, j₁⟩
  obtain ⟨hsteps, hserves⟩ :=
    covers_placeAll bodies _ r b ⟨_, _, hrun⟩ rfl (sound_start _ _)
  have hresult : r.map (fun _ => b) = .ok a :=
    (congrArg (fun x => x.1.1.map fun _ => x.1.2) hrun).symm.trans (congrArg Prod.fst h)
  cases r with
  | error e => cases hresult
  | ok _ =>
    obtain rfl := Except.ok.inj hresult
    refine ⟨hsteps, fun body hbody e he => ?_⟩
    exact hserves rfl e (List.mem_flatMap.mpr ⟨body, hbody, he⟩)

end

end Arena

end WastForge
