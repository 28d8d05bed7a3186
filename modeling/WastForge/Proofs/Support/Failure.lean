import WastForge.Proofs.Program.Mapping
import WastForge.Support.Expand

/-!
# How expansion fails

Expanding support calls stops for reasons of its own, which are told apart by their codes. All of
them are errors, unless the process ends with the work, and none of them is that a slot is missing.
-/

namespace WastForge

/-- The failure has a code that is not `c`, and it is an error of the program unless the process
ended with the work. -/
structure Failure.IsError (c : Code) (f : Failure) : Prop where
  code : f.code ≠ c
  error : f.isCrash = false → ∃ d, f.problem? = some d ∧ d.severity = .error

namespace Failure.IsError

variable {c : Code}

theorem of_code {code : Code} (h : code ≠ c) (span : Span) (message : Bytes) :
    (problem (.fatal code span message)).IsError c :=
  ⟨h, fun _ => ⟨_, rfl, rfl⟩⟩

theorem of_crash (h : .unknown ≠ c) (how : Crash) : (crash how).IsError c :=
  ⟨h, fun hreturns => nomatch hreturns⟩

theorem inMember {d : Diagnostic} (h : (problem d).IsError c) (member : Bytes) :
    (problem (d.inMember member)).IsError c := by
  unfold Diagnostic.inMember
  split
  · obtain ⟨_, heq, hsev⟩ := h.error rfl
    obtain rfl := Option.some.inj heq
    exact ⟨h.code, fun _ => ⟨_, rfl, hsev⟩⟩
  · exact h

theorem during {f : Failure} (h : f.IsError c) (what : Bytes) : (Failure.during what f).IsError c :=
  ⟨h.code, h.error⟩

end Failure.IsError

namespace Support

/-- Expansion that fails with errors only, and not for want of a slot. -/
def Spares (α : Type) (act : ExpandM α) : Prop :=
  ∀ u f, act u = .error f → f.IsError .missingSlot

/-- A property of expansion that holds of stopping for a reason of its own, and is kept from step to
step. -/
structure Calm (G : (α : Type) → ExpandM α → Prop) : Prop where
  pure : ∀ {α : Type} (a : α), G α (pure a)
  bind : ∀ {α β : Type} {act : ExpandM α} {next : α → ExpandM β},
    G α act → (∀ a, G β (next a)) → G β (act >>= next)
  problem : ∀ {α : Type} {code : Code}, code ≠ .missingSlot → ∀ span message,
    G α (problem code span message)
  absent : ∀ {α : Type}, G α absent

namespace Calm

variable {G : (α : Type) → ExpandM α → Prop}

theorem ite {α : Type} {c : Prop} [Decidable c] {act act' : ExpandM α} (h : G α act)
    (h' : G α act') : G α (if c then act else act') := by
  split
  · exact h
  · exact h'

theorem exportName (hG : Calm G) (e : Expr) : G _ (exportName e) := by
  unfold Support.exportName
  split
  · exact hG.pure _
  · exact ite hG.absent (hG.problem (by decide) _ _)

theorem argumentList (hG : Calm G) (e : Expr) : G _ (argumentList e) := by
  unfold Support.argumentList
  split
  · exact ite (hG.pure _) (ite (hG.pure _) (hG.problem (by decide) _ _))
  · exact hG.absent
  · exact hG.problem (by decide) _ _

theorem elementAddress (hG : Calm G) (tt : TypeTable) (view : HeapView) (first : Expr)
    (second : Option Expr) : G _ (elementAddress tt view first second) :=
  ite hG.absent (hG.pure _)

theorem assertHeap (hG : Calm G) (span : Span) (offset : Expr) (count : Option Expr)
    (expected : Expr) : G _ (assertHeap span offset count expected) := by
  unfold Support.assertHeap
  split
  · exact hG.problem (by decide) _ _
  · split
    · exact hG.problem (by decide) _ _
    · exact ite (hG.pure _) (hG.problem (by decide) _ _)

theorem assertHeapFile (hG : Calm G) (span : Span) (offset count path : Expr) :
    G _ (assertHeapFile span offset count path) := by
  unfold Support.assertHeapFile
  split
  · exact ite (hG.pure _) (hG.problem (by decide) _ _)
  · exact hG.problem (by decide) _ _

theorem assertion (hG : Calm G) (span : Span) (isEq : Bool) (expected name args : Expr) :
    G _ (assertion span isEq expected name args) := by
  refine hG.bind (hG.exportName name) fun _ => ?_
  exact hG.bind (hG.argumentList args) fun _ => hG.pure _

/-- Calls have the property if those do that declare something on the side. -/
theorem expandCall (hG : Calm G) {tt : TypeTable} {owner : Bytes} {member : SupportMember}
    (hsize : member = .setHeapSize → ∀ span size, G _ (declareHeapSize owner span size))
    (hop : member = .setStdout ∨ member = .write → ∀ span op args, G _ (harnessCall span op args))
    (a : Annot) (target : MemberRef) (params : Option (List TypeId)) (receiver : Expr)
    (args : Option (List Expr)) :
    G _ (expandCall tt owner member a target params receiver args) := by
  have hsome : ∀ {act : ExpandM Expr}, G _ act → G _ (do return some (← act)) :=
    fun h => hG.bind h fun _ => hG.pure _
  unfold Support.expandCall
  split
  · exact ite hG.absent (ite (hG.pure _) (hG.pure _))
  · exact hG.bind (hG.elementAddress _ _ _ _) fun _ => hG.pure _
  · exact hG.bind (hG.elementAddress _ _ _ _) fun _ => hG.pure _
  · exact hG.bind (hG.elementAddress _ _ _ _) fun _ => hG.pure _
  · exact hG.bind (hG.elementAddress _ _ _ _) fun _ => hG.pure _
  · exact ite (hG.problem (by decide) _ _) (hG.pure _)
  · exact ite (hG.problem (by decide) _ _) (hG.pure _)
  · exact hG.bind (hsize rfl _ _) fun _ => hG.pure _
  · exact hG.pure _
  · refine hG.bind (hG.exportName _) fun _ => ?_
    exact hG.bind (hG.argumentList _) fun _ => hG.pure _
  · exact hsome (hG.assertion _ _ _ _ _)
  · exact hsome (hG.assertion _ _ _ _ _)
  · exact hsome (hG.assertHeap _ _ _ _)
  · exact hsome (hG.assertHeap _ _ _ _)
  · exact hsome (hG.assertHeapFile _ _ _ _)
  · exact hsome (hop (.inl rfl) _ _ _)
  · exact hsome (hop (.inr rfl) _ _ _)
  · exact hG.problem (by decide) _ _

end Calm

theorem calm_spares : Calm Spares where
  pure := fun _ _ _ h => nomatch h
  bind := by
    intro α β act next hact hnext u f h
    have hrun : (act u >>= fun x => next x.1 x.2) = .error f := h
    cases hfirst : act u with
    | error e =>
      rw [hfirst] at hrun
      obtain rfl := Except.error.inj hrun
      exact hact u e hfirst
    | ok x =>
      rw [hfirst] at hrun
      exact hnext x.1 x.2 f hrun
  problem := by
    intro α code h span message u f hf
    obtain rfl := Except.error.inj hf
    exact .of_code h span message
  absent := by
    intro α u f hf
    obtain rfl := Except.error.inj hf
    exact .of_crash (by decide) _

theorem spares_modify (g : SupportUse → SupportUse) : Spares _ (modify g) :=
  fun _ _ h => nomatch h

theorem spares_declareHeapSize (owner : Bytes) (span : Span) (size : Expr) :
    Spares _ (declareHeapSize owner span size) := by
  have hstop : ∀ {α : Type} {code : Code} {message : Bytes}, code ≠ .missingSlot →
      Spares α (problem code span message) := fun h => calm_spares.problem h _ _
  have honce : ∀ {c : Prop} [Decidable c] {message : Bytes} {act : ExpandM Unit}, Spares _ act →
      Spares _ (if c then problem .heapSizeTwice span message >>= fun (_ : Unit) => act else act) :=
    fun h => Calm.ite (calm_spares.bind (hstop (by decide)) fun _ => h) h
  unfold declareHeapSize
  refine calm_spares.bind (fun _ _ h => nomatch h) fun u => ?_
  split
  · exact honce (hstop (by decide))
  · exact honce (Calm.ite (spares_modify _) (hstop (by decide)))

theorem spares_harnessCall (span : Span) (op : HarnessOp) (args : Option (List Expr)) :
    Spares _ (harnessCall span op args) :=
  calm_spares.bind (spares_modify _) fun _ => calm_spares.pure _

theorem spares_expandCall (tt : TypeTable) (owner : Bytes) (member : SupportMember) (a : Annot)
    (target : MemberRef) (params : Option (List TypeId)) (receiver : Expr)
    (args : Option (List Expr)) :
    Spares _ (expandCall tt owner member a target params receiver args) :=
  calm_spares.expandCall (fun _ => spares_declareHeapSize owner) (fun _ => spares_harnessCall)
    a target params receiver args

theorem spares_expandExpr (tt : TypeTable) (owner : Bytes) (e : Expr) :
    Spares _ (expandExpr tt owner e) := by
  unfold expandExpr
  repeat' split
  · exact calm_spares.pure _
  · exact spares_expandCall _ _ _ _ _ _ _ _
  · exact calm_spares.pure _

theorem spares_expandBody (tt : TypeTable) (b : Body) : Spares _ (expandBody tt b) := by
  intro u f h
  have hbody : Spares _ (Transform.body (expandExpr tt b.func.declaringType) b.root) := by
    intro u f hfail
    obtain ⟨e, v, hexpr⟩ := (Transform.body_eq_error_iff.mp hfail).exists_error
    exact spares_expandExpr _ _ e v f hexpr
  unfold expandBody at h
  split at h
  · cases h
  · rename_i d hd
    obtain rfl := Except.error.inj h
    exact (hbody u _ hd).inMember _
  · rename_i f' _ hf'
    obtain rfl := Except.error.inj h
    exact (hbody u f' hf').during _

theorem isError_expand {p : Program} {f : Failure} (h : expand p = .error f) :
    f.IsError .missingSlot := by
  have hmap : ∀ l : List Body, Spares _ (l.mapM (expandBody p.types)) := by
    intro l
    induction l with
    | nil =>
      rw [List.mapM_nil]
      exact calm_spares.pure _
    | cons b rest ih =>
      rw [List.mapM_cons]
      refine calm_spares.bind (spares_expandBody p.types b) fun _ => ?_
      exact calm_spares.bind ih fun _ => calm_spares.pure _
  unfold expand at h
  cases hrun : (p.bodies.mapM (expandBody p.types)).run {} with
  | ok x =>
    rw [hrun] at h
    cases h
  | error f' =>
    rw [hrun] at h
    obtain rfl := Except.error.inj h
    exact hmap p.bodies {} f' hrun

end Support

end WastForge
