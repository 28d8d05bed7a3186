import WastForge.Proofs.Machine.Agree

/-!
# What a run depends on

The runs of a safe form agree: how a run ends depends neither on the lines of the form, nor on the
budget while it lasts, nor on locals that the form does not name. Every construct of the machine
keeps agreement, so it is kept by whole runs, whose forms are evaluated by induction on the fuel.
-/

namespace WastForge

namespace SourceForm

variable {n₁ n₂ : SourceForm}

theorem word_eq_of_form (h : n₁.form = n₂.form) : n₁.word = n₂.word := by
  cases n₁ <;> cases n₂ <;> simp_all [form, word]

theorem isList_eq_of_form (h : n₁.form = n₂.form) : n₁.isList = n₂.isList := by
  cases n₁ <;> cases n₂ <;> simp_all [form, isList]

theorem word_form (n : SourceForm) : n.form.word = n.word := by
  cases n <;> rfl

theorem forms_cons_eq {ns₁ ns₂ : List SourceForm} {a : SourceForm}
    (h : forms (a :: ns₁) = forms ns₂) :
    ∃ b rest, ns₂ = b :: rest ∧ a.form = b.form ∧ forms ns₁ = forms rest := by
  obtain ⟨b, rest, rfl, hb, hrest⟩ := forms_eq_cons h.symm
  exact ⟨b, rest, rfl, hb.symm, hrest.symm⟩

theorem forms_nil_eq {ns : List SourceForm} (h : forms [] = forms ns) : ns = [] :=
  forms_eq_nil h.symm

theorem length_eq_of_forms {ns₁ ns₂ : List SourceForm} (h : forms ns₁ = forms ns₂) :
    ns₁.length = ns₂.length := by
  induction ns₁ generalizing ns₂ with
  | nil => rw [forms_nil_eq h]
  | cons a rest ih =>
    obtain ⟨b, rest', rfl, _, hrest⟩ := forms_cons_eq h
    simp [ih hrest]

theorem head_eq_of_form (h : n₁.form = n₂.form) : n₁.head = n₂.head := by
  cases n₁ <;> cases n₂ <;> simp only [form, reduceCtorEq, Form.list.injEq] at h <;> try rfl
  rename_i items₁ _ items₂
  cases items₁ with
  | nil =>
    rw [forms_nil_eq h]
    rfl
  | cons a rest =>
    obtain ⟨b, rest', rfl, hab, _⟩ := forms_cons_eq h
    exact word_eq_of_form hab

theorem args_eq_of_form (h : n₁.form = n₂.form) : forms n₁.args = forms n₂.args := by
  cases n₁ <;> cases n₂ <;> simp only [form, reduceCtorEq, Form.list.injEq] at h <;> try rfl
  rename_i items₁ _ items₂
  cases items₁ with
  | nil =>
    rw [forms_nil_eq h]
    rfl
  | cons a rest =>
    obtain ⟨b, rest', rfl, _, hrest⟩ := forms_cons_eq h
    exact hrest

theorem eq_text_of_form {line : UInt32} {t : Bytes} (h : (text line t).form = n₂.form) :
    ∃ line', n₂ = .text line' t := by
  cases n₂ <;> simp_all [form]

mutual

theorem shown_eq_of_form : ∀ {n₁ n₂ : SourceForm}, n₁.form = n₂.form → n₁.shown = n₂.shown
  | .atom _ w, .atom _ w', h => by simpa [form, shown] using h
  | .text _ t, .text _ t', h => by
    simp only [form, Form.text.injEq] at h
    rw [shown, shown, h]
  | .list _ items, .list _ items', h => by
    simp only [form, Form.list.injEq] at h
    rw [shown, shown, shownAll_eq_of_forms h]

theorem shownAll_eq_of_forms :
    ∀ {ns₁ ns₂ : List SourceForm}, forms ns₁ = forms ns₂ → shownAll ns₁ = shownAll ns₂
  | [], ns₂, h => by rw [forms_nil_eq h]
  | a :: rest, ns₂, h => by
    obtain ⟨b, rest', rfl, hab, hrest⟩ := forms_cons_eq h
    rw [shownAll, shownAll, shown_eq_of_form hab, shownAll_eq_of_forms hrest]

end

end SourceForm

namespace Eval

variable {α : Type} {w : Twins} {hidden : List Bytes} {bound : Bytes → Prop}
variable {eval₁ eval₂ : Inner}

/-- Safe forms are evaluated alike. -/
def InnerSim (w : Twins) (eval₁ eval₂ : Inner) : Prop :=
  ∀ (hidden : List Bytes) (bound : Bytes → Prop) (f : Frame) (n₁ n₂ : SourceForm),
    n₁.form = n₂.form → n₁.form.Safe hidden bound →
      Sim w hidden bound (eval₁ f n₁) (eval₂ f n₂)

theorem sim_seq (heval : InnerSim w eval₁ eval₂) (f : Frame) {ns₁ ns₂ : List SourceForm}
    (hns : SourceForm.forms ns₁ = SourceForm.forms ns₂)
    (hsafe : Form.SafeAll hidden bound (SourceForm.forms ns₁)) :
    Sim w hidden bound (seq eval₁ f ns₁) (seq eval₂ f ns₂) := by
  induction ns₁ generalizing ns₂ with
  | nil =>
    rw [SourceForm.forms_nil_eq hns]
    exact sim_pure _
  | cons a rest ih =>
    obtain ⟨b, rest', rfl, hab, hrest⟩ := SourceForm.forms_cons_eq hns
    have hfirst := heval hidden bound f a b hab hsafe.1
    cases rest with
    | nil =>
      rw [SourceForm.forms_nil_eq hrest]
      exact hfirst
    | cons c rest =>
      obtain ⟨d, rest', rfl, _, _⟩ := SourceForm.forms_cons_eq hrest
      exact sim_bind hfirst fun _ => ih hrest hsafe.2

theorem sim_args (heval : InnerSim w eval₁ eval₂) (f : Frame) {ns₁ ns₂ : List SourceForm}
    (hns : SourceForm.forms ns₁ = SourceForm.forms ns₂)
    (hsafe : Form.SafeAll hidden bound (SourceForm.forms ns₁)) :
    Sim w hidden bound (args eval₁ f ns₁) (args eval₂ f ns₂) := by
  induction ns₁ generalizing ns₂ with
  | nil =>
    rw [SourceForm.forms_nil_eq hns]
    exact sim_pure _
  | cons a rest ih =>
    obtain ⟨b, rest', rfl, hab, hrest⟩ := SourceForm.forms_cons_eq hns
    refine sim_bind (heval hidden bound f a b hab hsafe.1) fun v => ?_
    exact sim_bind (ih hrest hsafe.2) fun vs => sim_pure _

/-- What a block or loop with these arguments may branch to. -/
def inside (bound : Bytes → Prop) (label : Option Bytes) (l : Bytes) : Prop :=
  label = some l ∨ bound l

/-- The label and the body of a block do not depend on the lines, and its body may branch to the
label. -/
theorem splitLabel_eq {ns₁ ns₂ : List SourceForm}
    (hns : SourceForm.forms ns₁ = SourceForm.forms ns₂) :
    (splitLabel ns₁).1 = (splitLabel ns₂).1
      ∧ SourceForm.forms (splitLabel ns₁).2 = SourceForm.forms (splitLabel ns₂).2 := by
  cases ns₁ with
  | nil =>
    rw [SourceForm.forms_nil_eq hns]
    exact ⟨rfl, rfl⟩
  | cons a rest =>
    obtain ⟨b, rest', rfl, hab, hrest⟩ := SourceForm.forms_cons_eq hns
    cases a with
    | atom line word =>
      obtain ⟨line', rfl⟩ := SourceForm.eq_atom_of_form hab.symm
      simp only [splitLabel]
      split
      · exact ⟨rfl, hrest⟩
      · exact ⟨rfl, by simpa [SourceForm.forms, SourceForm.form] using hrest⟩
    | text line t =>
      obtain ⟨line', rfl⟩ := SourceForm.eq_text_of_form hab
      exact ⟨rfl, hns⟩
    | list line items =>
      obtain ⟨line', items', rfl, _⟩ := SourceForm.eq_list_of_form hab.symm
      exact ⟨rfl, hns⟩

theorem agree_caught {label : Option Bytes} {r₁ r₂ : EStateM.Result Stop Machine Value}
    (h : Agree w hidden (inside bound label) r₁ r₂) :
    Agree w hidden bound (caught label r₁) (caught label r₂) := by
  cases h with
  | ok hm => exact .ok hm
  | @branch l m₁ m₂ hl hm =>
    by_cases hlabel : label = some l
    · simp only [caught, goesTo, hlabel, decide_true, if_true]
      exact .ok hm
    · simp only [caught, goesTo, hlabel, decide_false]
      exact .branch (hl.resolve_left hlabel) hm
  | ret hm => exact .ret hm
  | trap ht hstray hm => exact .trap ht hstray hm
  | crash hm => exact .crash hm
  | exhausted ht => exact .exhausted ht

/-- The body of a safe block is safe, with its label bound. -/
theorem safeAll_splitLabel {ns : List SourceForm}
    (hsafe : Form.SafeBody hidden bound (SourceForm.forms ns)) :
    Form.SafeAll hidden (inside bound (splitLabel ns).1)
      (SourceForm.forms (splitLabel ns).2) := by
  cases ns with
  | nil => trivial
  | cons a rest =>
    obtain ⟨hfirst, hbody⟩ := hsafe
    rw [SourceForm.word_form] at hbody
    cases a with
    | atom line word =>
      simp only [splitLabel, SourceForm.word, Form.isLabel] at hbody ⊢
      by_cases hlabel : word.head? = some 36
      · rw [if_pos hlabel]
        refine Form.SafeAll.mono (fun k hk => ?_) _ hbody
        exact hk.imp_left fun h => congrArg some h.2.symm
      · rw [if_neg hlabel]
        refine ⟨trivial, Form.SafeAll.mono (fun k hk => ?_) _ hbody⟩
        exact .inr (hk.resolve_left fun h => hlabel (of_decide_eq_true h.1))
    | text line t =>
      refine ⟨trivial, Form.SafeAll.mono (fun k hk => ?_) _ hbody⟩
      exact .inr (hk.resolve_left fun h => by simp [SourceForm.word, Form.isLabel] at h)
    | list line items =>
      refine ⟨Form.Safe.mono (fun k hk => .inr hk) _ hfirst,
        Form.SafeAll.mono (fun k hk => ?_) _ hbody⟩
      exact .inr (hk.resolve_left fun h => by simp [SourceForm.word, Form.isLabel] at h)

theorem sim_block (heval : InnerSim w eval₁ eval₂) (f : Frame) {ns₁ ns₂ : List SourceForm}
    (hns : SourceForm.forms ns₁ = SourceForm.forms ns₂)
    (hsafe : Form.SafeBody hidden bound (SourceForm.forms ns₁)) :
    Sim w hidden bound (block eval₁ f ns₁) (block eval₂ f ns₂) := by
  intro m₁ m₂ hm
  obtain ⟨hlabel, hbody⟩ := splitLabel_eq hns
  have hr := sim_seq heval f hbody (safeAll_splitLabel hsafe) m₁ m₂ hm
  rw [block_eq, block_eq, ← hlabel]
  exact agree_caught hr

theorem sim_rounds (heval : InnerSim w eval₁ eval₂) (f : Frame) (label : Option Bytes)
    {ns₁ ns₂ : List SourceForm} (hns : SourceForm.forms ns₁ = SourceForm.forms ns₂)
    (hsafe : Form.SafeAll hidden (inside bound label) (SourceForm.forms ns₁)) (k₁ k₂ : Nat)
    (hk : k₁ ≤ k₂) :
    Sim w hidden bound (rounds w.env₁ eval₁ f label ns₁ k₁)
      (rounds w.env₂ eval₂ f label ns₂ k₂) := by
  induction k₁ generalizing k₂ with
  | zero =>
    intro m₁ m₂ _
    exact .exhausted ⟨rfl, rfl⟩
  | succ k₁ ih =>
    obtain ⟨k₂, rfl⟩ : ∃ k, k₂ = k + 1 := ⟨k₂ - 1, by omega⟩
    intro m₁ m₂ hm
    have hr := sim_seq heval f hns hsafe m₁ m₂ hm
    simp only [rounds]
    generalize seq eval₁ f ns₁ m₁ = r₁ at hr ⊢
    generalize seq eval₂ f ns₂ m₂ = r₂ at hr ⊢
    cases r₁ with
    | ok v x₁ =>
      cases hr with
      | ok hm => exact ih k₂ (by omega) _ _ hm
    | error s x₁ =>
      -- a round that ends early ends the loop as it would end a block
      cases r₂ with
      | error s' x₂ => exact agree_caught hr
      | ok v x₂ =>
        cases hr with
        | exhausted ht => exact .exhausted ht

theorem sim_loop (heval : InnerSim w eval₁ eval₂) (f : Frame) {ns₁ ns₂ : List SourceForm}
    (hns : SourceForm.forms ns₁ = SourceForm.forms ns₂)
    (hsafe : Form.SafeBody hidden bound (SourceForm.forms ns₁)) {k₁ k₂ : Nat} (hk : k₁ ≤ k₂) :
    Sim w hidden bound (loop w.env₁ eval₁ k₁ f ns₁) (loop w.env₂ eval₂ k₂ f ns₂) := by
  obtain ⟨hlabel, hbody⟩ := splitLabel_eq hns
  have hempty : (splitLabel ns₁).2.isEmpty = (splitLabel ns₂).2.isEmpty := by
    rw [Bool.eq_iff_iff, List.isEmpty_iff_length_eq_zero, List.isEmpty_iff_length_eq_zero,
      SourceForm.length_eq_of_forms hbody]
  simp only [loop, ← hlabel, ← hempty]
  split
  · exact sim_trap (by decide)
  · exact sim_rounds heval f _ hbody (safeAll_splitLabel hsafe) k₁ k₂ hk

theorem sim_ite (heval : InnerSim w eval₁ eval₂) (f : Frame) {ns₁ ns₂ : List SourceForm}
    (hns : SourceForm.forms ns₁ = SourceForm.forms ns₂)
    (hsafe : Form.SafeAll hidden bound (SourceForm.forms ns₁)) :
    Sim w hidden bound (ite eval₁ f ns₁) (ite eval₂ f ns₂) := by
  have hlength := SourceForm.length_eq_of_forms hns
  match ns₁, ns₂, hns, hsafe, hlength with
  | [c, a], [c', a'], hns, hsafe, _ =>
    simp only [SourceForm.forms, List.cons.injEq] at hns
    refine sim_bind (heval _ _ f c c' hns.1 hsafe.1) fun v => ?_
    cases v.isTrue with
    | true => exact heval _ _ f a a' hns.2.1 hsafe.2.1
    | false => exact sim_pure _
  | [c, a, b], [c', a', b'], hns, hsafe, _ =>
    simp only [SourceForm.forms, List.cons.injEq] at hns
    refine sim_bind (heval _ _ f c c' hns.1 hsafe.1) fun v => ?_
    cases v.isTrue with
    | true => exact heval _ _ f a a' hns.2.1 hsafe.2.1
    | false => exact heval _ _ f b b' hns.2.2.1 hsafe.2.2.1
  | [], [], _, _, _ => exact sim_trap (by decide)
  | [_], [_], _, _, _ => exact sim_trap (by decide)
  | _ :: _ :: _ :: _ :: rest, _ :: _ :: _ :: _ :: rest', _, _, hlength =>
    simp only [ite, hlength]
    exact sim_trap (by decide)

theorem sim_unknownLocal (name func : Bytes) :
    Sim w hidden bound (unknownLocal name func : Eval α) (unknownLocal name func) :=
  sim_trap_name 117 rfl (by decide)

theorem sim_getLocal (f : Frame) {ns₁ ns₂ : List SourceForm}
    (hns : SourceForm.forms ns₁ = SourceForm.forms ns₂)
    (hsafe : ∀ name ∈ (SourceForm.forms ns₁).head?, name.word ∉ hidden) :
    Sim w hidden bound (getLocal f ns₁) (getLocal f ns₂) := by
  have hlength := SourceForm.length_eq_of_forms hns
  match ns₁, ns₂, hns, hsafe, hlength with
  | [a], [b], hns, hsafe, _ =>
    simp only [SourceForm.forms, List.cons.injEq, and_true] at hns
    have hname : a.word ∉ hidden := by
      rw [← SourceForm.word_form]
      exact hsafe a.form rfl
    simp only [getLocal, ← SourceForm.word_eq_of_form hns]
    refine sim_get fun x₁ x₂ hx => ?_
    rw [hx.lookup hname]
    cases x₂.locals.lookup a.word with
    | some v => exact sim_pure _
    | none =>
      cases f.func with
      | some func => exact sim_unknownLocal a.word func
      | none => exact sim_pure _
  | [], [], _, _, _ => exact sim_trap (by decide)
  | _ :: _ :: _, _ :: _ :: _, _, _, _ => exact sim_trap (by decide)

theorem sim_setLocal (heval : InnerSim w eval₁ eval₂) (f : Frame) {ns₁ ns₂ : List SourceForm}
    (hns : SourceForm.forms ns₁ = SourceForm.forms ns₂)
    (hname : ∀ name ∈ (SourceForm.forms ns₁).head?, name.word ∉ hidden)
    (hsafe : Form.SafeAll hidden bound (SourceForm.forms ns₁)) :
    Sim w hidden bound (setLocal eval₁ f ns₁) (setLocal eval₂ f ns₂) := by
  have hlength := SourceForm.length_eq_of_forms hns
  match ns₁, ns₂, hns, hname, hsafe, hlength with
  | [a, c], [b, d], hns, hname, hsafe, _ =>
    simp only [SourceForm.forms, List.cons.injEq, and_true] at hns
    have hname : a.word ∉ hidden := by
      rw [← SourceForm.word_form]
      exact hname a.form rfl
    simp only [setLocal, ← SourceForm.word_eq_of_form hns.1]
    have hset : Sim w hidden bound
        (do
          let v ← eval₁ f c
          modify fun m => { m with locals := m.locals.set a.word v }
          return v)
        (do
          let v ← eval₂ f d
          modify fun m => { m with locals := m.locals.set a.word v }
          return v) := by
      refine sim_bind (heval _ _ f c d hns.2 hsafe.2.1) fun v => ?_
      exact sim_bind (sim_modify fun _ _ hx => hx.set hname v) fun _ => sim_pure v
    refine sim_get fun x₁ x₂ hx => ?_
    rw [hx.lookup hname]
    cases f.func with
    | none => exact hset
    | some func =>
      cases x₂.locals.lookup a.word with
      | some v => exact hset
      | none => exact sim_unknownLocal a.word func
  | [], [], _, _, _, _ => exact sim_trap (by decide)
  | [_], [_], _, _, _, _ => exact sim_trap (by decide)
  | _ :: _ :: _ :: _, _ :: _ :: _ :: _, _, _, _, _ => exact sim_trap (by decide)

theorem agree_endCall (fn : Script.Function) {r₁ r₂ : EStateM.Result Stop Machine Value}
    {bound : Bytes → Prop} (hbound : w.env.module.Closed → ∀ l, ¬bound l)
    (h : Agree w [] bound r₁ r₂) :
    Agree w [] (fun _ => False) (endCall fn r₁) (endCall fn r₂) := by
  have hthrough : ∀ t : Trap, (t.through fn.name).plain = t.plain.through fn.name := fun _ => rfl
  cases h with
  | ok hm => exact .ok hm
  | branch hl hm => exact .trap rfl (fun hclosed => absurd hl (hbound hclosed _)) hm
  | ret hm => exact .ok hm
  | trap ht hstray hm =>
    refine .trap ?_ (fun hclosed h => hstray hclosed h) hm
    rw [hthrough, hthrough, ht]
  | crash hm => exact .crash hm
  | exhausted ht => exact .exhausted ht

/-- Calls agree: the locals of the caller come back as they were. -/
theorem sim_call (heval : InnerSim w eval₁ eval₂) (f : Frame) {fn : Script.Function}
    (hfn : w.env.module.Closed → Form.SafeAll [] (fun _ => False) (SourceForm.forms fn.body))
    (vs : List Value) :
    Sim w hidden bound (call eval₁ f fn vs) (call eval₂ f fn vs) := by
  unfold call
  refine sim_unless (sim_trap (by decide)) fun _ => ?_
  refine sim_unless (sim_trap (by decide)) fun _ => ?_
  intro m₁ m₂ hm
  have hstart : Alike w [] { m₁ with locals := startLocals fn vs }
      { m₂ with locals := startLocals fn vs } := by
    have hv := hm.visible
    refine ⟨?_, hm.steps, .inr fun _ h => absurd h List.not_mem_nil,
      .inr fun _ h => absurd h List.not_mem_nil⟩
    simp only [Machine.visible, Machine.mk.injEq] at hv ⊢
    simp [hv]
  have hbody : Agree w [] (fun _ => False)
      (endCall fn (seq eval₁ ⟨some fn.name, f.depth + 1⟩ fn.body
        { m₁ with locals := startLocals fn vs }))
      (endCall fn (seq eval₂ ⟨some fn.name, f.depth + 1⟩ fn.body
        { m₂ with locals := startLocals fn vs })) := by
    by_cases hclosed : w.env.module.Closed
    · exact agree_endCall fn (fun _ _ h => h) (sim_seq heval _ rfl (hfn hclosed) _ _ hstart)
    · exact agree_endCall fn (fun h => absurd h hclosed)
        (sim_seq heval _ rfl (Form.safeAll_free _) _ _ hstart)
  have hback : ∀ x₁ x₂, Alike w [] x₁ x₂ →
      Alike w hidden { x₁ with locals := m₁.locals } { x₂ with locals := m₂.locals } := by
    intro x₁ x₂ hx
    have hv := hx.visible
    have hv' := hm.visible
    refine ⟨?_, hx.steps, hm.has₁, hm.has₂⟩
    simp only [Machine.visible, Machine.mk.injEq] at hv hv' ⊢
    exact ⟨hv.1, hv.2.1, hv'.2.2.1, hv.2.2.2⟩
  show Agree w hidden bound (restoreLocals m₁.locals _) (restoreLocals m₂.locals _)
  generalize endCall fn _ = r₁ at hbody ⊢
  generalize endCall fn _ = r₂ at hbody ⊢
  cases hbody with
  | ok hx => exact .ok (hback _ _ hx)
  | branch hl _ => exact hl.elim
  | ret hx => exact .ret (hback _ _ hx)
  | trap ht hstray hx => exact .trap ht hstray (hback _ _ hx)
  | crash hx => exact .crash (hback _ _ hx)
  | exhausted ht => exact .exhausted ht

/-- What a call, an invocation or an assertion runs is a function of the module. -/
theorem closed_func {env : MachineEnv} {name : Bytes} {fn : Script.Function}
    (h : env.module.func? name = some fn ∨ env.module.export? name = some fn)
    (hclosed : env.module.Closed) :
    Form.SafeAll [] (fun _ => False) (SourceForm.forms fn.body) :=
  hclosed name fn h

theorem sim_callForm (heval : InnerSim w eval₁ eval₂) (f : Frame) {ns₁ ns₂ : List SourceForm}
    (hns : SourceForm.forms ns₁ = SourceForm.forms ns₂)
    (hsafe : Form.SafeAll hidden bound (SourceForm.forms ns₁)) :
    Sim w hidden bound (callForm w.env₁ eval₁ f ns₁) (callForm w.env₂ eval₂ f ns₂) := by
  cases ns₁ with
  | nil =>
    rw [SourceForm.forms_nil_eq hns]
    exact sim_trap (by decide)
  | cons a rest =>
    obtain ⟨b, rest', rfl, hab, hrest⟩ := SourceForm.forms_cons_eq hns
    simp only [callForm, ← SourceForm.word_eq_of_form hab]
    rw [show w.env₁.module = w.env.module from rfl, show w.env₂.module = w.env.module from rfl]
    cases hfn : w.env.module.func? a.word with
    | none => exact sim_trap_name 99 rfl (by decide)
    | some fn =>
      refine sim_bind (sim_args heval f hrest hsafe.2) fun vs => ?_
      exact sim_call heval f (closed_func (.inl hfn)) vs

theorem code_check {m : Memory} {addr : UInt64} {n : Int64} {t : Trap}
    (h : m.check addr n = .error t) : t.code = .outOfBounds := by
  unfold Memory.check at h
  split at h
  · cases h
    rfl
  · cases h

/-- A failed access to the memory is out of bounds. -/
theorem code_check_bind {m : Memory} {addr : UInt64} {n : Int64} {k : Unit → Except Trap α}
    {t : Trap} (hk : ∀ t, k () = .error t → t.code ≠ .unknownName)
    (h : (m.check addr n >>= k) = .error t) : t.code ≠ .unknownName := by
  cases hcheck : m.check addr n with
  | ok u =>
    rw [hcheck] at h
    exact hk t h
  | error u =>
    rw [hcheck] at h
    cases h
    rw [code_check hcheck]
    decide

theorem code_read {m : Memory} {addr : UInt32} {n : Int64} {t : Trap}
    (h : m.read addr n = .error t) : t.code ≠ .unknownName :=
  code_check_bind (fun _ h => by cases h) h

theorem code_load {m : Memory} {addr : UInt32} {width : Nat} {t : Trap}
    (h : m.load addr width = .error t) : t.code ≠ .unknownName :=
  code_check_bind (fun _ h => by cases h) h

theorem code_store {m : Memory} {addr : UInt32} {width : Nat} {bits : UInt64} {t : Trap}
    (h : m.store addr width bits = .error t) : t.code ≠ .unknownName :=
  code_check_bind (fun _ h => by cases h) h

theorem code_string {m : Memory} {ptr : UInt32} {t : Trap} (h : m.string ptr = .error t) :
    t.code ≠ .unknownName := by
  unfold Memory.string at h
  split at h
  · cases h
    simp
  · cases hlength : m.read (ptr - 4) 4 with
    | error u =>
      simp only [hlength] at h
      cases h
      exact code_read hlength
    | ok bytes =>
      simp only [hlength] at h
      cases hread : m.read ptr (Memory.ofLittleEndian bytes).toInt64 with
      | error u =>
        simp only [hread, bind, Except.bind] at h
        cases h
        exact code_read hread
      | ok content =>
        simp only [hread, bind, Except.bind] at h
        cases h

theorem code_redirect {o : Output} {name : Bytes} {t : Trap} (h : o.redirect name = .error t) :
    t.code ≠ .unknownName := by
  unfold Output.redirect at h
  split at h
  · cases h
    simp
  · split at h
    · cases h
      simp
    · cases h

theorem code_append {o : Output} {data : Bytes} {t : Trap} (h : o.append data = .error t) :
    t.code ≠ .unknownName := by
  unfold Output.append at h
  split at h
  · cases h
    simp
  · cases h

theorem sim_harness (imp : Script.Import) (vs : List Value) :
    Sim w hidden bound (harness imp vs) (harness imp vs) := by
  have houtput : ∀ o : Output, Sim w hidden bound
      (modify fun m => { m with output := o }) (modify fun m => { m with output := o }) :=
    fun o => sim_modify fun _ _ hx =>
      hx.update (fun m => { m with output := o }) (fun _ => rfl) (fun _ => rfl) (fun _ => rfl)
  unfold harness
  refine sim_unless (sim_trap_name 105 rfl (by decide)) fun _ => ?_
  refine sim_get fun x₁ x₂ hx => ?_
  rw [hx.memory, hx.output]
  split
  · refine sim_bind (sim_operand vs 0) fun first => ?_
    refine sim_bind (sim_lift fun t => code_string) fun name => ?_
    refine sim_bind (sim_lift fun t => code_redirect) fun o => ?_
    exact houtput o
  · split
    · refine sim_bind (sim_operand vs 1) fun count => ?_
      refine sim_unless (sim_trap (by decide)) fun _ => ?_
      refine sim_bind (sim_operand vs 0) fun first => ?_
      refine sim_bind (sim_lift fun t => code_read) fun data => ?_
      refine sim_bind (sim_lift fun t => code_append) fun o => ?_
      exact houtput o
    · exact sim_trap_name 117 rfl (by decide)

theorem sim_callImport (heval : InnerSim w eval₁ eval₂) (f : Frame) {ns₁ ns₂ : List SourceForm}
    (hns : SourceForm.forms ns₁ = SourceForm.forms ns₂)
    (hsafe : Form.SafeAll hidden bound (SourceForm.forms ns₁)) :
    Sim w hidden bound (callImport w.env₁ eval₁ f ns₁) (callImport w.env₂ eval₂ f ns₂) := by
  cases ns₁ with
  | nil =>
    rw [SourceForm.forms_nil_eq hns]
    exact sim_trap (by decide)
  | cons a rest =>
    obtain ⟨b, rest', rfl, hab, hrest⟩ := SourceForm.forms_cons_eq hns
    simp only [callImport, ← SourceForm.word_eq_of_form hab]
    rw [show w.env₁.module = w.env.module from rfl, show w.env₂.module = w.env.module from rfl]
    cases w.env.module.import? a.word with
    | none => exact sim_trap_name 99 rfl (by decide)
    | some imp =>
      refine sim_bind (sim_args heval f hrest hsafe.2) fun vs => ?_
      refine sim_unless (sim_trap (by decide)) fun _ => ?_
      exact sim_bind (sim_harness imp vs) fun _ => sim_pure _

theorem code_ofConstant {kw : Keyword} {s : Bytes} {t : Trap}
    (h : Value.ofConstant kw s = .error t) : t.code ≠ .unknownName := by
  have hbad : ∀ message : Bytes, (.error ⟨.badOperand, message, 0, []⟩ : Except Trap Value)
      = .error t → t.code ≠ .unknownName := by
    intro message h
    cases h
    simp
  unfold Value.ofConstant at h
  repeat' split at h
  all_goals first
    | exact hbad _ h
    | cases h

/-- Which arms of a switch are chosen does not depend on their lines. -/
theorem matching_eq (kw : Keyword) (key : UInt64) {arms₁ arms₂ : List SourceForm}
    (h : SourceForm.forms arms₁ = SourceForm.forms arms₂) :
    (matching kw key arms₁).map (Option.map SourceForm.forms)
      = (matching kw key arms₂).map (Option.map SourceForm.forms) := by
  induction arms₁ generalizing arms₂ with
  | nil => rw [SourceForm.forms_nil_eq h]
  | cons a rest ih =>
    obtain ⟨b, rest', rfl, hab, hrest⟩ := SourceForm.forms_cons_eq h
    have hargs := SourceForm.args_eq_of_form hab
    have hhead := SourceForm.head_eq_of_form hab
    have ih := ih hrest
    unfold matching
    rw [← hhead]
    cases a.head == "case" with
    | false => exact ih
    | true =>
      cases hcase : a.args with
      | nil =>
        rw [hcase] at hargs
        rw [SourceForm.forms_nil_eq hargs]
        exact ih
      | cons v vs =>
        rw [hcase] at hargs
        obtain ⟨v', vs', hcase', hvv, _⟩ := SourceForm.forms_cons_eq hargs
        simp only [hcase', ← SourceForm.word_eq_of_form hvv]
        cases Value.ofConstant kw v.word with
        | error t => rfl
        | ok c =>
          simp only [bind, Except.bind]
          split
          · simp only [pure, Except.pure, Except.map, Option.map, h]
          · exact ih

theorem code_matching {kw : Keyword} {key : UInt64} {arms : List SourceForm} {t : Trap}
    (h : matching kw key arms = .error t) : t.code ≠ .unknownName := by
  induction arms with
  | nil => cases h
  | cons a rest ih =>
    unfold matching at h
    split at h
    · rename_i value _ _ _
      cases hv : Value.ofConstant kw value.word with
      | error u =>
        rw [hv] at h
        cases h
        exact code_ofConstant hv
      | ok v =>
        simp only [hv, bind, Except.bind] at h
        split at h
        · cases h
        · exact ih h
    · exact ih h

theorem safeArms_matching {kw : Keyword} {key : UInt64} {arms chosen : List SourceForm}
    (hsafe : Form.SafeArms hidden bound (SourceForm.forms arms))
    (h : matching kw key arms = .ok (some chosen)) :
    Form.SafeArms hidden bound (SourceForm.forms chosen) := by
  induction arms with
  | nil => simp [matching] at h
  | cons a rest ih =>
    unfold matching at h
    split at h
    · rename_i value _ _ _
      cases hv : Value.ofConstant kw value.word with
      | error u =>
        rw [hv] at h
        cases h
      | ok v =>
        simp only [hv, bind, Except.bind] at h
        split at h
        · cases h
          exact hsafe
        · exact ih hsafe.2 h
    · exact ih hsafe.2 h

theorem fromDefault_eq {arms₁ arms₂ : List SourceForm}
    (h : SourceForm.forms arms₁ = SourceForm.forms arms₂) :
    SourceForm.forms (fromDefault arms₁) = SourceForm.forms (fromDefault arms₂) := by
  induction arms₁ generalizing arms₂ with
  | nil => rw [SourceForm.forms_nil_eq h]
  | cons a rest ih =>
    obtain ⟨b, rest', rfl, hab, hrest⟩ := SourceForm.forms_cons_eq h
    simp only [fromDefault, List.dropWhile_cons, ← SourceForm.head_eq_of_form hab]
    split
    · exact ih hrest
    · exact h

theorem safeArms_fromDefault {arms : List SourceForm}
    (hsafe : Form.SafeArms hidden bound (SourceForm.forms arms)) :
    Form.SafeArms hidden bound (SourceForm.forms (fromDefault arms)) := by
  induction arms with
  | nil => exact hsafe
  | cons a rest ih =>
    simp only [fromDefault, List.dropWhile_cons]
    split
    · exact ih hsafe.2
    · exact hsafe

/-- What the first arm with a body does. -/
def firstBody (arms : List SourceForm) : Option (List SourceForm) :=
  (arms.map armBody).find? (!·.isEmpty)

theorem armBody_eq {a b : SourceForm} (h : a.form = b.form) :
    SourceForm.forms (armBody a) = SourceForm.forms (armBody b) := by
  have hargs := SourceForm.args_eq_of_form h
  simp only [armBody, ← SourceForm.head_eq_of_form h]
  split
  · cases hcase : a.args with
    | nil =>
      rw [hcase] at hargs
      rw [SourceForm.forms_nil_eq hargs]
    | cons v vs =>
      rw [hcase] at hargs
      obtain ⟨v', vs', hcase', _, hvs⟩ := SourceForm.forms_cons_eq hargs
      rw [hcase']
      exact hvs
  · exact hargs

theorem safeAll_armBody {a : SourceForm} (hsafe : Form.SafeArm hidden bound a.form) :
    Form.SafeAll hidden bound (SourceForm.forms (armBody a)) := by
  cases a with
  | list line items =>
    cases items with
    | nil =>
      unfold armBody
      split <;> trivial
    | cons head rest =>
      unfold armBody
      split
      · cases rest with
        | nil => trivial
        | cons v vs => exact hsafe.2
      · exact hsafe
  | _ =>
    unfold armBody
    split <;> trivial

/-- Two lists of arms with the same forms do the same. -/
theorem firstBody_eq {arms₁ arms₂ : List SourceForm}
    (h : SourceForm.forms arms₁ = SourceForm.forms arms₂) :
    (firstBody arms₁).map SourceForm.forms = (firstBody arms₂).map SourceForm.forms := by
  induction arms₁ generalizing arms₂ with
  | nil => rw [SourceForm.forms_nil_eq h]
  | cons a rest ih =>
    obtain ⟨b, rest', rfl, hab, hrest⟩ := SourceForm.forms_cons_eq h
    have hbody := armBody_eq hab
    have hempty : (armBody a).isEmpty = (armBody b).isEmpty := by
      rw [Bool.eq_iff_iff, List.isEmpty_iff_length_eq_zero, List.isEmpty_iff_length_eq_zero,
        SourceForm.length_eq_of_forms hbody]
    simp only [firstBody, List.map_cons, List.find?_cons, ← hempty]
    cases (armBody a).isEmpty with
    | true => exact ih hrest
    | false => exact congrArg some hbody

theorem safeAll_firstBody {arms : List SourceForm} {body : List SourceForm}
    (hsafe : Form.SafeArms hidden bound (SourceForm.forms arms))
    (h : firstBody arms = some body) :
    Form.SafeAll hidden bound (SourceForm.forms body) := by
  induction arms with
  | nil => cases h
  | cons a rest ih =>
    simp only [firstBody, List.map_cons, List.find?_cons] at h
    cases hempty : (armBody a).isEmpty with
    | true =>
      simp only [hempty] at h
      exact ih hsafe.2 h
    | false =>
      simp only [hempty] at h
      cases h
      exact safeAll_armBody hsafe.1

/-- What a switch does with the body it has chosen, if there is one. -/
def switchBody (eval : Inner) (f : Frame) : Option (List SourceForm) → Eval Value
  | none => return Value.void
  | some body => do
    let _ ← seq eval f body
    return .void

theorem sim_switch (heval : InnerSim w eval₁ eval₂) (kw : Keyword) (f : Frame)
    {ns₁ ns₂ : List SourceForm} (hns : SourceForm.forms ns₁ = SourceForm.forms ns₂)
    (hsafe : Form.SafeSwitch hidden bound (SourceForm.forms ns₁)) :
    Sim w hidden bound (switch eval₁ kw f ns₁) (switch eval₂ kw f ns₂) := by
  cases ns₁ with
  | nil =>
    rw [SourceForm.forms_nil_eq hns]
    exact sim_trap (by decide)
  | cons a arms₁ =>
    obtain ⟨b, arms₂, rfl, hab, harms⟩ := SourceForm.forms_cons_eq hns
    refine sim_bind (heval _ _ f a b hab hsafe.1) fun k => ?_
    -- the arms from which a body is taken
    have hrest : ∀ from₁ from₂ : List SourceForm,
        SourceForm.forms from₁ = SourceForm.forms from₂ →
        Form.SafeArms hidden bound (SourceForm.forms from₁) →
        Sim w hidden bound (switchBody eval₁ f (firstBody from₁))
          (switchBody eval₂ f (firstBody from₂)) := by
      intro from₁ from₂ hfrom hsafe
      have hbody := firstBody_eq hfrom
      cases h₁ : firstBody from₁ with
      | none =>
        rw [h₁] at hbody
        rw [Option.map_eq_none_iff.mp hbody.symm]
        exact sim_pure _
      | some body =>
        rw [h₁] at hbody
        obtain ⟨body', h₂, hforms⟩ := Option.map_eq_some_iff.mp hbody.symm
        rw [h₂]
        refine sim_bind ?_ fun _ => sim_pure _
        exact sim_seq heval f hforms.symm (safeAll_firstBody hsafe h₁)
    have hmatch := matching_eq kw k.bits harms
    cases h₁ : matching kw k.bits arms₁ with
    | error t =>
      cases h₂ : matching kw k.bits arms₂ with
      | error u =>
        rw [h₁, h₂] at hmatch
        cases hmatch
        intro m₁ m₂ hm
        exact .trap rfl (fun _ h => code_matching h₁ h.1) hm
      | ok chosen =>
        rw [h₁, h₂] at hmatch
        cases hmatch
    | ok chosen₁ =>
      cases h₂ : matching kw k.bits arms₂ with
      | error u =>
        rw [h₁, h₂] at hmatch
        cases hmatch
      | ok chosen₂ =>
        rw [h₁, h₂] at hmatch
        simp only [Except.map, Except.ok.injEq] at hmatch
        show Sim w hidden bound (switchBody eval₁ f (firstBody (chosen₁.getD (fromDefault arms₁))))
          (switchBody eval₂ f (firstBody (chosen₂.getD (fromDefault arms₂))))
        cases chosen₁ with
        | none =>
          rw [Option.map_eq_none_iff.mp hmatch.symm]
          exact hrest _ _ (fromDefault_eq harms) (safeArms_fromDefault hsafe.2)
        | some from₁ =>
          obtain ⟨from₂, rfl, hforms⟩ := Option.map_eq_some_iff.mp hmatch.symm
          exact hrest _ _ hforms.symm (safeArms_matching hsafe.2 h₁)

theorem sim_access (kw : Keyword) (suffix : Bytes) :
    Sim w hidden bound (access kw suffix) (access kw suffix) := by
  unfold access
  simp only
  split
  · exact sim_pure _
  · exact sim_trap_name 117 rfl (by decide)

theorem sim_load (heval : InnerSim w eval₁ eval₂) (kw : Keyword) (suffix : Bytes) (f : Frame)
    {ns₁ ns₂ : List SourceForm} (hns : SourceForm.forms ns₁ = SourceForm.forms ns₂)
    (hsafe : Form.SafeAll hidden bound (SourceForm.forms ns₁)) :
    Sim w hidden bound (load eval₁ kw suffix f ns₁) (load eval₂ kw suffix f ns₂) := by
  refine sim_bind (sim_access kw suffix) fun a => ?_
  have hlength := SourceForm.length_eq_of_forms hns
  match ns₁, ns₂, hns, hsafe, hlength with
  | [x], [y], hns, hsafe, _ =>
    simp only [SourceForm.forms, List.cons.injEq, and_true] at hns
    refine sim_bind (heval _ _ f x y hns hsafe.1) fun addr => ?_
    refine sim_get fun x₁ x₂ hx => ?_
    rw [hx.memory]
    exact sim_bind (sim_lift fun t => code_load) fun bits => sim_pure _
  | [], [], _, _, _ => exact sim_trap (by decide)
  | _ :: _ :: _, _ :: _ :: _, _, _, _ => exact sim_trap (by decide)

theorem sim_store (heval : InnerSim w eval₁ eval₂) (kw : Keyword) (suffix : Bytes) (f : Frame)
    {ns₁ ns₂ : List SourceForm} (hns : SourceForm.forms ns₁ = SourceForm.forms ns₂)
    (hsafe : Form.SafeAll hidden bound (SourceForm.forms ns₁)) :
    Sim w hidden bound (store eval₁ kw suffix f ns₁) (store eval₂ kw suffix f ns₂) := by
  refine sim_bind (sim_access kw suffix) fun a => ?_
  have hlength := SourceForm.length_eq_of_forms hns
  match ns₁, ns₂, hns, hsafe, hlength with
  | [x, v], [y, u], hns, hsafe, _ =>
    simp only [SourceForm.forms, List.cons.injEq, and_true] at hns
    refine sim_bind (heval _ _ f x y hns.1 hsafe.1) fun addr => ?_
    refine sim_bind (heval _ _ f v u hns.2 hsafe.2.1) fun val => ?_
    refine sim_get fun x₁ x₂ hx => ?_
    rw [hx.memory]
    refine sim_bind (sim_lift fun t => code_store) fun mem => ?_
    refine sim_bind (sim_modify fun _ _ hx => ?_) fun _ => sim_pure _
    exact hx.update (fun m => { m with memory := mem }) (fun _ => rfl) (fun _ => rfl) (fun _ => rfl)
  | [], [], _, _, _ => exact sim_trap (by decide)
  | [_], [_], _, _, _ => exact sim_trap (by decide)
  | _ :: _ :: _ :: _, _ :: _ :: _ :: _, _, _, _ => exact sim_trap (by decide)

theorem sim_header (text : Bytes) : Sim w hidden bound (header text) (header text) :=
  sim_modify fun _ _ hx =>
    hx.update (fun m => { m with printed := (text ++ "\n") :: m.printed, pending := true })
      (fun _ => rfl) (fun _ => rfl) (fun _ => rfl)

theorem sim_result (text : Bytes) : Sim w hidden bound (result text) (result text) :=
  sim_modify fun _ _ hx =>
    hx.update
      (fun m => { m with printed := ("-> " ++ text ++ "\n") :: m.printed, pending := false })
      (fun _ => rfl) (fun _ => rfl) (fun _ => rfl)

theorem sim_verdict (pass : Bool) (expected actual : Bytes) :
    Sim w hidden bound (verdict pass expected actual) (verdict pass expected actual) := by
  refine sim_bind (sim_modify fun _ _ hx => ?_) fun _ => sim_result _
  cases pass with
  | true =>
    exact hx.update (fun m => { m with passed := m.passed + 1 }) (fun _ => rfl) (fun _ => rfl)
      (fun _ => rfl)
  | false =>
    exact hx.update (fun m => { m with failed := m.failed + 1 }) (fun _ => rfl) (fun _ => rfl)
      (fun _ => rfl)

/-- The arguments of a safe invocation are safe. -/
theorem safeAll_args {n : SourceForm} (hhead : n.head = "invoke")
    (hsafe : n.form.Safe hidden bound) :
    Form.SafeAll hidden bound (SourceForm.forms n.args) := by
  cases n with
  | list line items =>
    cases items with
    | nil => trivial
    | cons head rest =>
      have hop : Opcode.ofName head.form.word = .invoke := by
        rw [SourceForm.word_form, show head.word = _ from hhead]
        decide
      simp only [SourceForm.form, SourceForm.forms, Form.Safe, Form.SafeItems, hop] at hsafe
      exact hsafe
  | _ => trivial

theorem sim_resolve (heval : InnerSim w eval₁ eval₂) (f : Frame) {n₁ n₂ : SourceForm}
    (hn : n₁.form = n₂.form) (hsafe : n₁.form.Safe hidden bound) :
    Sim w hidden bound (resolve w.env₁ eval₁ f n₁) (resolve w.env₂ eval₂ f n₂) := by
  have hargs := SourceForm.args_eq_of_form hn
  have hmalformed : Sim w hidden bound
      (trap .badOperand ("malformed invoke " ++ n₁.shown) : Eval Invocation)
      (trap .badOperand ("malformed invoke " ++ n₂.shown)) := by
    rw [SourceForm.shown_eq_of_form hn]
    exact sim_trap (by decide)
  unfold resolve
  rw [← SourceForm.head_eq_of_form hn]
  cases hhead : n₁.head == "invoke" with
  | false => exact hmalformed
  | true =>
    have hsafe := safeAll_args (by simpa using hhead) hsafe
    cases h₁ : n₁.args with
    | nil =>
      rw [h₁] at hargs
      rw [SourceForm.forms_nil_eq hargs]
      exact hmalformed
    | cons a rest =>
      rw [h₁] at hargs hsafe
      obtain ⟨b, rest', h₂, hab, hrest⟩ := SourceForm.forms_cons_eq hargs
      rw [h₂]
      cases a with
      | text line name =>
        obtain ⟨line', rfl⟩ := SourceForm.eq_text_of_form hab
        simp only
        rw [show w.env₁.module = w.env.module from rfl, show w.env₂.module = w.env.module from rfl]
        cases w.env.module.export? name with
        | none => exact sim_trap_name 110 rfl (by decide)
        | some fn => exact sim_bind (sim_args heval f hrest hsafe.2) fun vs => sim_pure _
      | atom line word =>
        obtain ⟨line', rfl⟩ := SourceForm.eq_atom_of_form hab.symm
        exact hmalformed
      | list line items =>
        obtain ⟨line', items', rfl, _⟩ := SourceForm.eq_list_of_form hab.symm
        exact hmalformed

/-- An invocation that is found is one of an exported function. -/
theorem export_resolve {env : MachineEnv} {eval : Inner} {f : Frame} {n : SourceForm}
    {i : Invocation} {m m' : Machine} (h : resolve env eval f n m = .ok i m') :
    ∃ name, env.module.export? name = some i.func := by
  unfold resolve at h
  match hhead : n.head == "invoke", hargs : n.args with
  | true, .text line name :: rest =>
    simp only [hhead, hargs] at h
    cases hfn : env.module.export? name with
    | none =>
      simp only [hfn] at h
      cases h
    | some fn =>
      simp only [hfn] at h
      change EStateM.bind (args eval f rest) _ m = _ at h
      simp only [EStateM.bind] at h
      split at h
      · cases h
        exact ⟨name, hfn⟩
      · cases h
  | true, [] | true, .atom _ _ :: _ | true, .list _ _ :: _ | false, _ =>
    simp only [hhead, hargs] at h
    cases h

theorem sim_invoked (heval : InnerSim w eval₁ eval₂) (f : Frame) {i : Invocation}
    (hi : ∃ m m', ∃ n : SourceForm, resolve w.env₁ eval₁ f n m = .ok i m') :
    Sim w hidden bound (call eval₁ f i.func i.args) (call eval₂ f i.func i.args) := by
  obtain ⟨m, m', n, hi⟩ := hi
  obtain ⟨name, hname⟩ := export_resolve hi
  exact sim_call heval f (closed_func (.inr hname)) i.args

theorem sim_invoke (heval : InnerSim w eval₁ eval₂) (f : Frame) {n₁ n₂ : SourceForm}
    (hn : n₁.form = n₂.form) (hsafe : n₁.form.Safe hidden bound) :
    Sim w hidden bound (invoke w.env₁ eval₁ f n₁) (invoke w.env₂ eval₂ f n₂) := by
  refine sim_bind_of (sim_resolve heval f hn hsafe) fun i hi => ?_
  obtain ⟨m, m', hi⟩ := hi
  refine sim_bind (sim_header _) fun _ => ?_
  refine sim_bind (sim_invoked heval f ⟨m, m', n₁, hi⟩) fun v => ?_
  exact sim_bind (sim_result _) fun _ => sim_pure _

theorem sim_assertion (heval : InnerSim w eval₁ eval₂) (expectedFirst : Bool) (f : Frame)
    {n₁ n₂ : SourceForm} (hn : n₁.form = n₂.form)
    (hsafe : Form.SafeAll hidden bound (SourceForm.forms n₁.args)) :
    Sim w hidden bound (assertion w.env₁ eval₁ expectedFirst f n₁)
      (assertion w.env₂ eval₂ expectedFirst f n₂) := by
  have hargs := SourceForm.args_eq_of_form hn
  have hlength := SourceForm.length_eq_of_forms hargs
  unfold assertion
  rw [← SourceForm.head_eq_of_form hn]
  generalize n₁.args = ns₁ at hargs hlength hsafe ⊢
  generalize n₂.args = ns₂ at hargs hlength ⊢
  -- an invocation and an expected value, in either order
  have hboth : ∀ a b c d : SourceForm, a.form = c.form → b.form = d.form →
      a.form.Safe hidden bound → b.form.Safe hidden bound →
      Sim w hidden bound
        (do
          let i ← resolve w.env₁ eval₁ f a
          header i.header
          let actual ← call eval₁ f i.func i.args
          let expected ← eval₁ f b
          verdict (expected.text == actual.text) expected.text actual.text)
        (do
          let i ← resolve w.env₂ eval₂ f c
          header i.header
          let actual ← call eval₂ f i.func i.args
          let expected ← eval₂ f d
          verdict (expected.text == actual.text) expected.text actual.text) := by
    intro a b c d hac hbd ha hb
    refine sim_bind_of (sim_resolve heval f hac ha) fun i hi => ?_
    obtain ⟨m, m', hi⟩ := hi
    refine sim_bind (sim_header _) fun _ => ?_
    refine sim_bind (sim_invoked heval f ⟨m, m', a, hi⟩) fun actual => ?_
    refine sim_bind (heval _ _ f b d hbd hb) fun expected => ?_
    exact sim_verdict _ _ _
  match ns₁, ns₂, hargs, hsafe, hlength with
  | [a, b], [c, d], hargs, hsafe, _ =>
    simp only [SourceForm.forms, List.cons.injEq, and_true] at hargs
    cases expectedFirst with
    | true => exact hboth b a d c hargs.2 hargs.1 hsafe.2.1 hsafe.1
    | false => exact hboth a b c d hargs.1 hargs.2 hsafe.1 hsafe.2.1
  | [], [], _, _, _ => exact sim_trap (by decide)
  | [_], [_], _, _, _ => exact sim_trap (by decide)
  | _ :: _ :: _ :: _, _ :: _ :: _ :: _, _, _, _ => exact sim_trap (by decide)

theorem sim_assertHeap {n₁ n₂ : SourceForm} (hn : n₁.form = n₂.form) :
    Sim w hidden bound (assertHeap n₁) (assertHeap n₂) := by
  have hargs := SourceForm.args_eq_of_form hn
  have hlength := SourceForm.length_eq_of_forms hargs
  unfold assertHeap
  rw [← SourceForm.shown_eq_of_form hn]
  generalize n₁.args = ns₁ at hargs hlength ⊢
  generalize n₂.args = ns₂ at hargs hlength ⊢
  match ns₁, ns₂, hargs, hlength with
  | [a, .text _ want], [b, d], hargs, _ =>
    simp only [SourceForm.forms, List.cons.injEq, and_true] at hargs
    obtain ⟨line, rfl⟩ := SourceForm.eq_text_of_form hargs.2
    simp only [Script.size?, ← SourceForm.word_eq_of_form hargs.1,
      ← SourceForm.shown_eq_of_form hargs.1]
    split
    · exact sim_trap (by decide)
    · refine sim_bind (sim_header _) fun _ => ?_
      refine sim_get fun x₁ x₂ hx => ?_
      rw [hx.memory]
      exact sim_bind (sim_lift fun t => code_read) fun got => sim_verdict _ _ _
  | [_, .atom _ _], [_, d], hargs, _ =>
    simp only [SourceForm.forms, List.cons.injEq, and_true] at hargs
    obtain ⟨line, rfl⟩ := SourceForm.eq_atom_of_form hargs.2.symm
    exact sim_trap (by decide)
  | [_, .list _ _], [_, d], hargs, _ =>
    simp only [SourceForm.forms, List.cons.injEq, and_true] at hargs
    obtain ⟨line, items, rfl, _⟩ := SourceForm.eq_list_of_form hargs.2.symm
    exact sim_trap (by decide)
  | [], [], _, _ => exact sim_trap (by decide)
  | [_], [_], _, _ => exact sim_trap (by decide)
  | _ :: a :: _ :: _, _ :: b :: _ :: _, _, _ =>
    cases a <;> cases b <;> exact sim_trap (by decide)

theorem sim_fileContent (name : Bytes) :
    Sim w hidden bound (fileContent w.env₁ name) (fileContent w.env₂ name) := by
  refine sim_get fun x₁ x₂ hx => ?_
  rw [hx.output]
  cases x₂.output.content? name with
  | some content => exact sim_pure _
  | none =>
    simp only
    rw [show w.env₁.readFile = w.env.readFile from rfl,
      show w.env₂.readFile = w.env.readFile from rfl]
    cases w.env.readFile name with
    | ok content => exact sim_pure _
    | error why => exact sim_trap (by decide)

theorem sim_assertHeapFile {n₁ n₂ : SourceForm} (hn : n₁.form = n₂.form) :
    Sim w hidden bound (assertHeapFile w.env₁ n₁) (assertHeapFile w.env₂ n₂) := by
  have hargs := SourceForm.args_eq_of_form hn
  have hlength := SourceForm.length_eq_of_forms hargs
  unfold assertHeapFile
  rw [← SourceForm.shown_eq_of_form hn]
  generalize n₁.args = ns₁ at hargs hlength ⊢
  generalize n₂.args = ns₂ at hargs hlength ⊢
  match ns₁, ns₂, hargs, hlength with
  | [a, c, .text _ name], [b, d, x], hargs, _ =>
    simp only [SourceForm.forms, List.cons.injEq, and_true] at hargs
    obtain ⟨line, rfl⟩ := SourceForm.eq_text_of_form hargs.2.2
    simp only [Script.size?, ← SourceForm.word_eq_of_form hargs.1,
      ← SourceForm.word_eq_of_form hargs.2.1, ← SourceForm.shown_eq_of_form hargs.1,
      ← SourceForm.shown_eq_of_form hargs.2.1]
    split
    · exact sim_trap (by decide)
    · exact sim_trap (by decide)
    · refine sim_bind (sim_header _) fun _ => ?_
      refine sim_bind (sim_fileContent name) fun want => ?_
      refine sim_get fun x₁ x₂ hx => ?_
      rw [hx.memory]
      exact sim_bind (sim_lift fun t => code_read) fun got => sim_verdict _ _ _
  | [_, _, .atom _ _], [_, _, d], hargs, _ =>
    simp only [SourceForm.forms, List.cons.injEq, and_true] at hargs
    obtain ⟨line, rfl⟩ := SourceForm.eq_atom_of_form hargs.2.2.symm
    exact sim_trap (by decide)
  | [_, _, .list _ _], [_, _, d], hargs, _ =>
    simp only [SourceForm.forms, List.cons.injEq, and_true] at hargs
    obtain ⟨line, items, rfl, _⟩ := SourceForm.eq_list_of_form hargs.2.2.symm
    exact sim_trap (by decide)
  | [], [], _, _ => exact sim_trap (by decide)
  | [_], [_], _, _ => exact sim_trap (by decide)
  | [_, _], [_, _], _, _ => exact sim_trap (by decide)
  | _ :: _ :: a :: _ :: _, _ :: _ :: b :: _ :: _, _, _ =>
    cases a <;> cases b <;> exact sim_trap (by decide)

theorem code_truncate {kw : Keyword} {signed : Bool} {x : UInt64} {t : Trap}
    (h : truncate kw signed x = .error t) : t.code ≠ .unknownName := by
  have hoverflow : ∀ message : Bytes, (.error ⟨.overflow, message, 0, []⟩ : Except Trap Value)
      = .error t → t.code ≠ .unknownName := by
    intro message h
    cases h
    simp
  unfold truncate at h
  repeat' split at h
  all_goals first
    | exact hoverflow _ h
    | cases h

theorem eq_or_of_ite {c : Bool} {x y r : α} (h : (if c then x else y) = r) :
    x = r ∨ y = r := by
  cases c with
  | true => exact .inl h
  | false => exact .inr h

theorem code_convert {kw : Keyword} {op : Bytes} {a : Value} {t : Trap}
    (h : convert? kw op a = some (.error t)) : t.code ≠ .unknownName := by
  unfold convert? at h
  -- every conversion has a value, but for the truncations
  repeat
    rcases eq_or_of_ite h with hthis | h
    · first
        | exact code_truncate (Option.some.inj hthis)
        | cases hthis
  cases h

theorem code_unary {kw : Keyword} {op : Bytes} {a : Value} {t : Trap}
    (h : unary? kw op a = some (.error t)) : t.code ≠ .unknownName := by
  unfold unary? at h
  simp only at h
  split at h
  · cases h
  · exact code_convert h

theorem code_int {op : IntOp} {t : Trap} :
    (∀ x y, op.on32 x y = .error t → t.code ≠ .unknownName)
      ∧ ∀ x y, op.on64 x y = .error t → t.code ≠ .unknownName := by
  constructor
  all_goals
    intro x y h
    cases op
  all_goals
    simp only [IntOp.on32, IntOp.on64] at h
    repeat' split at h
  all_goals
    cases h
  all_goals simp [IntOp.byZero, IntOp.tooLarge]

theorem code_binary {kw : Keyword} {op : Bytes} {a b : Value} {t : Trap}
    (h : binary? kw op a b = some (.error t)) : t.code ≠ .unknownName := by
  cases kw with
  | i32 =>
    obtain ⟨o, _, ho⟩ := Option.map_eq_some_iff.mp h
    exact code_int.1 _ _ ho
  | i64 =>
    obtain ⟨o, _, ho⟩ := Option.map_eq_some_iff.mp h
    exact code_int.2 _ _ ho
  | f32 | f64 =>
    obtain ⟨o, _, ho⟩ := Option.map_eq_some_iff.mp h
    cases ho
  | void => cases h

theorem sim_operation (heval : InnerSim w eval₁ eval₂) (kw : Keyword) (name head : Bytes)
    (f : Frame) {ns₁ ns₂ : List SourceForm}
    (hns : SourceForm.forms ns₁ = SourceForm.forms ns₂)
    (hsafe : Form.SafeAll hidden bound (SourceForm.forms ns₁)) :
    Sim w hidden bound (operation eval₁ kw name head f ns₁)
      (operation eval₂ kw name head f ns₂) := by
  refine sim_bind (sim_args heval f hns hsafe) fun vs => ?_
  have hunknown : Sim w hidden bound (trap .unknownName ("unknown instruction " ++ Quoted.text head
      ++ " with " ++ Bytes.ofNat vs.length ++ " operands") : Eval Value)
      (trap .unknownName ("unknown instruction " ++ Quoted.text head ++ " with "
        ++ Bytes.ofNat vs.length ++ " operands")) := sim_trap_name 117 rfl (by decide)
  cases vs with
  | nil => exact hunknown
  | cons v rest =>
    cases rest with
    | nil =>
      simp only
      cases h : unary? kw name v with
      | none => exact hunknown
      | some r => exact sim_lift fun t hr => code_unary (h.trans (congrArg some hr))
    | cons u rest =>
      cases rest with
      | nil =>
        simp only
        cases h : binary? kw name v u with
        | none => exact hunknown
        | some r => exact sim_lift fun t hr => code_binary (h.trans (congrArg some hr))
      | cons _ _ => exact hunknown

/-- Every form inside of a safe list is safe where the machine looks at it. -/
theorem safeItems_args {n : SourceForm} (hsafe : n.form.Safe hidden bound) :
    match Opcode.ofName n.head with
    | .block | .loop => Form.SafeBody hidden bound (SourceForm.forms n.args)
    | .br => ∀ l ∈ (SourceForm.forms n.args).head?, bound l.word
    | .getLocal | .setLocal =>
      (∀ name ∈ (SourceForm.forms n.args).head?, name.word ∉ hidden)
        ∧ Form.SafeAll hidden bound (SourceForm.forms n.args)
    | .switch _ => Form.SafeSwitch hidden bound (SourceForm.forms n.args)
    | _ => Form.SafeAll hidden bound (SourceForm.forms n.args) := by
  have hunknown : Opcode.ofName [] = .unknown := by decide
  cases n with
  | list line items =>
    cases items with
    | nil =>
      simp only [SourceForm.head, hunknown]
      trivial
    | cons head rest =>
      simp only [SourceForm.form, SourceForm.forms, Form.Safe, Form.SafeItems,
        SourceForm.word_form] at hsafe
      exact hsafe
  | _ =>
    simp only [SourceForm.head, hunknown]
    trivial

/-- Two lists of the same forms both have one item, or both have none or at least two. -/
theorem forms_one_cases {ns₁ ns₂ : List SourceForm}
    (h : SourceForm.forms ns₁ = SourceForm.forms ns₂) :
    (∃ a b, ns₁ = [a] ∧ ns₂ = [b] ∧ a.form = b.form)
      ∨ (ns₁ = [] ∧ ns₂ = [])
      ∨ ∃ a b c d rest rest', ns₁ = a :: b :: rest ∧ ns₂ = c :: d :: rest' := by
  cases ns₁ with
  | nil => exact .inr (.inl ⟨rfl, SourceForm.forms_nil_eq h⟩)
  | cons a rest =>
    obtain ⟨b, rest', rfl, hab, hrest⟩ := SourceForm.forms_cons_eq h
    cases rest with
    | nil =>
      rw [SourceForm.forms_nil_eq hrest]
      exact .inl ⟨a, b, rfl, rfl, hab⟩
    | cons c rest =>
      obtain ⟨d, rest', rfl, _, _⟩ := SourceForm.forms_cons_eq hrest
      exact .inr (.inr ⟨_, _, _, _, _, _, rfl, rfl⟩)

theorem sim_form (heval : InnerSim w eval₁ eval₂) (f : Frame) {n₁ n₂ : SourceForm}
    (hn : n₁.form = n₂.form) (hsafe : n₁.form.Safe hidden bound) {k₁ k₂ : Nat} (hk : k₁ ≤ k₂) :
    Sim w hidden bound (form w.env₁ eval₁ k₁ f n₁) (form w.env₂ eval₂ k₂ f n₂) := by
  have hargs := SourceForm.args_eq_of_form hn
  have hitems := safeItems_args hsafe
  unfold form
  rw [← SourceForm.isList_eq_of_form hn, ← SourceForm.head_eq_of_form hn]
  cases n₁.isList with
  | false =>
    rw [SourceForm.shown_eq_of_form hn]
    exact sim_trap (by decide)
  | true =>
    simp only [Bool.not_true, Bool.false_eq_true, if_false]
    cases hop : Opcode.ofName n₁.head with
    | nop => exact sim_pure _
    | block =>
      simp only [hop] at hitems
      exact sim_block heval f hargs hitems
    | loop =>
      simp only [hop] at hitems
      exact sim_loop heval f hargs hitems hk
    | ite =>
      simp only [hop] at hitems
      exact sim_ite heval f hargs hitems
    | br =>
      simp only [hop] at hitems
      rcases forms_one_cases hargs with ⟨a, b, h₁, h₂, hab⟩ | hother
      · rw [h₁] at hitems
        simp only [h₁, h₂, ← SourceForm.word_eq_of_form hab]
        refine sim_throw_branch ?_
        rw [← SourceForm.word_form]
        exact hitems a.form rfl
      · obtain ⟨h₁, h₂⟩ | ⟨a, b, c, d, rest, rest', h₁, h₂⟩ := hother
        · simp only [h₁, h₂]
          exact sim_trap (by decide)
        · simp only [h₁, h₂]
          exact sim_trap (by decide)
    | ret =>
      simp only [hop] at hitems
      generalize n₁.args = ns₁ at hargs hitems ⊢
      cases ns₁ with
      | nil =>
        rw [SourceForm.forms_nil_eq hargs]
        exact sim_throw_ret _
      | cons a rest =>
        obtain ⟨b, rest', h₂, hab, _⟩ := SourceForm.forms_cons_eq hargs
        rw [h₂]
        exact sim_bind (heval _ _ f a b hab hitems.1) fun v => sim_throw_ret v
    | getLocal =>
      simp only [hop] at hitems
      exact sim_getLocal f hargs hitems.1
    | setLocal =>
      simp only [hop] at hitems
      exact sim_setLocal heval f hargs hitems.1 hitems.2
    | call =>
      simp only [hop] at hitems
      exact sim_callForm heval f hargs hitems
    | callImport =>
      simp only [hop] at hitems
      exact sim_callImport heval f hargs hitems
    | invoke => exact sim_invoke heval f hn hsafe
    | assertion expectedFirst =>
      simp only [hop] at hitems
      exact sim_bind (sim_assertion heval expectedFirst f hn hitems) fun _ => sim_pure _
    | assertHeap => exact sim_bind (sim_assertHeap hn) fun _ => sim_pure _
    | assertHeapFile => exact sim_bind (sim_assertHeapFile hn) fun _ => sim_pure _
    | untranslatable => exact sim_trap (by decide)
    | const kw =>
      rcases forms_one_cases hargs with ⟨a, b, h₁, h₂, hab⟩ | hother
      · simp only [h₁, h₂, ← SourceForm.word_eq_of_form hab]
        exact sim_lift fun t => code_ofConstant
      · obtain ⟨h₁, h₂⟩ | ⟨a, b, c, d, rest, rest', h₁, h₂⟩ := hother
        · simp only [h₁, h₂]
          exact sim_trap (by decide)
        · simp only [h₁, h₂]
          exact sim_trap (by decide)
    | switch kw =>
      simp only [hop] at hitems
      exact sim_switch heval kw f hargs hitems
    | load kw suffix =>
      simp only [hop] at hitems
      exact sim_load heval kw suffix f hargs hitems
    | store kw suffix =>
      simp only [hop] at hitems
      exact sim_store heval kw suffix f hargs hitems
    | operation kw name =>
      simp only [hop] at hitems
      exact sim_operation heval kw name _ f hargs hitems
    | unknown => exact sim_trap_name 117 rfl (by decide)

/-- Runs of a safe form agree, whatever its lines are, if the second one has at least the fuel of
the first one. -/
theorem innerSim_run (w : Twins) {fuel₁ fuel₂ : Nat} (hfuel : fuel₁ ≤ fuel₂) :
    InnerSim w (run w.env₁ fuel₁) (run w.env₂ fuel₂) := by
  induction fuel₁ generalizing fuel₂ with
  | zero =>
    intro hidden bound f n₁ n₂ _ _ m₁ m₂ _
    exact .exhausted ⟨rfl, rfl⟩
  | succ fuel₁ ih =>
    obtain ⟨fuel₂, rfl⟩ : ∃ k, fuel₂ = k + 1 := ⟨fuel₂ - 1, by omega⟩
    intro hidden bound f n₁ n₂ hn hsafe
    refine sim_bind sim_step fun _ => ?_
    exact sim_atLine _ _ (sim_form (ih (by omega)) f hn hsafe hfuel)

end Eval

end WastForge
