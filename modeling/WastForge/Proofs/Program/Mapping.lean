import WastForge.Program.Transform
import WastForge.Proofs.Program.Slots

/-!
# Mapping from the leaves up

Mapping puts into every slot the image of what stands there, from the leaves up, and changes nothing
else. It fails just if the mapper fails on a node that it is shown on the way, and if the mapper
leaves all nodes then it leaves the tree.
-/

namespace WastForge

section Image

variable {σ ε : Type} (f : Mapper (StateT σ (Except ε)))

mutual

/-- From the state `u` on, mapping makes `e'` of `e` and leads to the state `u'`: what stands in the
slots is mapped first, and then the mapper is shown the node with the images in its slots. -/
inductive Expr.Image : σ → Expr → Expr → σ → Prop where
  | missing (u : σ) : Expr.Image u .missing .missing u
  | node {u v u' : σ} {e shown : Expr} {new : Option Expr} (there : e.isMissing = false)
      (slots : Expr.Images u e.slots shown.slots v) (rest : shown.hollow = e.hollow)
      (answer : f shown v = .ok (new, u')) : Expr.Image u e (new.getD shown) u'

/-- The same for expressions one after the other. -/
inductive Expr.Images : σ → List Expr → List Expr → σ → Prop where
  | nil (u : σ) : Expr.Images u [] [] u
  | cons {u v u' : σ} {e e' : Expr} {l l' : List Expr} (first : Expr.Image u e e' v)
      (rest : Expr.Images v l l' u') : Expr.Images u (e :: l) (e' :: l') u'

end

mutual

/-- From the state `u` on, mapping `e` shows the mapper a node on which it fails. -/
inductive Expr.Fails : σ → Expr → ε → Prop where
  | here {u v : σ} {e shown : Expr} {err : ε} (there : e.isMissing = false)
      (slots : Expr.Images f u e.slots shown.slots v) (rest : shown.hollow = e.hollow)
      (answer : f shown v = .error err) : Expr.Fails u e err
  | inSlot {u : σ} {e : Expr} {err : ε} (slots : Expr.SomeFails u e.slots err) : Expr.Fails u e err

/-- The same for expressions one after the other. -/
inductive Expr.SomeFails : σ → List Expr → ε → Prop where
  | first {u : σ} {e : Expr} {l : List Expr} {err : ε} (h : Expr.Fails u e err) :
      Expr.SomeFails u (e :: l) err
  | later {u v : σ} {e e' : Expr} {l : List Expr} {err : ε} (first : Expr.Image f u e e' v)
      (h : Expr.SomeFails v l err) : Expr.SomeFails u (e :: l) err

end

/-- The mapper leaves a node, whatever the state. -/
def Node.LeftBy : Node → Prop
  | .expr e => ∀ u, ∃ u', f e u = .ok (none, u')
  | .stmt _ => True

end Image

namespace Expr

section

variable {σ ε : Type} {f : Mapper (StateT σ (Except ε))}

theorem Images.append {u v u' : σ} {l l' r r' : List Expr} (h : Images f u l l' v)
    (h' : Images f v r r' u') : Images f u (l ++ r) (l' ++ r') u' := by
  induction l generalizing u l' with
  | nil =>
    cases h
    exact h'
  | cons e l ih =>
    obtain ⟨⟩ | ⟨hfirst, hrest⟩ := h
    exact .cons hfirst (ih hrest)

theorem SomeFails.append_left {u : σ} {l r : List Expr} {err : ε} (h : SomeFails f u l err) :
    SomeFails f u (l ++ r) err := by
  induction l generalizing u with
  | nil => cases h
  | cons e l ih =>
    cases h with
    | first h => exact .first h
    | later hfirst h => exact .later hfirst (ih h)

theorem SomeFails.append_right {u v : σ} {l l' r : List Expr} {err : ε} (h : Images f u l l' v)
    (h' : SomeFails f v r err) : SomeFails f u (l ++ r) err := by
  induction l generalizing u l' with
  | nil =>
    cases h
    exact h'
  | cons e l ih =>
    obtain ⟨⟩ | ⟨hfirst, hrest⟩ := h
    exact .later hfirst (ih hrest)

mutual

/-- An expression has one image. -/
theorem Image.unique {u u₁ u₂ : σ} {e e₁ e₂ : Expr} :
    Image f u e e₁ u₁ → Image f u e e₂ u₂ → e₁ = e₂ ∧ u₁ = u₂
  | .missing _, .missing _ => ⟨rfl, rfl⟩
  | .missing _, .node there _ _ _ => nomatch there
  | .node there _ _ _, .missing _ => nomatch there
  | .node _ slots rest answer, .node _ slots' rest' answer' => by
    obtain ⟨hslots, rfl⟩ := slots.unique slots'
    obtain rfl := eq_of_hollow_of_slots (rest.trans rest'.symm) hslots
    obtain ⟨rfl, rfl⟩ := Prod.mk.inj (Except.ok.inj (answer.symm.trans answer'))
    exact ⟨rfl, rfl⟩

theorem Images.unique {u u₁ u₂ : σ} {l l₁ l₂ : List Expr} :
    Images f u l l₁ u₁ → Images f u l l₂ u₂ → l₁ = l₂ ∧ u₁ = u₂
  | .nil _, .nil _ => ⟨rfl, rfl⟩
  | .cons first rest, .cons first' rest' => by
    obtain ⟨rfl, rfl⟩ := first.unique first'
    obtain ⟨rfl, rfl⟩ := rest.unique rest'
    exact ⟨rfl, rfl⟩

end

mutual

/-- What has an image is not failed on. -/
theorem Fails.not_image {u u' : σ} {e e' : Expr} {err : ε} :
    Fails f u e err → ¬Image f u e e' u'
  | .here there _ _ _, .missing _ => nomatch there
  | .inSlot slots, .missing _ => nomatch slots
  | .here _ slots rest answer, .node _ slots' rest' answer' => by
    obtain ⟨hslots, rfl⟩ := slots.unique slots'
    obtain rfl := eq_of_hollow_of_slots (rest.trans rest'.symm) hslots
    cases answer.symm.trans answer'
  | .inSlot slots, .node _ slots' _ _ => slots.not_images slots'

theorem SomeFails.not_images {u u' : σ} {l l' : List Expr} {err : ε} :
    SomeFails f u l err → ¬Images f u l l' u'
  | .first h, .cons first _ => h.not_image first
  | .later first h, .cons first' rest => by
    obtain ⟨rfl, rfl⟩ := first.unique first'
    exact h.not_images rest

end

mutual

/-- Mapping fails with one error. -/
theorem Fails.unique {u : σ} {e : Expr} {err err' : ε} :
    Fails f u e err → Fails f u e err' → err = err'
  | .here _ slots rest answer, .here _ slots' rest' answer' => by
    obtain ⟨hslots, rfl⟩ := slots.unique slots'
    obtain rfl := eq_of_hollow_of_slots (rest.trans rest'.symm) hslots
    exact Except.error.inj (answer.symm.trans answer')
  | .here _ slots _ _, .inSlot slots' => absurd slots slots'.not_images
  | .inSlot slots, .here _ slots' _ _ => absurd slots' slots.not_images
  | .inSlot slots, .inSlot slots' => slots.unique slots'

theorem SomeFails.unique {u : σ} {l : List Expr} {err err' : ε} :
    SomeFails f u l err → SomeFails f u l err' → err = err'
  | .first h, .first h' => h.unique h'
  | .first h, .later first _ => absurd first h.not_image
  | .later first _, .first h => absurd first h.not_image
  | .later first h, .later first' h' => by
    obtain ⟨rfl, rfl⟩ := first.unique first'
    exact h.unique h'

end

mutual

/-- What mapping fails with is what the mapper fails with. -/
theorem Fails.exists_error {u : σ} {e : Expr} {err : ε} :
    Fails f u e err → ∃ shown v, f shown v = .error err
  | .here _ _ _ answer => ⟨_, _, answer⟩
  | .inSlot slots => slots.exists_error

theorem SomeFails.exists_error {u : σ} {l : List Expr} {err : ε} :
    SomeFails f u l err → ∃ shown v, f shown v = .error err
  | .first h => h.exists_error
  | .later _ h => h.exists_error

end

mutual

/-- An expression in which the mapper leaves all nodes is its own image. -/
theorem Image.eq_of_left {u u' : σ} {e e' : Expr} :
    Image f u e e' u' → e.Each (Node.LeftBy f) → e' = e
  | .missing _, _ => rfl
  | .node (v := v) there slots rest answer, h => by
    obtain ⟨here, hbelow⟩ := (each_iff there).mp h
    obtain rfl := eq_of_hollow_of_slots rest (slots.eq_of_left hbelow)
    obtain ⟨v', hnone⟩ := here v
    obtain ⟨rfl, -⟩ := Prod.mk.inj (Except.ok.inj (answer.symm.trans hnone))
    rfl

theorem Images.eq_of_left {u u' : σ} {l l' : List Expr} :
    Images f u l l' u' → (∀ e ∈ l, e.Each (Node.LeftBy f)) → l' = l
  | .nil _, _ => rfl
  | .cons first rest, h => by
    obtain ⟨hfirst, hrest⟩ := List.forall_mem_cons.mp h
    rw [first.eq_of_left hfirst, rest.eq_of_left hrest]

end

mutual

/-- A mapper that leaves all nodes does not fail. -/
theorem Fails.not_left {u : σ} {e : Expr} {err : ε} :
    Fails f u e err → ¬e.Each (Node.LeftBy f)
  | .here (v := v) there slots rest answer, h => by
    obtain ⟨here, hbelow⟩ := (each_iff there).mp h
    obtain rfl := eq_of_hollow_of_slots rest (slots.eq_of_left hbelow)
    obtain ⟨v', hnone⟩ := here v
    cases answer.symm.trans hnone
  | .inSlot (e := e) slots, h => by
    cases hmissing : e.isMissing with
    | true =>
      cases e <;> cases hmissing
      cases slots
    | false => exact slots.not_left ((each_iff hmissing).mp h).2

theorem SomeFails.not_left {u : σ} {l : List Expr} {err : ε} :
    SomeFails f u l err → ¬∀ e ∈ l, e.Each (Node.LeftBy f)
  | .first h, hl => h.not_left (List.forall_mem_cons.mp hl).1
  | .later _ h, hl => h.not_left (List.forall_mem_cons.mp hl).2

end

mutual

/-- Images have a property in all nodes if the mapper makes such trees of nodes with `P`, once what
stands in their slots is mapped. -/
theorem Image.each {P P' : Node → Prop}
    (step : ∀ {e shown : Expr} {new : Option Expr} {v u' : σ}, shown.hollow = e.hollow →
      P (.expr e) → (∀ x ∈ shown.slots, x.Each P') → f shown v = .ok (new, u') →
      (new.getD shown).Each P') {u u' : σ} {e e' : Expr} :
    Image f u e e' u' → e.Each P → e'.Each P'
  | .missing _, _ => each_missing
  | .node there slots rest answer, h => by
    obtain ⟨here, hbelow⟩ := (each_iff there).mp h
    exact step rest here (slots.each step hbelow) answer

theorem Images.each {P P' : Node → Prop}
    (step : ∀ {e shown : Expr} {new : Option Expr} {v u' : σ}, shown.hollow = e.hollow →
      P (.expr e) → (∀ x ∈ shown.slots, x.Each P') → f shown v = .ok (new, u') →
      (new.getD shown).Each P') {u u' : σ} {l l' : List Expr} :
    Images f u l l' u' → (∀ e ∈ l, e.Each P) → ∀ e ∈ l', e.Each P'
  | .nil _, _ => fun _ he => nomatch he
  | .cons first rest, h => by
    obtain ⟨hfirst, hrest⟩ := List.forall_mem_cons.mp h
    exact List.forall_mem_cons.mpr ⟨first.each step hfirst, rest.each step hrest⟩

end

/-- What showing nodes to the mapper does to the state, whatever their order. -/
structure Tallies (f : Mapper (StateT σ (Except ε))) (R : List Node → σ → σ → Prop) : Prop where
  nil : ∀ u, R [] u u
  append : ∀ {l r : List Node} {u v u' : σ}, R l u v → R r v u' → R (l ++ r) u u'
  perm : ∀ {l r : List Node} {u u' : σ}, l.Perm r → R l u u' → R r u u'
  step : ∀ {e shown : Expr} {new : Option Expr} {u v u' : σ}, Images f u e.slots shown.slots v →
    shown.hollow = e.hollow → f shown v = .ok (new, u') → R [.expr e] v u'

mutual

/-- Mapping does to the state what showing all nodes does. -/
theorem Image.tally {R : List Node → σ → σ → Prop} (hR : Tallies f R) {u u' : σ} {e e' : Expr} :
    Image f u e e' u' → R e.nodes u u'
  | .missing _ => hR.nil _
  | .node (e := e) there slots rest answer => by
    rw [nodes_eq there]
    have hrun := hR.append (slots.tally hR) (hR.step slots rest answer)
    exact hR.perm List.perm_append_comm hrun

theorem Images.tally {R : List Node → σ → σ → Prop} (hR : Tallies f R) {u u' : σ}
    {l l' : List Expr} : Images f u l l' u' → R (l.flatMap nodes) u u'
  | .nil _ => hR.nil _
  | .cons first rest => hR.append (first.tally hR) (rest.tally hR)

end

end

end Expr

namespace Transform

variable {α β γ δ : Type}

theorem keep_one (mk : α → β) (a : α) (a' : Option α) :
    keep (mk a) (one mk a') = mk (keep a a') := by
  cases a' <;> rfl

theorem keep_two (mk : α → β → γ) (a : α) (b : β) (a' : Option α) (b' : Option β) :
    keep (mk a b) (two mk a b a' b') = mk (keep a a') (keep b b') := by
  cases a' <;> cases b' <;> rfl

theorem keep_three (mk : α → β → γ → δ) (a : α) (b : β) (c : γ) (a' : Option α) (b' : Option β)
    (c' : Option γ) :
    keep (mk a b c) (three mk a b c a' b' c') = mk (keep a a') (keep b b') (keep c c') := by
  cases a' <;> cases b' <;> cases c' <;> rfl

theorem keep_some (a : α) (a' : Option α) : keep (some a) (a'.map some) = some (keep a a') := by
  cases a' <;> rfl

/-- What has slots: an expression, a statement, a list or an arm. -/
structure Parted (α : Type) where
  slots : α → List Expr
  hollow : α → α

/-- An expression is a slot itself. -/
def Parted.slot : Parted Expr := ⟨fun e => [e], fun _ => .missing⟩

/-- What stands in an expression. -/
def Parted.node : Parted Expr := ⟨Expr.slots, Expr.hollow⟩

/-- What stands in a list of expressions that may be left out. -/
def Parted.rows : Parted (Option (List Expr)) := ⟨Rows.items, Option.map Expr.hollowAll⟩

/-- What stands in a list of expressions. -/
def Parted.list : Parted (List Expr) := ⟨id, Expr.hollowAll⟩

section

variable {σ ε : Type} {f : Mapper (StateT σ (Except ε))}

/-- The work maps the expressions `l` one after the other, and `P` holds of their images and of what
it gives. -/
def Maps (f : Mapper (StateT σ (Except ε))) (l : List Expr) (P : List Expr → β → Prop)
    (act : StateT σ (Except ε) β) : Prop :=
  ∀ u, match act u with
    | .ok (x, u') => ∃ images, Expr.Images f u l images u' ∧ P images x
    | .error err => Expr.SomeFails f u l err

/-- What mapping makes of `old`: the images stand in its slots, nothing else changes, and it is left
if the mapper leaves all nodes in it. -/
structure Remade (f : Mapper (StateT σ (Except ε))) (p : Parted α) (old : α) (images : List Expr)
    (new : Option α) : Prop where
  slots : p.slots (keep old new) = images
  hollow : p.hollow (keep old new) = p.hollow old
  left : (∀ x ∈ p.slots old, x.Each (Node.LeftBy f)) → new = none

/-- The work maps what stands in `old`. -/
abbrev Remakes (f : Mapper (StateT σ (Except ε))) (p : Parted α) (old : α)
    (act : StateT σ (Except ε) (Option α)) : Prop :=
  Maps f (p.slots old) (Remade f p old) act

theorem maps_pure {P : List Expr → β → Prop} {x : β} (h : P [] x) : Maps f [] P (pure x) :=
  fun u => ⟨[], .nil u, h⟩

theorem maps_bind {l r : List Expr} {P : List Expr → β → Prop} {Q : List Expr → γ → Prop}
    {act : StateT σ (Except ε) β} {k : β → StateT σ (Except ε) γ} (hact : Maps f l P act)
    (hnext : ∀ images x, P images x → Maps f r (fun more => Q (images ++ more)) (k x)) :
    Maps f (l ++ r) Q (act >>= k) := by
  intro u
  have h := hact u
  have hrun : (act >>= k) u = act u >>= fun x => k x.1 x.2 := rfl
  rw [hrun]
  cases hfirst : act u with
  | error err =>
    rw [hfirst] at h
    exact h.append_left
  | ok x =>
    rw [hfirst] at h
    obtain ⟨images, himages, hP⟩ := h
    have h' := hnext images x.1 hP x.2
    have hnext : ((.ok x : Except ε _) >>= fun x => k x.1 x.2) = k x.1 x.2 := rfl
    rw [hnext]
    cases hsecond : k x.1 x.2 with
    | error err =>
      rw [hsecond] at h'
      exact h'.append_right himages
    | ok y =>
      rw [hsecond] at h'
      obtain ⟨more, hmore, hQ⟩ := h'
      exact ⟨images ++ more, himages.append hmore, hQ⟩

/-- What holds of the images holds of what is made of the result. -/
theorem Maps.map {l : List Expr} {P : List Expr → β → Prop} {Q : List Expr → γ → Prop}
    {act : StateT σ (Except ε) β} {g : β → γ} (h : Maps f l P act)
    (hg : ∀ images x, P images x → Q images (g x)) : Maps f l Q (act >>= fun x => pure (g x)) := by
  have hmaps := maps_bind (r := []) (k := fun x => pure (g x)) (Q := Q) h fun images x hx => by
    refine maps_pure ?_
    rw [List.append_nil]
    exact hg images x hx
  rwa [List.append_nil] at hmaps

variable {p : Parted α} {q : Parted β} {r : Parted γ} {s : Parted δ}

/-- Something without slots is left. -/
theorem remakes_none {old : α} (h : p.slots old = []) : Remakes f p old (pure none) := by
  unfold Remakes
  rw [h]
  exact maps_pure ⟨h, rfl, fun _ => rfl⟩

/-- What stands in something with one part is what stands in the part. -/
theorem remakes_one {g : α → β} {a : α} {act : StateT σ (Except ε) (Option α)}
    (h : Remakes f p a act) (hslots : ∀ a, q.slots (g a) = p.slots a)
    (hhollow : ∀ a a', p.hollow a = p.hollow a' → q.hollow (g a) = q.hollow (g a')) :
    Remakes f q (g a) (act >>= fun a' => pure (one g a')) := by
  unfold Remakes
  rw [hslots]
  refine Maps.map h fun images a' ha => ⟨?_, ?_, fun hleft => ?_⟩
  · rw [keep_one, hslots, ha.slots]
  · rw [keep_one]
    exact hhollow _ _ ha.hollow
  · rw [hslots] at hleft
    rw [ha.left hleft]
    rfl

/-- What stands in something with two parts is what stands in the one and then what stands in the
other. -/
theorem remakes_two {g : α → β → γ} {a : α} {b : β} {act : StateT σ (Except ε) (Option α)}
    {act' : StateT σ (Except ε) (Option β)} (h : Remakes f p a act) (h' : Remakes f q b act')
    (hslots : ∀ a b, r.slots (g a b) = p.slots a ++ q.slots b)
    (hhollow : ∀ a a' b b', p.hollow a = p.hollow a' → q.hollow b = q.hollow b' →
      r.hollow (g a b) = r.hollow (g a' b')) :
    Remakes f r (g a b) (act >>= fun a' => act' >>= fun b' => pure (two g a b a' b')) := by
  unfold Remakes
  rw [hslots]
  refine maps_bind h fun images a' ha => Maps.map h' fun more b' hb => ⟨?_, ?_, fun hleft => ?_⟩
  · rw [keep_two, hslots, ha.slots, hb.slots]
  · rw [keep_two]
    exact hhollow _ _ _ _ ha.hollow hb.hollow
  · rw [hslots] at hleft
    obtain ⟨hleft, hleft'⟩ := List.forall_mem_append.mp hleft
    rw [ha.left hleft, hb.left hleft']
    rfl

/-- The same for three parts. -/
theorem remakes_three {g : α → β → γ → δ} {a : α} {b : β} {c : γ}
    {act : StateT σ (Except ε) (Option α)} {act' : StateT σ (Except ε) (Option β)}
    {act'' : StateT σ (Except ε) (Option γ)} (h : Remakes f p a act) (h' : Remakes f q b act')
    (h'' : Remakes f r c act'')
    (hslots : ∀ a b c, s.slots (g a b c) = p.slots a ++ (q.slots b ++ r.slots c))
    (hhollow : ∀ a a' b b' c c', p.hollow a = p.hollow a' → q.hollow b = q.hollow b' →
      r.hollow c = r.hollow c' → s.hollow (g a b c) = s.hollow (g a' b' c')) :
    Remakes f s (g a b c) (act >>= fun a' => act' >>= fun b' => act'' >>= fun c' =>
      pure (three g a b c a' b' c')) := by
  unfold Remakes
  rw [hslots]
  refine maps_bind h fun images a' ha => maps_bind h' fun more b' hb =>
    Maps.map h'' fun rest c' hc => ⟨?_, ?_, fun hleft => ?_⟩
  · rw [keep_three, hslots, ha.slots, hb.slots, hc.slots]
  · rw [keep_three]
    exact hhollow _ _ _ _ _ _ ha.hollow hb.hollow hc.hollow
  · rw [hslots] at hleft
    obtain ⟨hleft, hrest⟩ := List.forall_mem_append.mp hleft
    obtain ⟨hleft', hleft''⟩ := List.forall_mem_append.mp hrest
    rw [ha.left hleft, hb.left hleft', hc.left hleft'']
    rfl

theorem visit_error {e : Expr} {rebuilt : Option Expr} {v : σ} {err : ε}
    (h : f (keep e rebuilt) v = .error err) : visit f e rebuilt v = .error err := by
  show (f (keep e rebuilt) v >>= fun x => _) = _
  rw [h]
  rfl

theorem visit_ok {e : Expr} {rebuilt : Option Expr} {v u' : σ} {new : Option Expr}
    (h : f (keep e rebuilt) v = .ok (new, u')) :
    visit f e rebuilt v = .ok (new.orElse fun _ => rebuilt, u') := by
  show (f (keep e rebuilt) v >>= fun x => _) = _
  rw [h]
  cases new <;> rfl

/-- The node with the images of its slots is shown to the mapper, and what that makes of it is the
image. -/
theorem remakes_visit {e : Expr} {act : StateT σ (Except ε) (Option Expr)}
    (he : e.isMissing = false) (h : Remakes f .node e act) :
    Remakes f .slot e (act >>= visit f e) := by
  intro u
  have hu := h u
  have hrun : (act >>= visit f e) u = act u >>= fun x => visit f e x.1 x.2 := rfl
  rw [hrun]
  cases hact : act u with
  | error err =>
    rw [hact] at hu
    exact .first (.inSlot hu)
  | ok x =>
    rw [hact] at hu
    obtain ⟨images, himages, hremade⟩ := hu
    obtain ⟨rebuilt, v⟩ := x
    obtain rfl : (keep e rebuilt).slots = images := hremade.slots
    have hvisit : ((.ok (rebuilt, v) : Except ε _) >>= fun x => visit f e x.1 x.2)
        = visit f e rebuilt v := rfl
    rw [hvisit]
    cases hanswer : f (keep e rebuilt) v with
    | error err =>
      rw [visit_error hanswer]
      exact .first (.here he himages hremade.hollow hanswer)
    | ok y =>
      obtain ⟨new, u'⟩ := y
      rw [visit_ok hanswer]
      have himage := Expr.Image.node he himages hremade.hollow hanswer
      have hleft : e.Each (Node.LeftBy f) → rebuilt = none ∧ new = none := by
        intro heach
        obtain ⟨here, hbelow⟩ := (Expr.each_iff he).mp heach
        have hrebuilt : rebuilt = none := hremade.left hbelow
        obtain ⟨v', hnone⟩ := here v
        rw [hrebuilt] at hanswer
        obtain ⟨rfl, -⟩ := Prod.mk.inj (Except.ok.inj (hanswer.symm.trans hnone))
        exact ⟨hrebuilt, rfl⟩
      cases new with
      | some e' =>
        refine ⟨[e'], .cons himage (.nil _), rfl, rfl, fun h => ?_⟩
        exact absurd (hleft (h e (List.mem_singleton_self e))).2 (Option.some_ne_none e')
      | none =>
        refine ⟨[keep e rebuilt], .cons himage (.nil _), rfl, rfl, fun h => ?_⟩
        exact (hleft (h e (List.mem_singleton_self e))).1

/-- An expression with one part is mapped by mapping the part. -/
theorem remakes_node_one {g : α → Expr} {a : α} {act : StateT σ (Except ε) (Option α)}
    (he : (g a).isMissing = false) (h : Remakes f p a act)
    (hslots : ∀ a, (g a).slots = p.slots a)
    (hhollow : ∀ a a', p.hollow a = p.hollow a' → (g a).hollow = (g a').hollow) :
    Remakes f .slot (g a) (act >>= fun a' => visit f (g a) (one g a')) := by
  have hvisit := remakes_visit he (remakes_one (q := .node) h hslots hhollow)
  simpa only [bind_assoc, pure_bind] using hvisit

/-- An expression with two parts is mapped by mapping one after the other. -/
theorem remakes_node_two {g : α → β → Expr} {a : α} {b : β}
    {act : StateT σ (Except ε) (Option α)} {act' : StateT σ (Except ε) (Option β)}
    (he : (g a b).isMissing = false) (h : Remakes f p a act) (h' : Remakes f q b act')
    (hslots : ∀ a b, (g a b).slots = p.slots a ++ q.slots b)
    (hhollow : ∀ a a' b b', p.hollow a = p.hollow a' → q.hollow b = q.hollow b' →
      (g a b).hollow = (g a' b').hollow) :
    Remakes f .slot (g a b)
      (act >>= fun a' => act' >>= fun b' => visit f (g a b) (two g a b a' b')) := by
  have hvisit := remakes_visit he (remakes_two (r := .node) h h' hslots hhollow)
  simpa only [bind_assoc, pure_bind] using hvisit

mutual

theorem remakes_expr : ∀ e, Remakes f .slot e (expr f e)
  | .missing => fun u => ⟨[.missing], .cons (.missing u) (.nil u), rfl, rfl, fun _ => rfl⟩
  | .bare .. | .literal .. | .variable .. | .assertHeap .. =>
    remakes_visit rfl (remakes_none (p := .node) rfl)
  | .binary .. | .memory .. => by
    unfold expr
    exact remakes_node_two rfl (remakes_expr _) (remakes_expr _) (fun _ _ => rfl)
      fun _ _ _ _ _ _ => rfl
  | .conditional a c x y => by
    have h := remakes_visit rfl (remakes_three (s := .node) (g := .conditional a) (remakes_expr c)
      (remakes_expr x) (remakes_expr y) (fun _ _ _ => rfl) fun _ _ _ _ _ _ _ _ _ => rfl)
    unfold expr
    simpa only [bind_assoc, pure_bind] using h
  | .unary .. | .field .. | .property .. | .cast .. | .reference .. | .stringLength .. => by
    unfold expr
    exact remakes_node_one rfl (remakes_expr _) (fun _ => rfl) fun _ _ _ => rfl
  | .call a target params isStatic _ _ => by
    unfold expr
    exact remakes_node_two rfl (remakes_expr _) (remakes_exprRows _) (fun _ _ => rfl)
      fun _ _ _ _ _ hargs => congrArg (Expr.call a target params isStatic .missing) hargs
  | .assertion a isEq _ name _ => by
    unfold expr
    exact remakes_node_two (g := fun x l => .assertion a isEq x name l) rfl (remakes_expr _)
      (remakes_exprRows _) (fun _ _ => rfl)
      fun _ _ _ _ _ hargs => congrArg (Expr.assertion a isEq .missing name) hargs
  | .comma a _ => by
    unfold expr
    exact remakes_node_one rfl (remakes_exprRows _) (fun _ => rfl)
      fun _ _ hxs => congrArg (Expr.comma a) hxs
  | .intrinsic a op _ => by
    unfold expr
    exact remakes_node_one rfl (remakes_exprRows _) (fun _ => rfl)
      fun _ _ hargs => congrArg (Expr.intrinsic a op) hargs
  | .invoke a name _ => by
    unfold expr
    exact remakes_node_one rfl (remakes_exprRows _) (fun _ => rfl)
      fun _ _ hargs => congrArg (Expr.invoke a name) hargs
  | .harnessCall a op _ => by
    unfold expr
    exact remakes_node_one rfl (remakes_exprRows _) (fun _ => rfl)
      fun _ _ hargs => congrArg (Expr.harnessCall a op) hargs
  | .arrayInit a elem size _ true => by
    unfold expr
    exact remakes_node_one (g := fun l => .arrayInit a elem size l true) rfl (remakes_exprRows _)
      (fun _ => rfl) fun _ _ hl => congrArg (Expr.arrayInit a elem size · true) hl
  | .arrayInit a elem _ elements false => by
    unfold expr
    exact remakes_node_one (g := fun x => .arrayInit a elem x elements false) rfl (remakes_expr _)
      (fun _ => rfl) fun _ _ _ => rfl

theorem remakes_exprRows : ∀ rows, Remakes f .rows rows (exprRows f rows)
  | none => remakes_none (p := .rows) rfl
  | some l => by
    unfold exprRows
    exact remakes_one (remakes_exprs l) (fun _ => rfl) fun _ _ h => congrArg some h

theorem remakes_exprs : ∀ l, Remakes f .list l (exprs f l)
  | [] => remakes_none (p := .list) rfl
  | e :: rest => by
    unfold exprs
    exact remakes_two (remakes_expr e) (remakes_exprs rest) (fun _ _ => rfl)
      fun _ _ _ _ _ h => congrArg (List.cons Expr.missing) h

end

/-- What stands in a statement and below it. -/
def Parted.stmt : Parted Stmt := ⟨Stmt.slots, Stmt.hollow⟩

/-- What stands in a list of statements that may be left out. -/
def Parted.stmtRows : Parted (Option (List Stmt)) := ⟨Stmt.slotsRows, Stmt.hollowRows⟩

/-- What stands in a list of statements. -/
def Parted.stmts : Parted (List Stmt) := ⟨Stmt.slotsAll, Stmt.hollowAll⟩

/-- What stands in the statements behind a label. -/
def Parted.label : Parted Label :=
  ⟨fun l => Stmt.slotsRows l.body, fun l => .mk l.name (Stmt.hollowRows l.body)⟩

/-- What stands in the labels of a group. -/
def Parted.labels : Parted (List Label) := ⟨Stmt.slotsLabels, Stmt.hollowLabels⟩

/-- What stands in the labels of a group that may be left out. -/
def Parted.labelRows : Parted (Option (List Label)) :=
  ⟨Stmt.slotsLabelRows, Stmt.hollowLabelRows⟩

/-- What stands in an arm of a switch. -/
def Parted.case : Parted Case :=
  ⟨fun c => Rows.items c.values ++ Stmt.slotsRows c.body,
    fun c => .mk (c.values.map Expr.hollowAll) c.isDefault (Stmt.hollowRows c.body)⟩

/-- What stands in the arms of a switch. -/
def Parted.cases : Parted (List Case) := ⟨Stmt.slotsCases, Stmt.hollowCases⟩

/-- What stands in the arms of a switch that may be left out. -/
def Parted.caseRows : Parted (Option (List Case)) := ⟨Stmt.slotsCaseRows, Stmt.hollowCaseRows⟩

/-- The first value of a variable. -/
def Parted.var : Parted VarInit := ⟨fun v => [v.init], fun v => { v with init := .missing }⟩

/-- The first values of variables. -/
def Parted.vars : Parted (List VarInit) :=
  ⟨fun l => l.map (·.init), fun l => l.map fun v => { v with init := .missing }⟩

theorem remakes_vars : ∀ l, Remakes f .vars l (vars f l)
  | [] => remakes_none (p := .vars) rfl
  | v :: rest => by
    have hvar : Remakes f .var v
        (expr f v.init >>= fun e' => pure (e'.map fun e => { v with init := e })) :=
      remakes_one (g := fun e => { v with init := e }) (remakes_expr v.init) (fun _ => rfl)
        fun _ _ _ => rfl
    have h := remakes_two (r := .vars) (g := List.cons) hvar (remakes_vars rest) (fun _ _ => rfl)
      fun _ _ _ _ hv hrest => List.cons_eq_cons.mpr ⟨hv, hrest⟩
    unfold vars
    simpa only [bind_assoc, pure_bind] using h

/-- A loop has four parts, which are mapped one after the other. -/
theorem remakes_forLoop {m : Mark} {index : LoopIndex} {init : Option (List Stmt)} {cond : Expr}
    {post : Option (List Expr)} {body : Stmt}
    {act : StateT σ (Except ε) (Option (Option (List Stmt)))}
    {act' : StateT σ (Except ε) (Option Stmt)} (hinit : Remakes f .stmtRows init act)
    (hbody : Remakes f .stmt body act') :
    Remakes f .stmt (.forLoop m index init cond post body) (do
      let init' ← act
      let cond' ← expr f cond
      let body' ← act'
      let post' ← exprRows f post
      if init'.isSome || cond'.isSome || body'.isSome || post'.isSome then
        return some (.forLoop m index (keep init init') (keep cond cond') (keep post post')
          (keep body body'))
      else return none) := by
  refine maps_bind hinit fun images init' hinit => ?_
  refine maps_bind (l := [cond]) (remakes_expr cond) fun more cond' hcond => ?_
  refine maps_bind hbody fun more' body' hbody => ?_
  simp only [← apply_ite pure]
  refine Maps.map (remakes_exprRows post) fun rest post' hpost => ?_
  have hnew : keep (Stmt.forLoop m index init cond post body)
      (if init'.isSome || cond'.isSome || body'.isSome || post'.isSome then
        some (.forLoop m index (keep init init') (keep cond cond') (keep post post')
          (keep body body'))
      else none)
      = .forLoop m index (keep init init') (keep cond cond') (keep post post')
        (keep body body') := by
    cases init' <;> cases cond' <;> cases body' <;> cases post' <;> rfl
  refine ⟨?_, ?_, fun hleft => ?_⟩
  · rw [hnew, ← hinit.slots, ← hcond.slots, ← hbody.slots, ← hpost.slots]
    rfl
  · rw [hnew]
    exact (Stmt.forLoop.injEq ..).mpr ⟨rfl, rfl, hinit.hollow, rfl, hpost.hollow, hbody.hollow⟩
  · obtain ⟨hleft, hrest⟩ := List.forall_mem_append.mp hleft
    obtain ⟨hleft', hrest⟩ := List.forall_mem_cons.mp hrest
    obtain ⟨hleft'', hrest⟩ := List.forall_mem_append.mp hrest
    rw [hinit.left hleft, hcond.left (List.forall_mem_singleton.mpr hleft'), hbody.left hleft'',
      hpost.left hrest]
    rfl

mutual

theorem remakes_stmt : ∀ s, Remakes f .stmt s (stmt f s)
  | .missing | .bare .. | .goto .. | .branch .. => remakes_none (p := .stmt) rfl
  | .block m _ => by
    unfold stmt
    exact remakes_one (remakes_stmtRows _) (fun _ => rfl) fun _ _ h => congrArg (Stmt.block m) h
  | .expr .. | .ret .. => by
    unfold stmt
    exact remakes_one (remakes_expr _) (fun _ => rfl) fun _ _ _ => rfl
  | .ite m _ _ _ => by
    unfold stmt
    exact remakes_three (remakes_expr _) (remakes_stmt _) (remakes_stmt _) (fun _ _ _ => rfl)
      fun _ _ _ _ _ _ _ hx hy => (Stmt.ite.injEq ..).mpr ⟨rfl, rfl, hx, hy⟩
  | .forLoop .. => by
    unfold stmt
    exact remakes_forLoop (remakes_stmtRows _) (remakes_stmt _)
  | .whileLoop m testLast index _ _ => by
    unfold stmt
    exact remakes_two (remakes_expr _) (remakes_stmt _) (fun _ _ => rfl)
      fun _ _ _ _ _ h => congrArg (Stmt.whileLoop m testLast index .missing) h
  | .labelGroup m _ => by
    unfold stmt
    exact remakes_one (remakes_labelRows _) (fun _ => rfl)
      fun _ _ h => congrArg (Stmt.labelGroup m) h
  | .switch m index _ _ => by
    unfold stmt
    exact remakes_two (remakes_expr _) (remakes_caseRows _) (fun _ _ => rfl)
      fun _ _ _ _ _ h => congrArg (Stmt.switch m index .missing) h
  | .varDecl m none => remakes_none (p := .stmt) rfl
  | .varDecl m (some l) => by
    have h := remakes_one (q := .stmt) (g := fun l => .varDecl m (some l))
      (remakes_vars (f := f) l) (fun _ => rfl)
      fun _ _ h => congrArg (fun l => Stmt.varDecl m (some l)) h
    have hsome : ∀ l' : Option (List VarInit),
        one (fun l => Stmt.varDecl m (some l)) l' = one (.varDecl m) (l'.map some) := by
      intro l'
      cases l' <;> rfl
    rw [stmt]
    simpa only [hsome] using h

theorem remakes_stmtRows : ∀ rows, Remakes f .stmtRows rows (stmtRows f rows)
  | none => remakes_none (p := .stmtRows) rfl
  | some l => by
    unfold stmtRows
    exact remakes_one (remakes_stmts l) (fun _ => rfl) fun _ _ h => congrArg some h

theorem remakes_stmts : ∀ l, Remakes f .stmts l (stmts f l)
  | [] => remakes_none (p := .stmts) rfl
  | s :: rest => by
    unfold stmts
    exact remakes_two (remakes_stmt s) (remakes_stmts rest) (fun _ _ => rfl)
      fun _ _ _ _ hs hrest => List.cons_eq_cons.mpr ⟨hs, hrest⟩

theorem remakes_labelRows : ∀ rows, Remakes f .labelRows rows (labelRows f rows)
  | none => remakes_none (p := .labelRows) rfl
  | some l => by
    unfold labelRows
    exact remakes_one (remakes_labels l) (fun _ => rfl) fun _ _ h => congrArg some h

theorem remakes_labels : ∀ l, Remakes f .labels l (labels f l)
  | [] => remakes_none (p := .labels) rfl
  | .mk name body :: rest => by
    have hlabel : Remakes f .label (.mk name body)
        (stmtRows f body >>= fun b => pure (one (.mk name) b)) :=
      remakes_one (remakes_stmtRows body) (fun _ => rfl) fun _ _ h => congrArg (Label.mk name) h
    have h := remakes_two (r := .labels) (g := List.cons) hlabel (remakes_labels rest)
      (fun ⟨_, _⟩ _ => rfl) fun ⟨_, _⟩ ⟨_, _⟩ _ _ hl hrest => List.cons_eq_cons.mpr ⟨hl, hrest⟩
    unfold labels
    simpa only [bind_assoc, pure_bind] using h

theorem remakes_caseRows : ∀ rows, Remakes f .caseRows rows (caseRows f rows)
  | none => remakes_none (p := .caseRows) rfl
  | some l => by
    unfold caseRows
    exact remakes_one (remakes_cases l) (fun _ => rfl) fun _ _ h => congrArg some h

theorem remakes_cases : ∀ l, Remakes f .cases l (cases f l)
  | [] => remakes_none (p := .cases) rfl
  | .mk values isDefault body :: rest => by
    have hcase := remakes_two (r := .case) (g := fun v b => .mk v isDefault b)
      (remakes_exprRows values) (remakes_stmtRows body) (fun _ _ => rfl)
      fun _ _ _ _ hv hb => (Case.mk.injEq ..).mpr ⟨hv, rfl, hb⟩
    have h := remakes_two (r := .cases) (g := List.cons) hcase (remakes_cases rest)
      (fun ⟨_, _, _⟩ _ => rfl)
      fun ⟨_, _, _⟩ ⟨_, _, _⟩ _ _ hc hrest => List.cons_eq_cons.mpr ⟨hc, hrest⟩
    unfold cases
    simpa only [bind_assoc, pure_bind] using h

end

/-- Mapping a body fails just if the mapper fails on a node that it is shown on the way up. -/
theorem body_eq_error_iff {root : Stmt} {u : σ} {err : ε} :
    body f root u = .error err ↔ Expr.SomeFails f u root.slots err := by
  have hmaps := remakes_stmt (f := f) root u
  have hrun : body f root u = stmt f root u >>= fun x => .ok ((keep root x.1, x.1.isNone), x.2) :=
    rfl
  rw [hrun]
  cases hstmt : stmt f root u with
  | error err' =>
    rw [hstmt] at hmaps
    constructor
    · intro h
      obtain rfl := Except.error.inj h
      exact hmaps
    · intro h
      rw [hmaps.unique h]
      rfl
  | ok x =>
    rw [hstmt] at hmaps
    obtain ⟨images, himages, -⟩ := hmaps
    exact ⟨(nomatch ·), fun h => absurd himages h.not_images⟩

/-- Otherwise it puts the images into the slots and changes nothing else. -/
theorem body_eq_ok {root root' : Stmt} {untouched : Bool} {u u' : σ}
    (h : body f root u = .ok ((root', untouched), u')) :
    root'.hollow = root.hollow ∧ Expr.Images f u root.slots root'.slots u' ∧
      ((∀ e ∈ root.slots, e.Each (Node.LeftBy f)) → untouched = true) := by
  have hmaps := remakes_stmt (f := f) root u
  have hrun : body f root u = stmt f root u >>= fun x => .ok ((keep root x.1, x.1.isNone), x.2) :=
    rfl
  rw [hrun] at h
  cases hstmt : stmt f root u with
  | error err' =>
    rw [hstmt] at h
    cases h
  | ok x =>
    rw [hstmt] at h hmaps
    cases h
    obtain ⟨images, himages, hremade⟩ := hmaps
    obtain rfl := hremade.slots
    exact ⟨hremade.hollow, himages, fun hleft => by rw [hremade.left hleft]; rfl⟩

/-- A tree in which the mapper leaves all nodes is the result itself. -/
theorem body_eq_of_left {root : Stmt} (h : ∀ e ∈ root.slots, e.Each (Node.LeftBy f)) (u : σ) :
    ∃ u', body f root u = .ok ((root, true), u') := by
  cases hbody : body f root u with
  | error err => exact absurd h (body_eq_error_iff.mp hbody).not_left
  | ok x =>
    obtain ⟨⟨root', untouched⟩, u'⟩ := x
    obtain ⟨hrest, himages, huntouched⟩ := body_eq_ok hbody
    obtain rfl := Stmt.eq_of_hollow_of_slots hrest (himages.eq_of_left h)
    exact ⟨u', by rw [huntouched h]⟩

end

/-- Mapping a body puts into every slot the image of what stands there, in the same order and with
the state handed on, and keeps all the rest; it fails just if the mapper fails on a node that it is
shown on the way up; and a tree in which the mapper leaves every node is the result itself. -/
theorem body_maps_bottom_up {σ ε : Type} (f : Mapper (StateT σ (Except ε))) (root : Stmt) (u : σ) :
    (∀ err, body f root u = .error err ↔ Expr.SomeFails f u root.slots err) ∧
    (∀ root' u', (∃ untouched, body f root u = .ok ((root', untouched), u')) ↔
      root'.hollow = root.hollow ∧ Expr.Images f u root.slots root'.slots u') ∧
    (root.Each (Node.LeftBy f) → ∃ u', body f root u = .ok ((root, true), u')) := by
  refine ⟨fun err => body_eq_error_iff, fun root' u' => ⟨?_, ?_⟩, fun h => ?_⟩
  · rintro ⟨untouched, h⟩
    exact ⟨(body_eq_ok h).1, (body_eq_ok h).2.1⟩
  · rintro ⟨hrest, himages⟩
    cases hbody : body f root u with
    | error err => exact absurd himages (body_eq_error_iff.mp hbody).not_images
    | ok x =>
      obtain ⟨⟨root'', untouched⟩, u''⟩ := x
      obtain ⟨hrest', himages', -⟩ := body_eq_ok hbody
      obtain ⟨hslots, rfl⟩ := himages.unique himages'
      obtain rfl := Stmt.eq_of_hollow_of_slots (hrest.trans hrest'.symm) hslots
      exact ⟨untouched, rfl⟩
  · exact body_eq_of_left ((Stmt.each_iff fun _ => trivial).mp h) u

/-- Counts up every literal, and counts them. -/
def countUp : Mapper (StateT Nat (Except Unit))
  | .literal a l => fun n => .ok (some (.literal a { l with int := l.int + 1 }), n + 1)
  | _ => pure none

/-- Both literals of a sum are counted up, the second one below a cast. -/
theorem body_maps_bottom_up_sum :
    let sum (x y : Int64) : Stmt :=
      .ret {} (.binary {} .add (.literal {} { kind := .int, int := x })
        (.cast {} (.literal {} { kind := .int, int := y })))
    Expr.Images countUp 0 (sum 1 2).slots (sum 2 3).slots 2 :=
  (((body_maps_bottom_up countUp _ 0).2.1 _ _).mp ⟨false, rfl⟩).2

end Transform

end WastForge
