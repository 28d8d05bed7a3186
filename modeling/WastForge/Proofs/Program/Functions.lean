import Mathlib
import WastForge.Program.Basic

/-!
# The functions that are worked on

Functions are told apart by their positions. Of the functions of a type, those are worked on that
are no static constructor, and the first one that is.
-/

namespace WastForge

/-- Every element with a property is the first one that has it, just if no two have it. -/
theorem forall_find?_iff {α : Type} {l : List α} (q : α → Bool) (h : l.Nodup) :
    (∀ x ∈ l, q x = true → l.find? q = some x) ↔ (l.filter q).length ≤ 1 := by
  have hfilter : (∀ x ∈ l, q x = true → l.find? q = some x)
      ↔ ∀ x ∈ l.filter q, (l.filter q).head? = some x := by
    simp only [List.mem_filter, and_imp, List.head?_filter]
  rw [hfilter]
  have hnodup := h.filter q
  match l.filter q, hnodup with
  | [], _ => exact iff_of_true (List.forall_mem_nil _) (Nat.zero_le _)
  | [x], _ => exact iff_of_true (List.forall_mem_singleton.mpr rfl) (Nat.le_refl _)
  | x :: y :: rest, hnodup =>
    refine iff_of_false (fun hfirst => ?_) (by simp)
    obtain rfl := Option.some.inj (hfirst y (List.mem_cons_of_mem _ List.mem_cons_self))
    exact (List.nodup_cons.mp hnodup).1 List.mem_cons_self

namespace TypeDecl

variable {d : TypeDecl} {i : Nat} {b b' : Body}

theorem getElem?_bodies (d : TypeDecl) (i j : Nat) :
    (d.bodies i)[j]? = (Rows.items d.funcs)[j]?.map fun f => ⟨⟨i, j⟩, f, f.body⟩ :=
  List.getElem?_mapIdx

theorem mem_bodies : b ∈ d.bodies i ↔
    ∃ j f, (Rows.items d.funcs)[j]? = some f ∧ b = ⟨⟨i, j⟩, f, f.body⟩ := by
  rw [List.mem_iff_getElem?]
  simp only [getElem?_bodies, Option.map_eq_some_iff]
  exact ⟨fun ⟨j, f, hf, hb⟩ => ⟨j, f, hf, hb.symm⟩, fun ⟨j, f, hf, hb⟩ => ⟨j, f, hf, hb.symm⟩⟩

theorem map_func_bodies (d : TypeDecl) (i : Nat) :
    (d.bodies i).map (·.func) = Rows.items d.funcs := by
  refine List.ext_getElem? fun j => ?_
  rw [List.getElem?_map, getElem?_bodies, Option.map_map]
  exact congrFun Option.map_id _

theorem decl_of_mem_bodies (h : b ∈ d.bodies i) : b.id.decl = i := by
  obtain ⟨j, f, -, rfl⟩ := mem_bodies.mp h
  rfl

/-- The position of a function says which one it is. -/
theorem eq_of_id_eq (hb : b ∈ d.bodies i) (hb' : b' ∈ d.bodies i) (h : b.id = b'.id) : b = b' := by
  obtain ⟨j, f, hf, rfl⟩ := mem_bodies.mp hb
  obtain ⟨j', f', hf', rfl⟩ := mem_bodies.mp hb'
  obtain ⟨-, rfl⟩ := (FuncId.mk.injEq ..).mp h
  obtain rfl := Option.some.inj (hf.symm.trans hf')
  rfl

theorem nodup_ids (d : TypeDecl) (i : Nat) : ((d.bodies i).map (·.id)).Nodup := by
  rw [List.Nodup, List.pairwise_iff_getElem]
  intro j k hj hk hjk
  simpa [bodies] using hjk.ne

/-- The functions of a type that are worked on. -/
def worked (d : TypeDecl) (i : Nat) : List Body :=
  (d.staticCtor? i).toList ++ (d.bodies i).filter (!·.func.isStaticCtor)

theorem mem_worked : b ∈ d.worked i ↔
    b ∈ d.bodies i ∧ (b.func.isStaticCtor = true → d.staticCtor? i = some b) := by
  rw [worked, List.mem_append, Option.mem_toList, List.mem_filter, Bool.not_eq_true']
  constructor
  · rintro (h | ⟨hb, hno⟩)
    · exact ⟨List.mem_of_find?_eq_some h, fun _ => h⟩
    · exact ⟨hb, fun h => absurd h (by rw [hno]; exact Bool.false_ne_true)⟩
  · rintro ⟨hb, hfirst⟩
    cases hctor : b.func.isStaticCtor with
    | true => exact .inl (hfirst hctor)
    | false => exact .inr ⟨hb, rfl⟩

theorem nodup_worked (d : TypeDecl) (i : Nat) : ((d.worked i).map (·.id)).Nodup := by
  rw [worked, List.map_append, List.nodup_append]
  refine ⟨?_, (d.nodup_ids i).sublist (List.filter_sublist.map _), ?_⟩
  · cases d.staticCtor? i <;> simp
  · rintro id hid id' hid' rfl
    obtain ⟨b, hb, rfl⟩ := List.mem_map.mp hid
    obtain ⟨b', hb', hsame⟩ := List.mem_map.mp hid'
    obtain ⟨hmem, hno⟩ := List.mem_filter.mp hb'
    have hfind := Option.mem_toList.mp hb
    obtain rfl := eq_of_id_eq hmem (List.mem_of_find?_eq_some hfind) hsame
    have hctor := List.find?_some (p := fun b : Body => b.func.isStaticCtor) hfind
    rw [hctor] at hno
    cases hno

/-- Every function of a type is worked on just if there is no second static constructor. -/
theorem forall_mem_worked_iff (d : TypeDecl) (i : Nat) : (∀ b ∈ d.bodies i, b ∈ d.worked i)
    ↔ ((Rows.items d.funcs).filter (·.isStaticCtor)).length ≤ 1 := by
  have hctors : ((Rows.items d.funcs).filter (·.isStaticCtor)).length
      = ((d.bodies i).filter (·.func.isStaticCtor)).length := by
    rw [← map_func_bodies d i, List.filter_map, List.length_map]
    rfl
  rw [hctors, ← forall_find?_iff _ (d.nodup_ids i).of_map]
  exact forall₂_congr fun b hb => by rw [mem_worked, and_iff_right hb, staticCtor?]

end TypeDecl

namespace Program

variable {p : Program} {b b' : Body}

/-- All functions in the order in which they are declared. -/
def functions (p : Program) : List Body := p.indexedDecls.flatMap fun (i, d) => d.bodies i

theorem bodies_eq (p : Program) : p.bodies = p.indexedDecls.flatMap fun (i, d) => d.worked i := rfl

theorem mem_indexedDecls {i : Nat} {d : TypeDecl} :
    (i, d) ∈ p.indexedDecls ↔ (Rows.items p.decls)[i]? = some d := by
  rw [indexedDecls, List.mem_iff_getElem?]
  simp only [List.getElem?_mapIdx, Option.map_eq_some_iff, Prod.mk.injEq]
  constructor
  · rintro ⟨_, _, hd, rfl, rfl⟩
    exact hd
  · intro hd
    exact ⟨i, d, hd, rfl, rfl⟩

theorem mem_functions : b ∈ p.functions ↔ ∃ i d, (i, d) ∈ p.indexedDecls ∧ b ∈ d.bodies i := by
  simp only [functions, List.mem_flatMap, Prod.exists]

theorem mem_bodies : b ∈ p.bodies ↔ ∃ i d, (i, d) ∈ p.indexedDecls ∧ b ∈ d.worked i := by
  rw [bodies_eq]
  simp only [List.mem_flatMap, Prod.exists]

theorem mem_functions_of_mem_bodies (h : b ∈ p.bodies) : b ∈ p.functions := by
  obtain ⟨i, d, hd, hb⟩ := mem_bodies.mp h
  exact mem_functions.mpr ⟨i, d, hd, (TypeDecl.mem_worked.mp hb).1⟩

/-- A function belongs to one type only. -/
theorem decl_unique {i i' : Nat} {d d' : TypeDecl} (hd : (i, d) ∈ p.indexedDecls)
    (hb : b ∈ d.bodies i) (hd' : (i', d') ∈ p.indexedDecls) (hb' : b' ∈ d'.bodies i')
    (h : b.id = b'.id) : i = i' ∧ d = d' := by
  obtain rfl : i = i' := by
    rw [← TypeDecl.decl_of_mem_bodies hb, h, TypeDecl.decl_of_mem_bodies hb']
  exact ⟨rfl, Option.some.inj ((mem_indexedDecls.mp hd).symm.trans (mem_indexedDecls.mp hd'))⟩

theorem eq_of_id_eq (hb : b ∈ p.functions) (hb' : b' ∈ p.functions) (h : b.id = b'.id) :
    b = b' := by
  obtain ⟨i, d, hd, hb⟩ := mem_functions.mp hb
  obtain ⟨i', d', hd', hb'⟩ := mem_functions.mp hb'
  obtain ⟨rfl, rfl⟩ := decl_unique hd hb hd' hb' h
  exact TypeDecl.eq_of_id_eq hb hb' h

theorem mem_bodies_iff_mem_worked {i : Nat} {d : TypeDecl} (hd : (i, d) ∈ p.indexedDecls)
    (hb : b ∈ d.bodies i) : b ∈ p.bodies ↔ b ∈ d.worked i := by
  refine ⟨fun h => ?_, fun h => mem_bodies.mpr ⟨i, d, hd, h⟩⟩
  obtain ⟨i', d', hd', hworked⟩ := mem_bodies.mp h
  obtain ⟨rfl, rfl⟩ := decl_unique hd hb hd' (TypeDecl.mem_worked.mp hworked).1 rfl
  exact hworked

/-- Lists of positions, one for each type, have no position twice if none of them does. -/
theorem nodup_ids_of_decls {l : Nat → TypeDecl → List Body}
    (hnodup : ∀ i d, ((l i d).map (·.id)).Nodup)
    (hsub : ∀ i d, ∀ b ∈ l i d, b ∈ d.bodies i) :
    ((p.indexedDecls.flatMap fun (i, d) => l i d).map (·.id)).Nodup := by
  rw [List.map_flatMap, List.nodup_flatMap]
  refine ⟨fun x _ => hnodup x.1 x.2, ?_⟩
  have hdecls : p.indexedDecls.Pairwise fun x y => x.1 ≠ y.1 := by
    rw [indexedDecls, List.pairwise_iff_getElem]
    intro j k hj hk hjk
    simpa using hjk.ne
  refine hdecls.imp fun {x y} hne => ?_
  intro id hx hy
  obtain ⟨b, hb, rfl⟩ := List.mem_map.mp hx
  obtain ⟨b', hb', hsame⟩ := List.mem_map.mp hy
  apply hne
  rw [← TypeDecl.decl_of_mem_bodies (hsub _ _ b hb), ← hsame,
    TypeDecl.decl_of_mem_bodies (hsub _ _ b' hb')]

theorem nodup_ids_functions (p : Program) : (p.functions.map (·.id)).Nodup :=
  nodup_ids_of_decls (l := fun i d => d.bodies i) (fun i d => d.nodup_ids i) fun _ _ _ h => h

/-- No function is worked on twice. -/
theorem nodup_ids_bodies (p : Program) : (p.bodies.map (·.id)).Nodup :=
  nodup_ids_of_decls (l := fun i d => d.worked i) (fun i d => d.nodup_worked i)
    fun _ _ _ h => (TypeDecl.mem_worked.mp h).1

/-- A function is worked on once if it is worked on at all. -/
theorem count_ids_bodies (hb : b ∈ p.functions) :
    (p.bodies.map (·.id)).count b.id = 1 ↔ b ∈ p.bodies := by
  have hmem : b.id ∈ p.bodies.map (·.id) ↔ b ∈ p.bodies := by
    refine ⟨fun h => ?_, List.mem_map_of_mem⟩
    obtain ⟨b', hb', hsame⟩ := List.mem_map.mp h
    rwa [← eq_of_id_eq (mem_functions_of_mem_bodies hb') hb hsame]
  rw [p.nodup_ids_bodies.count, ← hmem]
  split
  · exact iff_of_true rfl ‹_›
  · exact iff_of_false Nat.zero_ne_one ‹_›

/-- No type has more than one static constructor. -/
def SingleCtors (p : Program) : Prop :=
  ∀ d ∈ Rows.items p.decls, ((Rows.items d.funcs).filter (·.isStaticCtor)).length ≤ 1

/-- Every function is worked on just if no type has a second static constructor. -/
theorem forall_mem_bodies_iff : (∀ b ∈ p.functions, b ∈ p.bodies) ↔ p.SingleCtors := by
  constructor
  · intro h d hd
    obtain ⟨i, hi⟩ := List.mem_iff_getElem?.mp hd
    have hd := mem_indexedDecls.mpr hi
    refine (d.forall_mem_worked_iff i).mp fun b hb => ?_
    exact (mem_bodies_iff_mem_worked hd hb).mp (h b (mem_functions.mpr ⟨i, d, hd, hb⟩))
  · intro h b hb
    obtain ⟨i, d, hd, hb⟩ := mem_functions.mp hb
    have hctors := h d (List.mem_of_getElem? (mem_indexedDecls.mp hd))
    exact mem_bodies.mpr ⟨i, d, hd, (d.forall_mem_worked_iff i).mpr hctors b hb⟩

/-- Without a second static constructor in a type, the functions are only put in another order. -/
theorem perm_functions (h : p.SingleCtors) : p.bodies.Perm p.functions :=
  (List.perm_ext_iff_of_nodup p.nodup_ids_bodies.of_map p.nodup_ids_functions.of_map).mpr
    fun b => ⟨mem_functions_of_mem_bodies, forall_mem_bodies_iff.mpr h b⟩

/-- The body of a function after `bodies` were put in: the one from there, or its own. -/
def rebuilt (bodies : List Body) (b : Body) : Body :=
  let f : Func :=
    match bodies.find? (·.id = b.id) with
    | some b' => { b.func with body := b'.root }
    | none => b.func
  ⟨b.id, f, f.body⟩

/-- A position finds the body that has it, if no other one does. -/
theorem find?_id {bodies : List Body} (h : (bodies.map (·.id)).Nodup) (hb : b ∈ bodies) :
    bodies.find? (·.id = b.id) = some b := by
  induction bodies with
  | nil => cases hb
  | cons x rest ih =>
    obtain ⟨hx, hrest⟩ := List.nodup_cons.mp h
    rcases List.mem_cons.mp hb with rfl | hb
    · exact List.find?_cons_of_pos (decide_eq_true rfl)
    · have hne : x.id ≠ b.id := fun heq => hx (List.mem_map.mpr ⟨b, hb, heq.symm⟩)
      rw [List.find?_cons_of_neg (by simpa using hne), ih hrest hb]

theorem rebuilt_isStaticCtor (bodies : List Body) (b : Body) :
    (rebuilt bodies b).func.isStaticCtor = b.func.isStaticCtor := by
  unfold rebuilt
  cases bodies.find? (·.id = b.id) <;> rfl

/-- The functions that are worked on are the same ones when bodies were put in. -/
theorem bodies_withBodies (p : Program) (bodies : List Body) :
    (p.withBodies bodies).bodies = p.bodies.map (rebuilt bodies) := by
  let put (i : Nat) (d : TypeDecl) : TypeDecl :=
    { d with funcs := d.funcs.map fun fs => fs.mapIdx fun j f =>
        match bodies.find? (·.id = ⟨i, j⟩) with
        | some b => { f with body := b.root }
        | none => f }
  have hbodies : ∀ i d, (put i d).bodies i = (d.bodies i).map (rebuilt bodies) := by
    intro i d
    refine List.ext_getElem? fun j => ?_
    rw [List.getElem?_map, TypeDecl.getElem?_bodies, TypeDecl.getElem?_bodies]
    have hfuncs : Rows.items (put i d).funcs = (Rows.items d.funcs).mapIdx fun j f =>
        match bodies.find? (·.id = ⟨i, j⟩) with
        | some b => { f with body := b.root }
        | none => f := by
      show Rows.items (d.funcs.map _) = _
      cases d.funcs <;> rfl
    rw [hfuncs, List.getElem?_mapIdx, Option.map_map, Option.map_map]
    rfl
  have hworked : ∀ i d, (put i d).worked i = (d.worked i).map (rebuilt bodies) := by
    intro i d
    have hsame : (fun b : Body => b.func.isStaticCtor) ∘ rebuilt bodies
        = fun b => b.func.isStaticCtor := funext (rebuilt_isStaticCtor bodies)
    unfold TypeDecl.worked TypeDecl.staticCtor?
    rw [hbodies, List.map_append, List.find?_map, List.filter_map, hsame]
    congr 1
    · cases (d.bodies i).find? _ <;> rfl
    · refine congrArg _ (List.filter_congr fun b _ => ?_)
      exact congrArg _ (rebuilt_isStaticCtor bodies b)
  have hdecls : (p.withBodies bodies).indexedDecls
      = p.indexedDecls.map fun x => (x.1, put x.1 x.2) := by
    refine List.ext_getElem? fun i => ?_
    have hitems : Rows.items (p.withBodies bodies).decls = (Rows.items p.decls).mapIdx put := by
      show Rows.items (p.decls.map _) = _
      cases p.decls <;> rfl
    unfold indexedDecls
    rw [hitems, List.getElem?_mapIdx, List.getElem?_mapIdx, List.getElem?_map,
      List.getElem?_mapIdx, Option.map_map, Option.map_map]
    rfl
  rw [bodies_eq, bodies_eq, hdecls, List.flatMap_map, List.map_flatMap]
  exact congrArg (List.flatMap · p.indexedDecls) (funext fun x => hworked x.1 x.2)

end Program

end WastForge
