import WastForge.Emit.Stmt

/-!
# The table of labels

The table of the labels of a body has every label at the place where it stands: the number of its
group and its position in the group.
-/

namespace WastForge.Emit.LabelTable

/-- The labels of the label groups among nodes. -/
def groupsOf : List Node → List (List Label)
  | [] => []
  | .stmt (.labelGroup _ rows) :: rest => Rows.items rows :: groupsOf rest
  | _ :: rest => groupsOf rest

/-- The name of the label at a place of groups. -/
def nameAt (groups : List (List Label)) (p : LabelPlace) : Option Bytes :=
  ((groups[p.group]?).bind (·[p.index]?)).map Label.name

/-- The table has exactly the labels of these groups. -/
structure Lists (t : LabelTable) (groups : List (List Label)) : Prop where
  length : t.groups = groups.length
  place : ∀ name p, t.place? name = some p ↔ nameAt groups p = some name

theorem nameAt_snoc (groups : List (List Label)) (labels : List Label) (p : LabelPlace) :
    nameAt (groups ++ [labels]) p
      = if p.group < groups.length then nameAt groups p
        else if p.group = groups.length then (labels[p.index]?).map Label.name else none := by
  unfold nameAt
  by_cases hlt : p.group < groups.length
  · rw [if_pos hlt, List.getElem?_append_left hlt]
  · rw [if_neg hlt]
    by_cases heq : p.group = groups.length
    · rw [if_pos heq, heq, List.getElem?_concat_length]
      rfl
    · rw [if_neg heq, List.getElem?_eq_none (by simp; omega)]
      rfl

/-- Adding a label behind the last label of the last group. -/
theorem place_snoc {t : LabelTable} {groups : List (List Label)} {labels : List Label} {l : Label}
    (h : ∀ name p, t.place? name = some p ↔ nameAt (groups ++ [labels]) p = some name)
    (hnew : t.place? l.name = none) (name : Bytes) (p : LabelPlace) :
    ({ t with places := t.places ++ [(l.name, ⟨groups.length, labels.length⟩)] }
        : LabelTable).place? name = some p
      ↔ nameAt (groups ++ [labels ++ [l]]) p = some name := by
  have hlookup : ({ t with places := t.places ++ [(l.name, ⟨groups.length, labels.length⟩)] }
      : LabelTable).place? name
      = (t.place? name).or
        (if name = l.name then some ⟨groups.length, labels.length⟩ else none) := by
    unfold place?
    rw [List.lookup_append]
    congr 1
    by_cases hname : name = l.name
    · simp [hname]
    · simp [hname]
  -- the place of the new label is that of no old one
  have hold : nameAt (groups ++ [labels ++ [l]]) p
      = if p = ⟨groups.length, labels.length⟩ then some l.name
        else nameAt (groups ++ [labels]) p := by
    rw [nameAt_snoc, nameAt_snoc]
    obtain ⟨g, k⟩ := p
    simp only [LabelPlace.mk.injEq]
    by_cases hlt : g < groups.length
    · rw [if_pos hlt, if_pos hlt, if_neg (by omega)]
    · rw [if_neg hlt, if_neg hlt]
      by_cases hg : g = groups.length
      · by_cases hk : k = labels.length
        · simp [hg, hk]
        · have hget : (labels ++ [l])[k]? = labels[k]? := by
            by_cases hklt : k < labels.length
            · rw [List.getElem?_append_left hklt]
            · rw [List.getElem?_eq_none (by simp; omega), List.getElem?_eq_none (by omega)]
          simp [hg, hk, hget]
      · simp [hg]
  rw [hlookup, hold]
  by_cases hname : name = l.name
  · subst hname
    rw [hnew]
    simp only [if_true, Option.none_or, Option.some.injEq]
    by_cases hp : p = ⟨groups.length, labels.length⟩
    · simp [hp]
    · have hnone : nameAt (groups ++ [labels]) p ≠ some l.name := by
        intro hat
        rw [(h _ _).mpr hat] at hnew
        cases hnew
      simp [hp, Ne.symm hp, hnone]
  · rw [if_neg hname, Option.or_none, h]
    by_cases hp : p = ⟨groups.length, labels.length⟩
    · have hnone : nameAt (groups ++ [labels]) p = none := by
        rw [nameAt_snoc, hp]
        simp
      rw [hnone]
      simp [hp, Ne.symm hname]
    · simp [hp]

theorem lists_addLabels {span : Span} {groups : List (List Label)} :
    ∀ {rest labels : List Label} {t t' : LabelTable},
      Lists t (groups ++ [labels]) →
      addLabels span groups.length labels.length rest t = .ok t' →
      Lists t' (groups ++ [labels ++ rest])
  | [], labels, t, t', h, ht => by
    cases ht
    rwa [List.append_nil]
  | l :: rest, labels, t, t', h, ht => by
    unfold addLabels at ht
    cases hplace : t.place? l.name with
    | some earlier =>
      rw [hplace] at ht
      cases ht
    | none =>
      rw [hplace] at ht
      have hstep : Lists { t with places := t.places ++ [(l.name, ⟨groups.length, labels.length⟩)] }
          (groups ++ [labels ++ [l]]) := by
        refine ⟨?_, place_snoc h.place hplace⟩
        rw [h.length, List.length_append, List.length_append]
        rfl
      have hadd : addLabels span groups.length (labels ++ [l]).length rest
          { t with places := t.places ++ [(l.name, ⟨groups.length, labels.length⟩)] } = .ok t' := by
        rw [List.length_append]
        exact ht
      have hrest := lists_addLabels hstep hadd
      rwa [List.append_assoc] at hrest

theorem nameAt_nil_group (groups : List (List Label)) (p : LabelPlace) :
    nameAt (groups ++ [[]]) p = nameAt groups p := by
  rw [nameAt_snoc]
  split
  · rfl
  · have hnone : nameAt groups p = none := by
      unfold nameAt
      rw [List.getElem?_eq_none (by omega)]
      rfl
    rw [hnone]
    simp

theorem lists_addNode {t t' : LabelTable} {groups : List (List Label)} {n : Node}
    (h : Lists t groups) (ht : addNode t n = .ok t') : Lists t' (groups ++ groupsOf [n]) := by
  have hother : groupsOf [n] = [] → addNode t n = .ok t → Lists t' (groups ++ groupsOf [n]) := by
    intro hnil hsame
    rw [hsame] at ht
    cases ht
    rwa [hnil, List.append_nil]
  cases n with
  | expr e => exact hother rfl rfl
  | stmt s =>
    cases s with
    | labelGroup m rows =>
      have hstart : Lists
          { t with groups := t.groups + 1, groupOf := (m.id, t.groups) :: t.groupOf }
          (groups ++ [[]]) := by
        refine ⟨?_, fun name p => ?_⟩
        · rw [List.length_append, h.length]
          rfl
        · rw [nameAt_nil_group]
          exact h.place name p
      have hadd : addLabels m.span groups.length 0 (Rows.items rows)
          { t with groups := t.groups + 1, groupOf := (m.id, t.groups) :: t.groupOf } = .ok t' := by
        rw [← h.length]
        exact ht
      exact lists_addLabels hstart hadd
    | _ => exact hother rfl rfl

theorem groupsOf_cons (n : Node) (rest : List Node) :
    groupsOf (n :: rest) = groupsOf [n] ++ groupsOf rest := by
  cases n with
  | expr e => rfl
  | stmt s => cases s <;> rfl

theorem lists_foldlM {nodes : List Node} {t t' : LabelTable} {groups : List (List Label)}
    (h : Lists t groups) (ht : nodes.foldlM addNode t = .ok t') :
    Lists t' (groups ++ groupsOf nodes) := by
  induction nodes generalizing t groups with
  | nil =>
    cases ht
    rwa [groupsOf, List.append_nil]
  | cons n rest ih =>
    rw [List.foldlM_cons] at ht
    cases hn : addNode t n with
    | error e =>
      rw [hn] at ht
      cases ht
    | ok t₁ =>
      rw [hn] at ht
      rw [groupsOf_cons, ← List.append_assoc]
      exact ih (lists_addNode h hn) ht

/-- The table of a body has its labels. -/
theorem lists_ofBody {root : Stmt} {t : LabelTable} (h : ofBody root = .ok t) :
    Lists t (groupsOf (Node.all root)) := by
  have hempty : Lists {} [] := ⟨rfl, fun name p => by simp [place?, nameAt]⟩
  exact lists_foldlM hempty h

theorem groupOf_of_addLabels {span : Span} {group index : Nat} {labels : List Label}
    {t t' : LabelTable} (h : addLabels span group index labels t = .ok t') :
    t'.groups = t.groups ∧ t'.groupOf = t.groupOf := by
  induction labels generalizing index t with
  | nil =>
    cases h
    exact ⟨rfl, rfl⟩
  | cons l rest ih =>
    unfold addLabels at h
    split at h
    · cases h
    · have hrest := ih h
      exact hrest

/-- The numbers of groups are given out one after the other. -/
theorem group_lt_of_addNode {t t' : LabelTable} {n : Node} (h : ∀ x ∈ t.groupOf, x.2 < t.groups)
    (ht : addNode t n = .ok t') : ∀ x ∈ t'.groupOf, x.2 < t'.groups := by
  have hother : addNode t n = .ok t → ∀ x ∈ t'.groupOf, x.2 < t'.groups := by
    intro hsame
    rw [hsame] at ht
    cases ht
    exact h
  cases n with
  | expr e => exact hother rfl
  | stmt s =>
    cases s with
    | labelGroup m rows =>
      obtain ⟨hgroups, hgroupOf⟩ := groupOf_of_addLabels ht
      rw [hgroups, hgroupOf, List.forall_mem_cons]
      exact ⟨Nat.lt_succ_self _, fun x hx => Nat.lt_succ_of_lt (h x hx)⟩
    | _ => exact hother rfl

theorem group_lt_of_foldlM {nodes : List Node} {t t' : LabelTable}
    (h : ∀ x ∈ t.groupOf, x.2 < t.groups) (ht : nodes.foldlM addNode t = .ok t') :
    ∀ x ∈ t'.groupOf, x.2 < t'.groups := by
  induction nodes generalizing t with
  | nil =>
    cases ht
    exact h
  | cons n rest ih =>
    rw [List.foldlM_cons] at ht
    cases hn : addNode t n with
    | error e =>
      rw [hn] at ht
      cases ht
    | ok t₁ =>
      rw [hn] at ht
      exact ih (group_lt_of_addNode h hn) ht

/-- The number of a group is one of the numbers of groups. -/
theorem lt_of_group? {root : Stmt} {t : LabelTable} (h : ofBody root = .ok t) {id : UInt32}
    {g : Nat} (hg : t.group? id = some g) : g < t.groups := by
  obtain ⟨l, r, hsplit, -⟩ := List.lookup_eq_some_iff.mp hg
  refine group_lt_of_foldlM (t := {}) (List.forall_mem_nil _) h (id, g) ?_
  rw [hsplit]
  exact List.mem_append_right _ List.mem_cons_self

theorem mem_groupsOf {m : Mark} {rows : Rows Label} {nodes : List Node}
    (h : Node.stmt (.labelGroup m rows) ∈ nodes) : Rows.items rows ∈ groupsOf nodes := by
  induction nodes with
  | nil => cases h
  | cons n rest ih =>
    rw [groupsOf_cons]
    rcases List.mem_cons.mp h with rfl | h
    · exact List.mem_append_left _ (List.mem_singleton.mpr rfl)
    · exact List.mem_append_right _ (ih h)

theorem exists_of_mem_groupsOf {labels : List Label} {nodes : List Node}
    (h : labels ∈ groupsOf nodes) :
    ∃ m rows, Node.stmt (.labelGroup m rows) ∈ nodes ∧ Rows.items rows = labels := by
  induction nodes with
  | nil => cases h
  | cons n rest ih =>
    rw [groupsOf_cons] at h
    rcases List.mem_append.mp h with h | h
    · unfold groupsOf at h
      split at h
      · cases h
      · rename_i m rows _ heq
        obtain ⟨rfl, rfl⟩ := List.cons.inj heq
        rcases List.mem_cons.mp h with rfl | h
        · exact ⟨m, rows, List.mem_cons_self, rfl⟩
        · cases h
      · rename_i heq
        obtain ⟨rfl, rfl⟩ := List.cons.inj heq
        cases h
    · obtain ⟨m, rows, hmem, hrows⟩ := ih h
      exact ⟨m, rows, List.mem_cons_of_mem _ hmem, hrows⟩

/-- The labels of a group have the number `g` in the table, and no others have. -/
structure Numbers (t : LabelTable) (g : Nat) (labels : List Label) : Prop where
  lt : g < t.groups
  place : ∀ name k, t.place? name = some ⟨g, k⟩ ↔ (labels[k]?).map Label.name = some name

/-- A label group of a body whose labels are where the table has them has its number alone. -/
theorem numbers_of_checkLabels {root : Stmt} {t : LabelTable} {m : Mark} {rows : Rows Label}
    {g : Nat} (h : ofBody root = .ok t)
    (hmem : Node.stmt (.labelGroup m rows) ∈ Node.all root) (hne : Rows.items rows ≠ [])
    (hcheck : checkLabels t m.span g 0 (Rows.items rows) = .ok ()) :
    Numbers t g (Rows.items rows) := by
  have hlists := lists_ofBody h
  obtain ⟨g', hg'⟩ := List.mem_iff_getElem?.mp (mem_groupsOf hmem)
  have hgroup : g' = g := by
    cases hrows : Rows.items rows with
    | nil => exact absurd hrows hne
    | cons l rest =>
      have hplace : t.place? l.name = some ⟨g', 0⟩ := by
        rw [hlists.place, nameAt]
        simp only [hg', hrows]
        rfl
      rw [hrows] at hcheck
      unfold checkLabels at hcheck
      simp only [hplace, Option.getD_some] at hcheck
      by_cases hsame : (⟨g', 0⟩ : LabelPlace) = ⟨g, 0⟩
      · exact (LabelPlace.mk.inj hsame).1
      · rw [if_neg hsame] at hcheck
        cases hcheck
  subst hgroup
  refine ⟨?_, fun name k => ?_⟩
  · rw [hlists.length]
    exact (List.getElem?_eq_some_iff.mp hg').1
  · rw [hlists.place, nameAt]
    simp only [hg']
    rfl

end WastForge.Emit.LabelTable
