import WastForge.Source

/-!
# Clean paths stay as they are

A path that was cleaned once is not changed when it is cleaned again, and is not longer than the
path it was made from. So the paths of a file set, added to an empty one, give them back.
-/

namespace WastForge

/-! ## Splitting and joining -/

namespace Bytes

variable {sep : UInt8}

theorem splitOn_ne_nil (s : Bytes) : splitOn sep s ≠ [] := by
  cases s with
  | nil => exact List.cons_ne_nil _ _
  | cons b rest =>
    rw [splitOn]
    split
    · exact List.cons_ne_nil _ _
    · split <;> exact List.cons_ne_nil _ _

/-- A separator ends a part. -/
theorem splitOn_sep (s : Bytes) : splitOn sep (sep :: s) = [] :: splitOn sep s := by
  rw [splitOn]
  cases h : splitOn sep s with
  | nil => exact absurd h (splitOn_ne_nil s)
  | cons part parts => simp

/-- A byte that is no separator belongs to the first part. -/
theorem splitOn_cons {b : UInt8} (hb : b ≠ sep) (s : Bytes) :
    splitOn sep (b :: s) = (splitOn sep s).modifyHead (b :: ·) := by
  rw [splitOn]
  cases h : splitOn sep s with
  | nil => exact absurd h (splitOn_ne_nil s)
  | cons part parts => simp [hb]

/-- What stands in front of the first separator belongs to the first part. -/
theorem splitOn_append {a : Bytes} (ha : sep ∉ a) (s : Bytes) :
    splitOn sep (a ++ s) = (splitOn sep s).modifyHead (a ++ ·) := by
  induction a with
  | nil => exact (congrFun List.modifyHead_id _).symm
  | cons b rest ih =>
    rw [List.mem_cons, not_or] at ha
    rw [List.cons_append, splitOn_cons (Ne.symm ha.1), ih ha.2, List.modifyHead_modifyHead]
    rfl

/-- Parts without separators are found again. -/
theorem splitOn_join {cs : List Bytes} (hcs : cs ≠ []) (h : ∀ c ∈ cs, sep ∉ c) :
    splitOn sep (join [sep] cs) = cs := by
  induction cs with
  | nil => exact absurd rfl hcs
  | cons c rest ih =>
    have hc := h c List.mem_cons_self
    cases rest with
    | nil =>
      have happ := splitOn_append hc []
      simpa [join, splitOn] using happ
    | cons d rest =>
      have hrest := ih (List.cons_ne_nil _ _) fun x hx => h x (List.mem_cons_of_mem c hx)
      have hjoin : join [sep] (c :: d :: rest) = c ++ (sep :: join [sep] (d :: rest)) := by
        simp [join, List.intercalate_cons_cons]
      rw [hjoin, splitOn_append hc, splitOn_sep, hrest]
      simp

theorem sep_not_mem_splitOn (s : Bytes) : ∀ c ∈ splitOn sep s, sep ∉ c := by
  induction s with
  | nil => simp [splitOn]
  | cons b rest ih =>
    by_cases hb : b = sep
    · subst hb
      rw [splitOn_sep]
      simpa using ih
    · rw [splitOn_cons hb]
      cases h : splitOn sep rest with
      | nil => simp
      | cons part parts =>
        rw [h] at ih
        simp only [List.modifyHead_cons, List.forall_mem_cons] at ih ⊢
        exact ⟨by simp [Ne.symm hb, ih.1], ih.2⟩

/-- The bytes of parts, with one more for each part. -/
def weight : List Bytes → Nat
  | [] => 0
  | c :: rest => c.length + 1 + weight rest

theorem weight_append (cs ds : List Bytes) : weight (cs ++ ds) = weight cs + weight ds := by
  induction cs with
  | nil => exact (Nat.zero_add _).symm
  | cons c rest ih => simp only [List.cons_append, weight, ih, Nat.add_assoc]

theorem weight_reverse (cs : List Bytes) : weight cs.reverse = weight cs := by
  induction cs with
  | nil => rfl
  | cons c rest ih =>
    rw [List.reverse_cons, weight_append, ih, Nat.add_comm]
    rfl

theorem weight_splitOn (sep : UInt8) (s : Bytes) : weight (splitOn sep s) = s.length + 1 := by
  induction s with
  | nil => rfl
  | cons b rest ih =>
    by_cases hb : b = sep
    · subst hb
      rw [splitOn_sep]
      simp only [weight, List.length_cons, List.length_nil] at ih ⊢
      omega
    · rw [splitOn_cons hb]
      cases h : splitOn sep rest with
      | nil => exact absurd h (splitOn_ne_nil rest)
      | cons part parts =>
        rw [h] at ih
        simp only [weight, List.modifyHead_cons, List.length_cons] at ih ⊢
        omega

theorem length_join (sep : UInt8) {cs : List Bytes} (hcs : cs ≠ []) :
    (join [sep] cs).length + 1 = weight cs := by
  induction cs with
  | nil => exact absurd rfl hcs
  | cons c rest ih =>
    cases rest with
    | nil => simp [join, weight]
    | cons d rest =>
      have hrest := ih (List.cons_ne_nil _ _)
      simp only [join, List.intercalate_cons_cons, weight, List.length_append, List.length_cons,
        List.length_nil] at hrest ⊢
      omega

end Bytes

namespace Path

/-! ## Cleaning -/

/-- Components, the last one first, that cleaning leaves alone: none is empty, holds a separator
or is `.`, and `..` stands only behind others of its kind, and not below the root. -/
def Settled (rooted : Bool) : List Bytes → Prop
  | [] => True
  | c :: rest =>
    (c ≠ [] ∧ slash ∉ c ∧ c ≠ ".") ∧ (c = ".." → rooted = false ∧ ∀ d ∈ rest, d = "..")
      ∧ Settled rooted rest

theorem Settled.mem {rooted : Bool} {acc : List Bytes} (h : Settled rooted acc) :
    ∀ c ∈ acc, c ≠ [] ∧ slash ∉ c := by
  induction acc with
  | nil => exact fun _ hc => absurd hc List.not_mem_nil
  | cons c rest ih =>
    intro d hd
    rcases List.mem_cons.mp hd with rfl | hd
    · exact ⟨h.1.1, h.1.2.1⟩
    · exact ih h.2.2 d hd

/-- One more component leaves the components settled. -/
theorem settled_step {rooted : Bool} {acc : List Bytes} {c : Bytes} (h : Settled rooted acc)
    (hc : c ≠ [] ∧ slash ∉ c) : Settled rooted (step rooted acc c) := by
  unfold step
  by_cases hdot : c = "."
  · rw [if_pos (beq_iff_eq.mpr hdot)]
    exact h
  rw [if_neg (by simpa using hdot)]
  by_cases hup : c = ".."
  · rw [if_pos (beq_iff_eq.mpr hup)]
    cases acc with
    | nil =>
      cases rooted with
      | true => exact h
      | false => exact ⟨⟨hc.1, hc.2, hdot⟩, fun _ => ⟨rfl, by simp⟩, trivial⟩
    | cons d rest =>
      by_cases hd : d = ".."
      · have hrest := h.2.1 hd
        simp only [hd, beq_self_eq_true, if_true] at *
        refine ⟨⟨hc.1, hc.2, hdot⟩, fun _ => ⟨hrest.1, ?_⟩, h⟩
        simpa using hrest.2
      · simp only [beq_eq_false_iff_ne.mpr hd, Bool.false_eq_true, if_false]
        exact h.2.2
  · rw [if_neg (by simpa using hup)]
    exact ⟨⟨hc.1, hc.2, hdot⟩, fun h => absurd h hup, h⟩

theorem components_mem (p : Bytes) : ∀ c ∈ components p, c ≠ [] ∧ slash ∉ c := by
  intro c hc
  obtain ⟨hmem, hne⟩ := List.mem_filter.mp hc
  exact ⟨by simpa using hne, Bytes.sep_not_mem_splitOn p c hmem⟩

theorem settled_foldl {rooted : Bool} {cs acc : List Bytes} (h : Settled rooted acc)
    (hcs : ∀ c ∈ cs, c ≠ [] ∧ slash ∉ c) : Settled rooted (cs.foldl (step rooted) acc) := by
  induction cs generalizing acc with
  | nil => exact h
  | cons c rest ih =>
    exact ih (settled_step h (hcs c List.mem_cons_self))
      fun d hd => hcs d (List.mem_cons_of_mem c hd)

/-- Settled components are kept as they are. -/
theorem foldl_settled {rooted : Bool} {acc : List Bytes} (h : Settled rooted acc) :
    acc.reverse.foldl (step rooted) [] = acc := by
  induction acc with
  | nil => rfl
  | cons c rest ih =>
    obtain ⟨⟨_, _, hdot⟩, hup, hrest⟩ := h
    rw [List.reverse_cons, List.foldl_append, ih hrest, List.foldl_cons, List.foldl_nil]
    unfold step
    rw [if_neg (by simpa using hdot)]
    by_cases hc : c = ".."
    · obtain ⟨rfl, hall⟩ := hup hc
      rw [if_pos (beq_iff_eq.mpr hc)]
      cases rest with
      | nil => rfl
      | cons d rest => simp [hall d List.mem_cons_self]
    · rw [if_neg (by simpa using hc)]

theorem isAbsolute_ofComponents {rooted : Bool} {cs : List Bytes}
    (h : ∀ c ∈ cs, c ≠ [] ∧ slash ∉ c) : isAbsolute (ofComponents rooted cs) = rooted := by
  cases rooted with
  | true => rfl
  | false =>
    cases cs with
    | nil => decide +kernel
    | cons c rest =>
      obtain ⟨hne, hslash⟩ := h c List.mem_cons_self
      obtain ⟨b, c, rfl⟩ := List.exists_cons_of_ne_nil hne
      have hb : b ≠ slash := fun hb => hslash (by simp [hb])
      cases rest <;> simp [isAbsolute, ofComponents, Bytes.join, List.intercalate_cons_cons, hb]

theorem components_ofComponents {rooted : Bool} {cs : List Bytes} (hcs : cs ≠ [])
    (h : ∀ c ∈ cs, c ≠ [] ∧ slash ∉ c) : components (ofComponents rooted cs) = cs := by
  have hsplit : Bytes.splitOn slash (Bytes.join [slash] cs) = cs :=
    Bytes.splitOn_join hcs fun c hc => (h c hc).2
  have hfilter : cs.filter (!·.isEmpty) = cs :=
    List.filter_eq_self.mpr fun c hc => by simpa using (h c hc).1
  cases rooted with
  | true =>
    rw [components, ofComponents, if_pos rfl, Bytes.splitOn_sep, hsplit,
      List.filter_cons_of_neg (by simp), hfilter]
  | false =>
    rw [components, ofComponents, if_neg Bool.false_ne_true, if_neg (by simpa using hcs), hsplit,
      hfilter]

/-- A path made of settled components has these components. -/
theorem foldl_ofComponents {rooted : Bool} {acc : List Bytes} (h : Settled rooted acc) :
    (components (ofComponents rooted acc.reverse)).foldl (step rooted) [] = acc := by
  by_cases hacc : acc = []
  · subst hacc
    cases rooted <;> decide +kernel
  · rw [components_ofComponents (by simpa using hacc) fun c hc => h.mem c (List.mem_reverse.mp hc)]
    exact foldl_settled h

theorem isAbsolute_clean (p : Bytes) : isAbsolute (clean p) = isAbsolute p := by
  have hs : Settled (isAbsolute p) ((components p).foldl (step (isAbsolute p)) []) :=
    settled_foldl trivial (components_mem p)
  exact isAbsolute_ofComponents fun c hc => hs.mem c (List.mem_reverse.mp hc)

theorem cleanComponents_clean (p : Bytes) : cleanComponents (clean p) = cleanComponents p := by
  have hs : Settled (isAbsolute p) ((components p).foldl (step (isAbsolute p)) []) :=
    settled_foldl trivial (components_mem p)
  unfold cleanComponents
  rw [isAbsolute_clean]
  exact congrArg List.reverse (foldl_ofComponents hs)

theorem clean_clean (p : Bytes) : clean (clean p) = clean p := by
  show ofComponents (isAbsolute (clean p)) (cleanComponents (clean p)) = _
  rw [isAbsolute_clean, cleanComponents_clean]
  rfl

/-! ## Lengths -/

open Bytes (weight weight_reverse)

theorem weight_step_le (rooted : Bool) (acc : List Bytes) (c : Bytes) :
    weight (step rooted acc c) ≤ weight acc + (c.length + 1) := by
  have hpush : weight (c :: acc) = weight acc + (c.length + 1) := by
    rw [weight, Nat.add_comm]
  unfold step
  split
  · exact Nat.le_add_right _ _
  split
  · cases acc with
    | nil =>
      cases rooted with
      | true => exact Nat.zero_le _
      | false => exact Nat.le_of_eq hpush
    | cons d rest =>
      have hpop : weight (d :: rest) = d.length + 1 + weight rest := rfl
      dsimp only
      split <;> omega
  · exact Nat.le_of_eq hpush

theorem weight_foldl_le (rooted : Bool) (cs acc : List Bytes) :
    weight (cs.foldl (step rooted) acc) ≤ weight acc + weight cs := by
  induction cs generalizing acc with
  | nil => exact Nat.le_add_right _ _
  | cons c rest ih =>
    have hstep := weight_step_le rooted acc c
    have hrest := ih (step rooted acc c)
    rw [List.foldl_cons, weight]
    omega

theorem weight_filter_le (q : Bytes → Bool) (cs : List Bytes) :
    weight (cs.filter q) ≤ weight cs := by
  induction cs with
  | nil => exact Nat.le_refl _
  | cons c rest ih =>
    rw [List.filter_cons]
    split <;> simp only [weight] <;> omega

/-- Cleaning makes no path longer but the empty one. -/
theorem length_clean_le {p : Bytes} (hp : p ≠ []) : (clean p).length ≤ p.length := by
  have hpos : 0 < p.length := List.length_pos_iff.mpr hp
  have hfold := weight_foldl_le (isAbsolute p) (components p) []
  rw [← weight_reverse] at hfold
  have hnil : weight [] = 0 := rfl
  unfold clean ofComponents cleanComponents
  cases habs : isAbsolute p with
  | true =>
    -- The empty part in front of the root is no component.
    obtain ⟨q, rfl⟩ : ∃ q, p = slash :: q := by
      cases p with
      | nil => exact absurd rfl hp
      | cons b q => exact ⟨q, by rw [show b = slash by simpa [isAbsolute] using habs]⟩
    have hsplit : weight (components (slash :: q)) ≤ q.length + 1 := by
      rw [components, Bytes.splitOn_sep, List.filter_cons_of_neg (by simp),
        ← Bytes.weight_splitOn slash]
      exact weight_filter_le _ _
    rw [habs] at hfold
    generalize ((components (slash :: q)).foldl (step true) []).reverse = cs at hfold
    rw [if_pos rfl, List.length_cons, List.length_cons]
    by_cases hcs : cs = []
    · simp [hcs, Bytes.join]
    · have hjoin := Bytes.length_join slash hcs
      omega
  | false =>
    have hsplit : weight (components p) ≤ p.length + 1 := by
      rw [← Bytes.weight_splitOn slash]
      exact weight_filter_le _ _
    rw [habs] at hfold
    generalize ((components p).foldl (step false) []).reverse = cs at hfold
    rw [if_neg Bool.false_ne_true]
    by_cases hcs : cs = []
    · have hdot : (Bytes.ofString ".").length = 1 := by decide +kernel
      rw [hcs, if_pos List.isEmpty_nil, hdot]
      exact hpos
    · have hjoin := Bytes.length_join slash hcs
      rw [if_neg (by simpa using hcs)]
      omega

end Path

/-! ## Paths of file sets -/

theorem normalPath_normalPath (p : Bytes) : normalPath (normalPath p) = normalPath p := by
  unfold normalPath
  split
  · rfl
  · rw [Path.clean_clean]
    split <;> rfl

theorem length_normalPath_le (p : Bytes) : (normalPath p).length ≤ p.length := by
  unfold normalPath
  split
  · exact Nat.le_refl _
  · exact Path.length_clean_le (by simpa using ‹¬p.isEmpty = true›)

namespace FileSet

/-- The paths are different, and each is the one that its file is known by. -/
def Normal (paths : List Bytes) : Prop := paths.Nodup ∧ ∀ p ∈ paths, normalPath p = p

theorem lookup?_eq_none {fs : FileSet} {p : Bytes} :
    fs.lookup? p = none ↔ normalPath p ∉ fs.paths := by
  simp [lookup?]

theorem paths_add (fs : FileSet) (p : Bytes) :
    (fs.add p).1 = if normalPath p ∈ fs.paths then fs
      else { fs with paths := fs.paths ++ [normalPath p] } := by
  unfold add
  cases h : fs.lookup? p with
  | none => rw [if_neg (lookup?_eq_none.mp h)]
  | some id =>
    have hmem : normalPath p ∈ fs.paths := Decidable.byContradiction fun hn =>
      Option.some_ne_none id (h.symm.trans (lookup?_eq_none.mpr hn))
    rw [if_pos hmem]

theorem prefix_add (fs : FileSet) (p : Bytes) : fs.paths <+: (fs.add p).1.paths := by
  rw [paths_add]
  split
  · exact List.prefix_refl _
  · exact List.prefix_append _ _

theorem normal_add {fs : FileSet} (h : Normal fs.paths) (p : Bytes) :
    Normal (fs.add p).1.paths := by
  rw [paths_add]
  split
  · exact h
  · rename_i hmem
    refine ⟨List.nodup_append.mpr ⟨h.1, by simp, ?_⟩, ?_⟩
    · intro a ha b hb
      rw [List.mem_singleton.mp hb]
      rintro rfl
      exact hmem ha
    · intro q hq
      rcases List.mem_append.mp hq with hq | hq
      · exact h.2 q hq
      · rw [List.mem_singleton.mp hq, normalPath_normalPath]

theorem normal_addAll {fs : FileSet} (h : Normal fs.paths) (ps : List Bytes) :
    Normal (fs.addAll ps).paths := by
  induction ps generalizing fs with
  | nil => exact h
  | cons p rest ih => exact ih (normal_add h p)

theorem addAll_append (fs : FileSet) (ps qs : List Bytes) :
    fs.addAll (ps ++ qs) = (fs.addAll ps).addAll qs :=
  List.foldl_append

theorem prefix_addAll (fs : FileSet) (ps : List Bytes) : fs.paths <+: (fs.addAll ps).paths := by
  induction ps generalizing fs with
  | nil => exact List.prefix_refl _
  | cons p rest ih => exact (prefix_add fs p).trans (ih _)

/-- The files of a set are the ones that were there and the added ones. -/
theorem mem_addAll {fs : FileSet} {ps : List Bytes} {q : Bytes} :
    q ∈ (fs.addAll ps).paths ↔ q ∈ fs.paths ∨ q ∈ ps.map normalPath := by
  induction ps generalizing fs with
  | nil => simp [addAll]
  | cons p rest ih =>
    have hstep : q ∈ (fs.add p).1.paths ↔ q ∈ fs.paths ∨ q = normalPath p := by
      rw [paths_add]
      by_cases hmem : normalPath p ∈ fs.paths
      · rw [if_pos hmem]
        exact ⟨.inl, fun h => h.elim id fun heq => heq ▸ hmem⟩
      · rw [if_neg hmem, List.mem_append, List.mem_singleton]
    show q ∈ ((fs.add p).1.addAll rest).paths ↔ _
    rw [ih, hstep, List.map_cons, List.mem_cons, or_assoc]

theorem base_addAll (fs : FileSet) (ps : List Bytes) : (fs.addAll ps).base = fs.base := by
  induction ps generalizing fs with
  | nil => rfl
  | cons p rest ih =>
    refine (ih (fs.add p).1).trans ?_
    rw [paths_add]
    split <;> rfl

/-- Paths of different files that are all new are added in order. -/
theorem paths_addAll_of_nodup {fs : FileSet} {ps : List Bytes}
    (h : (fs.paths ++ ps.map normalPath).Nodup) :
    (fs.addAll ps).paths = fs.paths ++ ps.map normalPath := by
  induction ps generalizing fs with
  | nil => exact (List.append_nil _).symm
  | cons p rest ih =>
    have hnew : normalPath p ∉ fs.paths := fun hmem =>
      (List.nodup_append.mp h).2.2 _ hmem _ List.mem_cons_self rfl
    have hadd : (fs.add p).1.paths = fs.paths ++ [normalPath p] := by
      rw [paths_add, if_neg hnew]
    show ((fs.add p).1.addAll rest).paths = _
    rw [ih (by rw [hadd]; simpa using h), hadd]
    simp

/-- Normal paths that are all new are added as they are. -/
theorem addAll_eq {fs : FileSet} {ps : List Bytes} (h : Normal (fs.paths ++ ps)) :
    fs.addAll ps = { fs with paths := fs.paths ++ ps } := by
  have hnormal : ps.map normalPath = ps :=
    (List.map_congr_left fun p hp => h.2 p (List.mem_append_right _ hp)).trans (List.map_id ps)
  have hpaths : (fs.addAll ps).paths = fs.paths ++ ps.map normalPath := by
    apply paths_addAll_of_nodup
    rw [hnormal]
    exact h.1
  rw [hnormal] at hpaths
  calc fs.addAll ps = ⟨(fs.addAll ps).paths, (fs.addAll ps).base⟩ := rfl
    _ = ⟨fs.paths ++ ps, fs.base⟩ := by rw [hpaths, base_addAll]

/-- The paths that come from added ones are no longer and no more than these. -/
theorem addAll_bounded (fs : FileSet) {ps : List Bytes} {n : Nat}
    (hfs : ∀ p ∈ fs.paths, p.length < n) (hps : ∀ p ∈ ps, p.length < n) :
    (fs.addAll ps).paths.length ≤ fs.paths.length + ps.length
      ∧ ∀ p ∈ (fs.addAll ps).paths, p.length < n := by
  induction ps generalizing fs with
  | nil => exact ⟨Nat.le_refl _, hfs⟩
  | cons p rest ih =>
    have hp : (normalPath p).length < n :=
      Nat.lt_of_le_of_lt (length_normalPath_le p) (hps p List.mem_cons_self)
    have hadd : (∀ q ∈ (fs.add p).1.paths, q.length < n)
        ∧ (fs.add p).1.paths.length ≤ fs.paths.length + 1 := by
      rw [paths_add]
      split
      · exact ⟨hfs, Nat.le_succ _⟩
      · refine ⟨fun q hq => ?_, by simp⟩
        rcases List.mem_append.mp hq with hq | hq
        · exact hfs q hq
        · rw [List.mem_singleton.mp hq]
          exact hp
    obtain ⟨hlen, hall⟩ := ih (fs.add p).1 hadd.1 fun q hq => hps q (List.mem_cons_of_mem p hq)
    refine ⟨?_, hall⟩
    show ((fs.add p).1.addAll rest).paths.length ≤ _
    rw [List.length_cons]
    omega

end FileSet

end WastForge
