import WastForge.Proofs.Text.Path
import WastForge.Workflow.Cache

/-!
# Where paths lead

The names that a path leads along do not depend on what the disk holds: the disk only says whether
one gets there. Cleaning a path does not change where it leads. Every key of a cache leads to a
place of its own. Keeping an entry puts no file anywhere but in
the place of its key, and leaves all other files as they are.
-/

namespace WastForge

/-! ## Paths that end in a name -/

namespace Bytes

variable {sep : UInt8}

/-- What stands on both sides of a separator is split on its own. -/
theorem splitOn_append_sep (a b : Bytes) :
    splitOn sep (a ++ sep :: b) = splitOn sep a ++ splitOn sep b := by
  induction a with
  | nil => rw [List.nil_append, splitOn_sep, splitOn, List.singleton_append]
  | cons c rest ih =>
    by_cases hc : c = sep
    · subst hc
      rw [List.cons_append, splitOn_sep, ih, splitOn_sep, List.cons_append]
    · rw [List.cons_append, splitOn_cons hc, ih, splitOn_cons hc]
      cases h : splitOn sep rest with
      | nil => exact absurd h (splitOn_ne_nil rest)
      | cons part parts => rfl

theorem splitOn_of_not_mem {b : Bytes} (hb : sep ∉ b) : splitOn sep b = [b] := by
  have hsplit := splitOn_append hb []
  rw [List.append_nil] at hsplit
  rw [hsplit]
  simp [splitOn]

/-- A part without separators is split off the end. -/
theorem splitOn_concat (a : Bytes) {b : Bytes} (hb : sep ∉ b) :
    splitOn sep (a ++ sep :: b) = splitOn sep a ++ [b] := by
  rw [splitOn_append_sep, splitOn_of_not_mem hb]

/-- Two digits are read back as their byte. -/
theorem ofHex_hexByte (b : UInt8) (rest : Bytes) : ofHex (hexByte b ++ rest) = b :: ofHex rest := by
  have h : ∀ n : Fin 256, UInt8.ofNat (16 * hexValue (digit (n.val / 16))
      + hexValue (digit (n.val % 16))) = UInt8.ofNat n.val := by decide +kernel
  have hb := h ⟨b.toNat, b.toNat_lt⟩
  rw [UInt8.ofNat_toNat] at hb
  show UInt8.ofNat _ :: ofHex rest = _
  rw [hb]

theorem join_singleton (c : Bytes) : join [sep] [c] = c := by simp [join]

/-- The last part stands behind a separator. -/
theorem join_concat {cs : List Bytes} (hcs : cs ≠ []) (c : Bytes) :
    join [sep] (cs ++ [c]) = join [sep] cs ++ sep :: c := by
  induction cs with
  | nil => exact absurd rfl hcs
  | cons d rest ih =>
    cases rest with
    | nil => simp [join, List.intercalate_cons_cons]
    | cons e rest =>
      have hrest := ih (List.cons_ne_nil _ _)
      simp only [join, List.cons_append, List.intercalate_cons_cons, List.append_assoc] at hrest ⊢
      rw [hrest]

/-- Digits that stand for bytes are read back. -/
theorem ofHex_hex (s : Bytes) : ofHex s.hex = s := by
  induction s with
  | nil => rfl
  | cons b rest ih => rw [hex, List.flatMap_cons, ofHex_hexByte, ← hex, ih]

end Bytes

namespace Path

/-- One name, which neither stays where it is nor leads back. -/
structure IsName (c : Bytes) : Prop where
  ne_nil : c ≠ []
  slash : slash ∉ c
  ne_dot : c ≠ "."
  ne_up : c ≠ ".."

variable {c p : Bytes}

theorem step_name (h : IsName c) (rooted : Bool) (acc : List Bytes) :
    step rooted acc c = c :: acc := by
  simp only [step, beq_eq_false_iff_ne.mpr h.ne_dot, beq_eq_false_iff_ne.mpr h.ne_up,
    Bool.false_eq_true, if_false]

theorem components_concat (h : IsName c) (p : Bytes) :
    components (p ++ slash :: c) = components p ++ [c] := by
  rw [components, Bytes.splitOn_concat p h.slash, List.filter_append, components,
    List.filter_cons_of_pos (by simpa using h.ne_nil)]
  rfl

theorem isAbsolute_concat (hp : p ≠ []) (c : Bytes) :
    isAbsolute (p ++ slash :: c) = isAbsolute p := by
  obtain ⟨b, rest, rfl⟩ := List.exists_cons_of_ne_nil hp
  rfl

/-- A name is the last component of its path. -/
theorem cleanComponents_concat (h : IsName c) (hp : p ≠ []) :
    cleanComponents (p ++ slash :: c) = cleanComponents p ++ [c] := by
  rw [cleanComponents, isAbsolute_concat hp, components_concat h, List.foldl_append,
    List.foldl_cons, List.foldl_nil, step_name h, List.reverse_cons, cleanComponents]

/-- Cleaning leaves a name at the end alone. -/
theorem clean_concat (h : IsName c) (hp : cleanComponents p ≠ []) :
    clean (p ++ slash :: c) = clean p ++ slash :: c := by
  have hne : p ≠ [] := fun he => hp (by rw [he]; rfl)
  have hempty : (cleanComponents p).isEmpty = false := by simpa using hp
  rw [clean, isAbsolute_concat hne, cleanComponents_concat h hne, clean, ofComponents,
    Bytes.join_concat hp, ofComponents, hempty]
  cases isAbsolute p <;> simp

theorem dropSlashes_concat {b : UInt8} (hb : b ≠ slash) (p : Bytes) :
    dropSlashes (p ++ [b]) = p ++ [b] := by
  rw [dropSlashes, List.reverse_concat, List.dropWhile_cons_of_neg (by simpa using hb),
    List.reverse_cons, List.reverse_reverse]

theorem dropSlashes_concat_slash (p : Bytes) : dropSlashes (p ++ [slash]) = dropSlashes p := by
  rw [dropSlashes, List.reverse_concat, List.dropWhile_cons_of_pos (by simp), dropSlashes]

/-- A separator at the end says nothing. -/
theorem clean_concat_slash (hp : p ≠ []) : clean (p ++ [slash]) = clean p := by
  have hsplit : Bytes.splitOn slash (p ++ slash :: []) = Bytes.splitOn slash p ++ [[]] :=
    Bytes.splitOn_concat p List.not_mem_nil
  have hcomponents : components (p ++ slash :: []) = components p := by
    rw [components, hsplit, List.filter_append, components, List.filter_cons_of_neg (by simp),
      List.filter_nil, List.append_nil]
  rw [clean, cleanComponents, hcomponents, isAbsolute_concat hp, clean, cleanComponents]

theorem cleanComponents_mem (p : Bytes) : ∀ c ∈ cleanComponents p, c ≠ [] ∧ slash ∉ c := by
  have hs : Settled (isAbsolute p) ((components p).foldl (step (isAbsolute p)) []) :=
    settled_foldl trivial (components_mem p)
  exact fun c hc => hs.mem c (List.mem_reverse.mp hc)

theorem ofComponents_ne_nil {rooted : Bool} {cs : List Bytes} (h : ∀ c ∈ cs, c ≠ []) :
    ofComponents rooted cs ≠ [] := by
  rw [ofComponents]
  split
  · exact List.cons_ne_nil _ _
  split
  · decide +kernel
  · cases cs with
    | nil => exact absurd List.isEmpty_nil ‹_›
    | cons c rest =>
      have hc := h c List.mem_cons_self
      cases rest with
      | nil => simpa [Bytes.join] using hc
      | cons d rest => simp [Bytes.join, List.intercalate_cons_cons]

/-- No path is empty once it is clean. -/
theorem clean_ne_nil (p : Bytes) : clean p ≠ [] :=
  ofComponents_ne_nil fun c hc => (cleanComponents_mem p c hc).1

/-! ### Names in directories -/

theorem isAbsolute_of_slash_not_mem (h : slash ∉ c) : isAbsolute c = false := by
  cases c with
  | nil => rfl
  | cons b rest =>
    have hb : b ≠ slash := fun hb => h (hb ▸ List.mem_cons_self)
    simpa [isAbsolute] using hb

/-- Before the last separator stands the directory. -/
theorem dir_concat (h : slash ∉ c) (p : Bytes) : dir (p ++ slash :: c) = clean (p ++ [slash]) := by
  have hall : ∀ b ∈ c.reverse, (b != slash) = true := fun b hb => by
    simpa using fun he : b = slash => h (he ▸ List.mem_reverse.mp hb)
  rw [dir, List.reverse_append, List.reverse_cons, List.append_assoc,
    List.dropWhile_append_of_pos hall]
  simp

theorem dir_of_slash_not_mem (h : slash ∉ c) : dir c = "." := by
  have hall : ∀ b ∈ c.reverse, (b != slash) = true := fun b hb => by
    simpa using fun he : b = slash => h (he ▸ List.mem_reverse.mp hb)
  rw [dir, ← List.append_nil c.reverse, List.dropWhile_append_of_pos hall]
  decide +kernel

theorem dropSlashes_of_slash_not_mem (hc : c ≠ []) (h : slash ∉ c) (p : Bytes) :
    dropSlashes (p ++ c) = p ++ c := by
  have hlast : c.getLast hc ≠ slash := fun he => h (he ▸ List.getLast_mem hc)
  rw [← List.dropLast_concat_getLast hc, ← List.append_assoc, dropSlashes_concat hlast]

/-- Behind the last separator stands the base name. -/
theorem base_concat (hc : c ≠ []) (h : slash ∉ c) (p : Bytes) : base (p ++ slash :: c) = c := by
  have hall : ∀ b ∈ c.reverse, (b != slash) = true := fun b hb => by
    simpa using fun he : b = slash => h (he ▸ List.mem_reverse.mp hb)
  have hdrop : dropSlashes (p ++ slash :: c) = p ++ slash :: c := by
    have := dropSlashes_of_slash_not_mem hc h (p ++ [slash])
    rwa [List.append_assoc, List.singleton_append] at this
  rw [base, if_neg (by simp)]
  simp only [hdrop]
  rw [if_neg (by simp), List.reverse_append, List.reverse_cons, List.append_assoc,
    List.takeWhile_append_of_pos hall]
  simp

theorem base_of_slash_not_mem (hc : c ≠ []) (h : slash ∉ c) : base c = c := by
  have hall : ∀ b ∈ c.reverse, (b != slash) = true := fun b hb => by
    simpa using fun he : b = slash => h (he ▸ List.mem_reverse.mp hb)
  have hdrop : dropSlashes c = c := dropSlashes_of_slash_not_mem hc h []
  rw [base, if_neg (by simpa using hc)]
  simp only [hdrop]
  rw [if_neg (by simpa using hc), ← List.append_nil c.reverse, List.takeWhile_append_of_pos hall]
  simp

/-- A path is its own base name just if it is a name without a separator, or the root. -/
theorem base_eq_self_iff (hc : c ≠ []) : base c = c ↔ slash ∉ c ∨ c = [slash] := by
  constructor
  · intro hbase
    by_cases hroot : c = [slash]
    · exact .inr hroot
    refine .inl fun hmem => ?_
    rw [base, if_neg (by simpa using hc)] at hbase
    simp only at hbase
    split at hbase
    · exact hroot hbase.symm
    · rw [← hbase, List.mem_reverse] at hmem
      simpa using List.all_eq_true.mp List.all_takeWhile _ hmem
  · rintro (h | rfl)
    · exact base_of_slash_not_mem hc h
    · decide

theorem join_pair (hc : c ≠ []) (p : Bytes) :
    join [p, c] = if p = [] then clean c else clean (p ++ slash :: c) := by
  have hname : List.isEmpty c = false := List.isEmpty_eq_false_iff.mpr hc
  by_cases hp : p = []
  · simp [join, hp, hname, Bytes.join]
  · simp [join, hp, hc, Bytes.join, List.intercalate_cons_cons]

/-- A name is the last component of the path that it makes with a directory. -/
theorem join_name (h : IsName c) (p : Bytes) :
    join [p, c] = ofComponents (isAbsolute p) (cleanComponents p ++ [c]) := by
  rw [join_pair h.ne_nil]
  split
  · next hp =>
    have hcomponents : components c = [c] := by
      rw [components, Bytes.splitOn_of_not_mem h.slash, List.filter_cons_of_pos
        (by simpa using h.ne_nil), List.filter_nil]
    rw [clean, cleanComponents, hcomponents, isAbsolute_of_slash_not_mem h.slash, hp,
      List.foldl_cons, step_name h]
    rfl
  · next hp => rw [clean, isAbsolute_concat hp, cleanComponents_concat h hp]

theorem join_name_eq_concat (h : IsName c) (hp : cleanComponents p ≠ []) :
    join [p, c] = clean p ++ slash :: c := by
  have hne : p ≠ [] := fun he => hp (by rw [he]; rfl)
  rw [join_pair h.ne_nil, if_neg hne, clean_concat h hp]

theorem join_name_of_nil (h : IsName c) (hp : cleanComponents p = []) :
    join [p, c] = if isAbsolute p then slash :: c else c := by
  rw [join_name h, hp, List.nil_append, ofComponents, Bytes.join_singleton]
  rfl

/-- The path that a name makes with a directory stands right in it. -/
theorem dir_join_name (h : IsName c) (p : Bytes) : dir (join [p, c]) = clean p := by
  by_cases hp : cleanComponents p = []
  · rw [join_name_of_nil h hp, clean, hp]
    cases isAbsolute p with
    | true => exact (dir_concat h.slash []).trans (by decide +kernel)
    | false => exact dir_of_slash_not_mem h.slash
  · rw [join_name_eq_concat h hp, dir_concat h.slash, clean_concat_slash (clean_ne_nil p),
      clean_clean]

theorem base_join_name (h : IsName c) (p : Bytes) : base (join [p, c]) = c := by
  by_cases hp : cleanComponents p = []
  · rw [join_name_of_nil h hp]
    cases isAbsolute p with
    | true => exact base_concat h.ne_nil h.slash []
    | false => exact base_of_slash_not_mem h.ne_nil h.slash
  · rw [join_name_eq_concat h hp, base_concat h.ne_nil h.slash]

end Path

/-! ## What a path stands for -/

namespace Disk

/-- Go on by one name, whatever stands there. -/
def goOn (names : List Bytes) (name : Bytes) : List Bytes :=
  if name.isEmpty || name == "." then names
  else if name == ".." then names.dropLast
  else names ++ [name]

/-- The chain of names that a path leads along from a working directory. -/
def lead (cwd path : Bytes) : List Bytes :=
  (Bytes.splitOn Path.slash path).foldl goOn
    (if Path.isAbsolute path then [] else Path.components cwd)

theorem goOn_name {c : Bytes} (h : Path.IsName c) (names : List Bytes) :
    goOn names c = names ++ [c] := by
  simp only [goOn, List.isEmpty_eq_false_iff.mpr h.ne_nil, beq_eq_false_iff_ne.mpr h.ne_dot,
    beq_eq_false_iff_ne.mpr h.ne_up, Bool.or_false, Bool.false_eq_true, if_false]

/-- A path that ends in a name leads to this name. -/
theorem lead_concat {c p : Bytes} (h : Path.IsName c) (hp : p ≠ []) (cwd : Bytes) :
    lead cwd (p ++ Path.slash :: c) = lead cwd p ++ [c] := by
  rw [lead, Path.isAbsolute_concat hp, Bytes.splitOn_concat p h.slash, List.foldl_append,
    List.foldl_cons, List.foldl_nil, goOn_name h, lead]

theorem goOn_dot (names : List Bytes) : goOn names "." = names := by
  rw [goOn, if_pos (by decide +kernel)]

theorem goOn_up (names : List Bytes) : goOn names ".." = names.dropLast := by
  rw [goOn, if_neg (by decide +kernel), if_pos (by decide +kernel)]

/-- Empty components lead nowhere. -/
theorem lead_eq (cwd path : Bytes) : lead cwd path
    = (Path.components path).foldl goOn
      (if Path.isAbsolute path then [] else Path.components cwd) := by
  have hfilter (parts names : List Bytes) :
      parts.foldl goOn names = (parts.filter (!·.isEmpty)).foldl goOn names := by
    induction parts generalizing names with
    | nil => rfl
    | cons part rest ih =>
      cases part with
      | nil => exact ih names
      | cons b part => exact ih _
  exact hfilter _ _

/-- One step of cleaning does not change where the components lead. -/
theorem foldl_step {rooted : Bool} {acc : List Bytes} (hacc : Path.Settled rooted acc) (c : Bytes)
    {start : List Bytes} (hstart : rooted = true → start = []) :
    (Path.step rooted acc c).reverse.foldl goOn start = goOn (acc.reverse.foldl goOn start) c := by
  have hpush : (c :: acc).reverse.foldl goOn start = goOn (acc.reverse.foldl goOn start) c := by
    rw [List.reverse_cons, List.foldl_append]
    rfl
  unfold Path.step
  by_cases hdot : c = "."
  · rw [if_pos (beq_iff_eq.mpr hdot), hdot, goOn_dot]
  rw [if_neg (by simpa using hdot)]
  by_cases hup : c = ".."
  · rw [if_pos (beq_iff_eq.mpr hup)]
    cases acc with
    | nil =>
      cases rooted with
      | true =>
        rw [hstart rfl, hup, goOn_up]
        rfl
      | false => exact hpush
    | cons d rest =>
      by_cases hd : d = ".."
      · rw [hd] at hpush ⊢
        exact hpush
      · have hname : Path.IsName d := ⟨hacc.1.1, hacc.1.2.1, hacc.1.2.2, hd⟩
        simp only [beq_eq_false_iff_ne.mpr hd, Bool.false_eq_true, if_false]
        rw [hup, goOn_up, List.reverse_cons, List.foldl_append, List.foldl_cons, List.foldl_nil,
          goOn_name hname, List.dropLast_concat]
  · rw [if_neg (by simpa using hup)]
    exact hpush

theorem foldl_steps {rooted : Bool} {cs acc : List Bytes} (hacc : Path.Settled rooted acc)
    (hcs : ∀ c ∈ cs, c ≠ [] ∧ Path.slash ∉ c) (start : List Bytes)
    (hstart : rooted = true → start = []) :
    (cs.foldl (Path.step rooted) acc).reverse.foldl goOn start
      = cs.foldl goOn (acc.reverse.foldl goOn start) := by
  induction cs generalizing acc with
  | nil => rfl
  | cons c rest ih =>
    have hsettled := Path.settled_step hacc (hcs c List.mem_cons_self)
    rw [List.foldl_cons, ih hsettled fun d hd => hcs d (List.mem_cons_of_mem c hd),
      foldl_step hacc c hstart, List.foldl_cons]

/-- A clean path leads where the path led. -/
theorem lead_clean (cwd path : Bytes) : lead cwd (Path.clean path) = lead cwd path := by
  rw [lead_eq, lead_eq, Path.isAbsolute_clean]
  have hnil : Path.Settled (Path.isAbsolute path) [] := trivial
  have hsteps := foldl_steps hnil (Path.components_mem path)
    (if Path.isAbsolute path then [] else Path.components cwd) fun h => if_pos h
  refine Eq.trans ?_ hsteps
  by_cases hcs : Path.cleanComponents path = []
  · have hreverse : ((Path.components path).foldl (Path.step (Path.isAbsolute path)) []).reverse
        = [] := hcs
    rw [hreverse, Path.clean, hcs]
    cases Path.isAbsolute path with
    | true => rfl
    | false => exact goOn_dot _
  · rw [Path.clean, Path.components_ofComponents hcs (Path.cleanComponents_mem path),
      Path.cleanComponents]

/-- A part without separators is gone to from where the directory leads. -/
theorem lead_join {c : Bytes} (hc : c ≠ []) (hslash : Path.slash ∉ c) (cwd p : Bytes) :
    lead cwd (Path.join [p, c]) = goOn (lead cwd p) c := by
  rw [Path.join_pair hc]
  split
  · next hp =>
    rw [lead_clean, hp, lead, Bytes.splitOn_of_not_mem hslash,
      Path.isAbsolute_of_slash_not_mem hslash]
    rfl
  · next hp =>
    rw [lead_clean, lead, Path.isAbsolute_concat hp, Bytes.splitOn_concat p hslash,
      List.foldl_append, List.foldl_cons, List.foldl_nil, lead]

theorem lead_concat_slash {p : Bytes} (hp : p ≠ []) (cwd : Bytes) :
    lead cwd (p ++ [Path.slash]) = lead cwd p := by
  rw [← lead_clean, Path.clean_concat_slash hp, lead_clean]

/-- Separators at the end lead nowhere. -/
theorem lead_bare (cwd path : Bytes) : lead cwd (bare path) = lead cwd path := by
  -- induction from the end, where separators are dropped
  have hreverse : ∀ rest : Bytes, lead cwd (bare rest.reverse) = lead cwd rest.reverse := by
    intro rest
    induction rest with
    | nil => rfl
    | cons b rest ih =>
      rw [List.reverse_cons]
      by_cases hb : b = Path.slash
      · subst hb
        rw [bare, Path.dropSlashes_concat_slash]
        split
        · rfl
        · next hne =>
          have hrest : rest.reverse ≠ [] := fun h => hne (by rw [h]; rfl)
          rw [bare, if_neg hne] at ih
          rw [ih, lead_concat_slash hrest]
      · rw [bare, Path.dropSlashes_concat hb, ite_self]
  have := hreverse path.reverse
  rwa [List.reverse_reverse] at this

variable {d d' : Disk} {names other : List Bytes} {path : Bytes}

theorem eq_of_follow {name : Bytes} (h : d.follow names name = .ok other) :
    other = goOn names name := by
  rw [follow] at h
  rw [goOn]
  split at h
  · cases h
  · cases h
  · split at h
    · rw [if_pos ‹_›]
      exact (Except.ok.inj h).symm
    rw [if_neg ‹_›]
    split at h
    · rw [if_pos ‹_›]
      exact (Except.ok.inj h).symm
    rw [if_neg ‹_›]
    split at h
    · cases h
    · exact (Except.ok.inj h).symm

theorem eq_of_foldlM {parts : List Bytes} (h : parts.foldlM d.follow names = .ok other) :
    other = parts.foldl goOn names := by
  induction parts generalizing names with
  | nil => exact (Except.ok.inj h).symm
  | cons part rest ih =>
    rw [List.foldlM_cons] at h
    cases hstep : d.follow names part with
    | error e =>
      rw [hstep] at h
      cases h
    | ok mid =>
      rw [hstep] at h
      rw [List.foldl_cons, ← eq_of_follow hstep]
      exact ih h

/-- A path that gets somewhere gets where its names lead. -/
theorem eq_of_locate (h : d.locate path = .ok names) : names = lead d.cwd path := by
  rw [locate] at h
  split at h
  · cases h
  split at h
  · cases h
  split at h
  · cases h
  · exact eq_of_foldlM h

/-- A file is read where its path gets. -/
theorem readFile_eq_ok {content : Bytes} : d.readFile path = .ok content ↔
    ∃ names, d.locate path = .ok names ∧ d.entry? names = some (.file content) := by
  rw [readFile, find]
  cases hloc : d.locate path with
  | error cause => exact ⟨fun h => (by cases h), fun ⟨_, h, _⟩ => (by cases h)⟩
  | ok names =>
    dsimp only [bind, Except.bind]
    cases he : d.entry? names with
    | none => exact ⟨fun h => (by cases h), fun ⟨_, h, h'⟩ => (by cases h; cases he.symm.trans h')⟩
    | some e =>
      cases e with
      | file c =>
        refine ⟨fun h => ⟨names, rfl, ?_⟩, fun ⟨_, h, h'⟩ => ?_⟩
        · cases h
          exact he
        · cases h
          cases he.symm.trans h'
          rfl
      | directory =>
        exact ⟨fun h => (by cases h), fun ⟨_, h, h'⟩ => (by cases h; cases he.symm.trans h')⟩

/-- What is read at a path is the file where its names lead. -/
theorem entry?_of_readFile {content : Bytes} (h : d.readFile path = .ok content) :
    d.entry? (lead d.cwd path) = some (.file content) := by
  obtain ⟨names, hloc, he⟩ := readFile_eq_ok.mp h
  rwa [← eq_of_locate hloc]

/-- A file can only be written where its path gets, and over no directory. -/
theorem writable_eq_ok (h : d.writable path = .ok names) : d.locate (bare path) = .ok names
    ∧ d.entry? names ≠ some .directory ∧ endsInSlash path = false := by
  rw [writable] at h
  cases hloc : d.locate (bare path) with
  | error cause =>
    rw [hloc] at h
    cases h
  | ok found =>
    rw [hloc] at h
    change (d.follow found.dropLast "." >>= fun _ => _) = _ at h
    cases hdir : d.follow found.dropLast "." with
    | error cause =>
      rw [hdir] at h
      cases h
    | ok dir =>
      rw [hdir] at h
      change (if _ then _ else _) = _ at h
      split at h
      · cases h
      · next hfree =>
        obtain rfl := Except.ok.inj h
        exact ⟨rfl, fun he => hfree (by rw [he]; simp), Bool.eq_false_iff.mpr fun he =>
          hfree (by rw [he, Bool.true_or])⟩

theorem mem_of_entry? {content : Bytes} (h : d.entry? names = some (.file content)) :
    (names, .file content) ∈ d.entries := by
  unfold entry? at h
  split at h
  · cases h
  · obtain ⟨before, behind, hsplit, -⟩ := List.lookup_eq_some_iff.mp h
    rw [hsplit]
    exact List.mem_append_right _ List.mem_cons_self

theorem entry?_setEntry_of_ne (h : other ≠ names) (e : DiskEntry) :
    Disk.entry? (d.setEntry names e) other = d.entry? other := by
  have hlook (l : List (List Bytes × DiskEntry)) :
      (l.filter (·.1 != names) ++ [(names, e)]).lookup other = l.lookup other := by
    induction l with
    | nil => rw [List.filter_nil, List.nil_append, List.lookup_cons, beq_eq_false_iff_ne.mpr h]
    | cons q rest ih =>
      obtain ⟨key, x⟩ := q
      by_cases hq : key = names
      · rw [List.filter_cons_of_neg (by simpa using hq), ih, List.lookup_cons,
          beq_eq_false_iff_ne.mpr (hq ▸ h)]
      · rw [List.filter_cons_of_pos (by simpa using hq), List.cons_append, List.lookup_cons,
          List.lookup_cons, ih]
  unfold entry? setEntry
  rw [hlook]

/-- What was put somewhere stands there, unless this is the root. -/
theorem entry?_setEntry_self (d : Disk) (names : List Bytes) (e : DiskEntry) :
    Disk.entry? (d.setEntry names e) names = if names.isEmpty then some .directory else some e := by
  have hlook (l : List (List Bytes × DiskEntry)) :
      (l.filter (·.1 != names) ++ [(names, e)]).lookup names = some e := by
    induction l with
    | nil => rw [List.filter_nil, List.nil_append, List.lookup_cons, beq_self_eq_true]
    | cons q rest ih =>
      obtain ⟨key, x⟩ := q
      by_cases hq : key = names
      · rw [List.filter_cons_of_neg (by simpa using hq), ih]
      · rw [List.filter_cons_of_pos (by simpa using hq), List.cons_append, List.lookup_cons,
          beq_eq_false_iff_ne.mpr (Ne.symm hq), ih]
  unfold entry? setEntry
  rw [hlook]

/-! ## What work on the disk leaves alone -/

/-- Everything stays where it was, and only directories are new. -/
structure Gains (d d' : Disk) : Prop where
  cwd : d'.cwd = d.cwd
  stays : ∀ {names e}, d.entry? names = some e → d'.entry? names = some e
  file : ∀ {names content}, d'.entry? names = some (.file content) →
    d.entry? names = some (.file content)

namespace Gains

theorem refl (d : Disk) : Gains d d := ⟨rfl, id, id⟩

theorem trans {d'' : Disk} (h : Gains d d') (h' : Gains d' d'') : Gains d d'' :=
  ⟨h'.cwd.trans h.cwd, fun he => h'.stays (h.stays he), fun he => h.file (h'.file he)⟩

end Gains

theorem gains_directory (h : d.entry? names = none) : Gains d (d.setEntry names .directory) := by
  refine ⟨rfl, fun {other e} he => ?_, fun {other content} he => ?_⟩
  · have hne : other ≠ names := fun hn => Option.some_ne_none e (he.symm.trans (hn ▸ h))
    rwa [Disk.entry?_setEntry_of_ne hne]
  · by_cases hn : other = names
    · subst hn
      rw [Disk.entry?_setEntry_self] at he
      split at he <;> cases he
    · rwa [Disk.entry?_setEntry_of_ne hn] at he

section Stays

variable (hdir : ∀ {names}, d.entry? names = some .directory → d'.entry? names = some .directory)

include hdir

theorem follow_of_directories {name : Bytes} (h : d.follow names name = .ok other) :
    d'.follow names name = .ok other := by
  rw [follow] at h ⊢
  split at h
  · cases h
  · cases h
  · rw [hdir ‹_›]
    exact h

theorem foldlM_of_directories {parts : List Bytes} (h : parts.foldlM d.follow names = .ok other) :
    parts.foldlM d'.follow names = .ok other := by
  induction parts generalizing names with
  | nil => exact h
  | cons part rest ih =>
    rw [List.foldlM_cons] at h ⊢
    cases hstep : d.follow names part with
    | error e =>
      rw [hstep] at h
      cases h
    | ok mid =>
      rw [hstep] at h
      rw [follow_of_directories hdir hstep]
      exact ih h

/-- Where directories stay, one gets wherever one got before. -/
theorem locate_of_directories (hcwd : d'.cwd = d.cwd) (h : d.locate path = .ok names) :
    d'.locate path = .ok names := by
  rw [locate, hcwd]
  rw [locate] at h
  split at h
  · cases h
  split at h
  · cases h
  split at h
  · cases h
  rw [if_neg ‹_›, if_neg ‹_›, if_neg ‹_›]
  exact foldlM_of_directories hdir h

/-- A file is read as before when it stays, and with it the directories. -/
theorem readFile_of_directories {content : Bytes} (hcwd : d'.cwd = d.cwd)
    (hfile : d'.entry? (lead d.cwd path) = some (.file content))
    (h : d.readFile path = .ok content) : d'.readFile path = .ok content := by
  obtain ⟨names, hloc, -⟩ := readFile_eq_ok.mp h
  exact readFile_eq_ok.mpr
    ⟨names, locate_of_directories hdir hcwd hloc, eq_of_locate hloc ▸ hfile⟩

end Stays

end Disk

namespace DiskM

open Disk (Gains)

/-- Whatever comes out, the work leaves the files of a disk alone. -/
def Spares (act : DiskM Unit) : Prop := ∀ d, Gains d (act.run d).2

/-- A failure ends the work in the middle. -/
theorem run_bind {α β : Type} (act : DiskM α) (next : α → DiskM β) (d : Disk) :
    ((act >>= next).run d).2 = (act.run d).2
      ∨ ∃ a, ((act >>= next).run d).2 = ((next a).run (act.run d).2).2 := by
  change (ExceptT.bindCont next (act.run d).1 (act.run d).2).2 = _
    ∨ ∃ a, (ExceptT.bindCont next (act.run d).1 (act.run d).2).2 = _
  cases (act.run d).1 with
  | ok a => exact .inr ⟨a, rfl⟩
  | error e => exact .inl rfl

theorem Spares.bind {act : DiskM Unit} {next : Unit → DiskM Unit} (h : Spares act)
    (hnext : Spares (next ())) : Spares (act >>= next) := by
  intro d
  rcases run_bind act next d with he | ⟨_, he⟩
  · exact he ▸ h d
  · exact he ▸ (h d).trans (hnext _)

theorem run_get {α : Type} (next : Disk → DiskM α) (d : Disk) :
    (get >>= next).run d = (next d).run d := rfl

theorem spares_get {next : Disk → DiskM Unit} (h : ∀ d, Gains d ((next d).run d).2) :
    Spares (get >>= next) := h

/-- Making a directory leaves the files alone. -/
theorem spares_mkdir (path : Bytes) : Spares (mkdir path) := by
  refine spares_get fun d => ?_
  split
  · exact .refl d
  split
  · exact .refl d
  · exact Disk.gains_directory ‹_›

/-- Making a directory where there may be one leaves the files alone. -/
theorem spares_mkdirUnless (there : Disk → Bool) (path : Bytes) :
    Spares (do unless there (← get) do mkdir path) := by
  refine spares_get fun d => ?_
  split
  · exact .refl d
  · exact spares_mkdir path d

theorem spares_mkdirFrom (fuel : Nat) (path : Bytes) : Spares (mkdirFrom fuel path) := by
  induction fuel generalizing path with
  | zero => exact spares_mkdir path
  | succ fuel ih =>
    refine spares_get fun d => ?_
    split
    · exact .refl d
    · exact .refl d
    · dsimp only
      split
      · exact spares_mkdirUnless _ path d
      · exact (ih _).bind (spares_mkdirUnless _ path) d

/-- A file is written where the names of its path lead, or not at all. -/
theorem writeFile_run (path content : Bytes) (d : Disk) :
    ((writeFile path content).run d).2 = d
      ∨ d.entry? (Disk.lead d.cwd (Disk.bare path)) ≠ some .directory
        ∧ ((writeFile path content).run d).2
          = d.setEntry (Disk.lead d.cwd (Disk.bare path)) (.file content) := by
  rw [writeFile, run_get]
  split
  · next names hw =>
    obtain ⟨hloc, hfree, -⟩ := Disk.writable_eq_ok hw
    obtain rfl := Disk.eq_of_locate hloc
    exact .inr ⟨hfree, rfl⟩
  · exact .inl rfl

end DiskM

/-! ## The places of entries -/

namespace ModuleCache

/-- The file name of an entry. -/
def fileOf (key : Digest) : Bytes := key.text ++ ".mp"

theorem fileOf_injective {key key' : Digest} (h : fileOf key = fileOf key') : key = key' := by
  have htext : key.bytes.hex = key'.bytes.hex := List.append_cancel_right h
  have hbytes := congrArg Bytes.ofHex htext
  rw [Bytes.ofHex_hex, Bytes.ofHex_hex] at hbytes
  cases key
  exact congrArg Digest.mk hbytes

theorem slash_not_mem_fileOf (key : Digest) : Path.slash ∉ fileOf key := by
  have hdigit : ∀ n : Fin 16, Bytes.digit n.val ≠ Path.slash := by decide
  intro h
  rcases List.mem_append.mp h with h | h
  · obtain ⟨b, -, hb⟩ := List.mem_flatMap.mp h
    simp only [Bytes.hexByte, List.mem_cons, List.not_mem_nil, or_false] at hb
    rcases hb with hb | hb
    · exact hdigit ⟨b.toNat / 16, Nat.div_lt_of_lt_mul b.toNat_lt⟩ hb.symm
    · exact hdigit ⟨b.toNat % 16, Nat.mod_lt _ (by decide)⟩ hb.symm
  · exact absurd h (by decide +kernel)

theorem length_fileOf (key : Digest) : 3 ≤ (fileOf key).length := by
  rw [fileOf, List.length_append]
  exact Nat.le_add_left _ _

theorem isName_fileOf (key : Digest) : Path.IsName (fileOf key) := by
  have hne {c : Bytes} (hc : c.length < 3) : fileOf key ≠ c := fun h =>
    Nat.not_le_of_lt hc (h ▸ length_fileOf key)
  exact ⟨hne (by decide), slash_not_mem_fileOf key, hne (by decide), hne (by decide)⟩

theorem isName_modules : Path.IsName "modules" :=
  ⟨by decide +kernel, by decide +kernel, by decide +kernel, by decide +kernel⟩

/-- The files of all entries stand in one directory. -/
theorem exists_pathOf (c : ModuleCache) :
    ∃ p : Bytes, p ≠ [] ∧ ∀ key, c.pathOf key = p ++ Path.slash :: fileOf key := by
  obtain ⟨dirs, hdirs, hjoin⟩ : ∃ dirs : List Bytes,
      Path.cleanComponents (Bytes.join [Path.slash] dirs) ≠ []
        ∧ ∀ key, c.pathOf key = Path.clean (Bytes.join [Path.slash] (dirs ++ [fileOf key])) := by
    have hmodules : List.isEmpty ("modules" : Bytes) = false := by decide +kernel
    have hfile (key : Digest) : List.isEmpty (fileOf key) = false :=
      List.isEmpty_eq_false_iff.mpr (isName_fileOf key).ne_nil
    by_cases hdir : c.dir = []
    · refine ⟨["modules"], by decide +kernel, fun key => ?_⟩
      rw [pathOf, ← fileOf, Path.join, hdir]
      simp only [List.filter_cons, List.isEmpty_nil, hmodules, hfile, Bool.not_true, Bool.not_false,
        Bool.false_eq_true, if_true, if_false, List.filter_nil, List.cons_append, List.nil_append]
    · refine ⟨[c.dir, "modules"], ?_, fun key => ?_⟩
      · rw [show [c.dir, Bytes.ofString "modules"] = [c.dir] ++ [Bytes.ofString "modules"] from rfl,
          Bytes.join_concat (List.cons_ne_nil _ _), Bytes.join_singleton,
          Path.cleanComponents_concat isName_modules hdir]
        exact List.append_ne_nil_of_right_ne_nil _ (List.cons_ne_nil _ _)
      · rw [pathOf, ← fileOf, Path.join]
        simp only [List.filter_cons, List.isEmpty_eq_false_iff.mpr hdir, hmodules, hfile,
          Bool.not_false, if_true, List.filter_nil, List.cons_append, List.nil_append]
  have hne : dirs ≠ [] := fun h => hdirs (by rw [h]; rfl)
  refine ⟨Path.clean (Bytes.join [Path.slash] dirs), fun h => hdirs ?_, fun key => ?_⟩
  · rw [← Path.cleanComponents_clean, h]
    rfl
  · rw [hjoin, Bytes.join_concat hne, Path.clean_concat (isName_fileOf key) hdirs]

/-- Where the entry of a key stands, seen from a working directory. -/
def placeOf (c : ModuleCache) (cwd : Bytes) (key : Digest) : List Bytes :=
  Disk.lead cwd (c.pathOf key)

theorem exists_placeOf (c : ModuleCache) (cwd : Bytes) :
    ∃ names, ∀ key, c.placeOf cwd key = names ++ [fileOf key] := by
  obtain ⟨p, hp, hpath⟩ := c.exists_pathOf
  exact ⟨Disk.lead cwd p,
    fun key => by rw [placeOf, hpath, Disk.lead_concat (isName_fileOf key) hp]⟩

/-- Every key has a place of its own. -/
theorem placeOf_injective {c : ModuleCache} {cwd : Bytes} {key key' : Digest}
    (h : c.placeOf cwd key = c.placeOf cwd key') : key = key' := by
  obtain ⟨names, hplace⟩ := c.exists_placeOf cwd
  rw [hplace, hplace] at h
  exact fileOf_injective (List.singleton_inj.mp (List.append_cancel_left h))

/-- No entry stands under a name of one or two bytes. -/
theorem placeOf_ne {name : Bytes} (hname : name.length < 3) (c : ModuleCache) (cwd : Bytes)
    (key : Digest) (names : List Bytes) : names ++ [name] ≠ c.placeOf cwd key := by
  obtain ⟨dirs, hplace⟩ := c.exists_placeOf cwd
  rw [hplace]
  intro h
  obtain rfl : name = fileOf key := (List.append_inj' h rfl).2 |> List.singleton_inj.mp
  exact Nat.not_le_of_lt hname (length_fileOf key)

theorem bare_pathOf (c : ModuleCache) (key : Digest) : Disk.bare (c.pathOf key) = c.pathOf key := by
  obtain ⟨p, -, hpath⟩ := c.exists_pathOf
  have hend : (".mp" : Bytes) = [46, 109] ++ [112] := by decide +kernel
  have hlast : c.pathOf key = p ++ Path.slash :: (key.text ++ [46, 109]) ++ [112] := by
    simp only [hpath, fileOf, hend, List.append_assoc, List.cons_append]
  rw [Disk.bare, hlast, Path.dropSlashes_concat (by decide), ite_self]

/-- Keeping an entry puts nothing on the disk but directories and the entry in its place, and this
only if it is possible. -/
theorem exists_put (c : ModuleCache) (key : Digest) (e : CacheEntry) (d : Disk) :
    ∃ d', Disk.Gains d d' ∧ (((c.put key e).run d).2 = d'
      ∨ d'.entry? (c.placeOf d.cwd key) ≠ some .directory
        ∧ ((c.put key e).run d).2 = d'.setEntry (c.placeOf d.cwd key) (.file e.write)) := by
  have hmake : Disk.Gains d ((DiskM.mkdirAll (Path.dir (c.pathOf key))).run d).2 :=
    DiskM.spares_mkdirFrom _ _ d
  refine ⟨_, hmake, ?_⟩
  rcases DiskM.run_bind (DiskM.mkdirAll (Path.dir (c.pathOf key)))
    (fun _ => DiskM.writeFile (c.pathOf key) e.write) d with h | ⟨_, h⟩
  · exact .inl h
  · rcases DiskM.writeFile_run (c.pathOf key) e.write
      ((DiskM.mkdirAll (Path.dir (c.pathOf key))).run d).2 with hw | ⟨hfree, hw⟩
    · exact .inl (h.trans hw)
    · rw [bare_pathOf, hmake.cwd] at hfree hw
      exact .inr ⟨hfree, h.trans hw⟩

/-- What stands on the disk after an entry was kept: the entry in its place, if it could be kept,
and no other file that was not there before. -/
theorem entry?_put {c : ModuleCache} {key : Digest} {e : CacheEntry} {d : Disk}
    {names : List Bytes} {content : Bytes}
    (h : Disk.entry? ((c.put key e).run d).2 names = some (.file content)) :
    d.entry? names = some (.file content)
      ∨ names = c.placeOf d.cwd key ∧ content = e.write := by
  obtain ⟨d', hgains, hput | ⟨-, hput⟩⟩ := c.exists_put key e d
  · exact .inl (hgains.file (hput ▸ h))
  · rw [hput] at h
    by_cases hn : names = c.placeOf d.cwd key
    · refine .inr ⟨hn, ?_⟩
      rw [hn, Disk.entry?_setEntry_self] at h
      split at h
      · cases h
      · cases h
        rfl
    · rw [Disk.entry?_setEntry_of_ne hn] at h
      exact .inl (hgains.file h)

theorem cwd_put (c : ModuleCache) (key : Digest) (e : CacheEntry) (d : Disk) :
    ((c.put key e).run d).2.cwd = d.cwd := by
  obtain ⟨d', hgains, hput | ⟨-, hput⟩⟩ := c.exists_put key e d
  · exact hput ▸ hgains.cwd
  · exact hput ▸ hgains.cwd

/-- What stands elsewhere stays when an entry is kept, and so do directories. -/
theorem entry?_put_of_ne {c : ModuleCache} {key : Digest} {d : Disk} {names : List Bytes}
    {x : DiskEntry} (e : CacheEntry) (h : d.entry? names = some x)
    (hne : names ≠ c.placeOf d.cwd key ∨ x = .directory) :
    Disk.entry? ((c.put key e).run d).2 names = some x := by
  obtain ⟨d', hgains, hput | ⟨hfree, hput⟩⟩ := c.exists_put key e d
  · exact hput ▸ hgains.stays h
  · have hn : names ≠ c.placeOf d.cwd key := by
      rcases hne with hn | rfl
      · exact hn
      · exact fun hn => hfree (hn ▸ hgains.stays h)
    rw [hput, Disk.entry?_setEntry_of_ne hn]
    exact hgains.stays h

/-- A file that does not stand in the place of an entry is read as before when the entry is kept. -/
theorem readFile_put {c : ModuleCache} {key : Digest} {d : Disk} {path content : Bytes}
    (e : CacheEntry) (h : d.readFile path = .ok content)
    (hne : Disk.lead d.cwd path ≠ c.placeOf d.cwd key) :
    ((c.put key e).run d).2.readFile path = .ok content :=
  Disk.readFile_of_directories (fun hdir => entry?_put_of_ne e hdir (.inr rfl))
    (cwd_put c key e d) (entry?_put_of_ne e (Disk.entry?_of_readFile h) (.inl hne)) h

end ModuleCache

end WastForge
