import Mathlib.Data.List.Nodup
import WastForge.Proofs.Workflow.Batch
import WastForge.Proofs.Workflow.Place
import WastForge.Workflow.Build

/-!
# What a build leaves behind

Without an output directory a module stands next to its document. Otherwise the place of the
document below the base directory is found again under the output directory, and a document that
does not lie there has its module right in the output directory. So two modules meet if their
documents differ in nothing but the extension, or if both stand right in the output directory under
one name, and in no other case.

A build writes one module after the other. Where every document has its module written, each of them
stands in its place in the end, unless a later one was written to the same place: so all artifacts
hold their own texts just if no two modules that differ meet.
-/

namespace WastForge

namespace Path

/-! ## The last component of a clean path -/

variable {p : Bytes}

theorem cleanComponents_ofComponents {rooted : Bool} {acc : List Bytes} (h : Settled rooted acc) :
    cleanComponents (ofComponents rooted acc.reverse) = acc.reverse := by
  rw [cleanComponents, isAbsolute_ofComponents fun c hc => h.mem c (List.mem_reverse.mp hc),
    foldl_ofComponents h]

theorem clean_ofComponents {rooted : Bool} {acc : List Bytes} (h : Settled rooted acc) :
    clean (ofComponents rooted acc.reverse) = ofComponents rooted acc.reverse := by
  rw [clean, cleanComponents_ofComponents h,
    isAbsolute_ofComponents fun c hc => h.mem c (List.mem_reverse.mp hc)]

theorem ofComponents_concat {rooted : Bool} {cs : List Bytes} (hcs : cs ≠ []) (c : Bytes) :
    ofComponents rooted (cs ++ [c]) = ofComponents rooted cs ++ slash :: c := by
  rw [ofComponents, Bytes.join_concat hcs, ofComponents, List.isEmpty_eq_false_iff.mpr hcs]
  cases rooted <;> simp

/-- A clean path is one component, or one below the root or below another clean path. -/
theorem exists_last (h : clean p = p) : ∃ c, slash ∉ c ∧ (p = c ∨ p = slash :: c
    ∨ ∃ q, clean q = q ∧ cleanComponents q ≠ [] ∧ p = q ++ slash :: c) := by
  have hp : p = ofComponents (isAbsolute p) (cleanComponents p) := h.symm
  have hs : Settled (isAbsolute p) (cleanComponents p).reverse := by
    rw [cleanComponents, List.reverse_reverse]
    exact settled_foldl trivial (components_mem p)
  rcases List.eq_nil_or_concat (cleanComponents p) with hcs | ⟨front, c, hcs⟩
  · rw [hcs] at hp
    cases habs : isAbsolute p with
    | true =>
      rw [habs] at hp
      exact ⟨[], List.not_mem_nil, .inr (.inl hp)⟩
    | false =>
      rw [habs] at hp
      exact ⟨".", by decide +kernel, .inl hp⟩
  · rw [List.concat_eq_append] at hcs
    have hc := (cleanComponents_mem p c (by simp [hcs])).2
    refine ⟨c, hc, ?_⟩
    by_cases hfront : front = []
    · rw [hcs, hfront, List.nil_append, ofComponents, Bytes.join_singleton] at hp
      cases habs : isAbsolute p with
      | true => exact .inr (.inl (hp.trans (if_pos habs)))
      | false => exact .inl (hp.trans (if_neg (by simp [habs])))
    · rw [hcs, List.reverse_append, List.reverse_singleton, List.singleton_append] at hs
      have hq := cleanComponents_ofComponents hs.2.2
      have hclean := clean_ofComponents hs.2.2
      rw [List.reverse_reverse] at hq hclean
      refine .inr (.inr ⟨ofComponents (isAbsolute p) front, hclean, by rwa [hq], ?_⟩)
      rw [← ofComponents_concat hfront, ← hcs]
      exact hp

/-- A clean path whose last component is a name. -/
structure EndsInName (p : Bytes) : Prop where
  clean : clean p = p
  isName : IsName (base p)
  components : ∃ front, cleanComponents p = front ++ [base p]

theorem endsInName_single {c : Bytes} (h : IsName c) (rooted : Bool) :
    EndsInName (ofComponents rooted [c]) := by
  have hsettled : Settled rooted [c] :=
    ⟨⟨h.ne_nil, h.slash, h.ne_dot⟩, fun he => absurd he h.ne_up, trivial⟩
  have hbase : base (ofComponents rooted [c]) = c := by
    rw [ofComponents, Bytes.join_singleton]
    cases rooted with
    | true => exact base_concat h.ne_nil h.slash []
    | false => exact base_of_slash_not_mem h.ne_nil h.slash
  have hcomponents := cleanComponents_ofComponents hsettled
  rw [List.reverse_singleton] at hcomponents
  refine ⟨clean_ofComponents hsettled, hbase.symm ▸ h, [], ?_⟩
  rw [hcomponents, hbase, List.nil_append]

theorem endsInName_concat {c q : Bytes} (h : IsName c) (hq : clean q = q)
    (hcs : cleanComponents q ≠ []) : EndsInName (q ++ slash :: c) := by
  have hbase : base (q ++ slash :: c) = c := base_concat h.ne_nil h.slash q
  have hne : q ≠ [] := fun he => hcs (by rw [he]; rfl)
  exact ⟨by rw [clean_concat h hcs, hq], hbase.symm ▸ h, cleanComponents q,
    by rw [hbase, cleanComponents_concat h hne]⟩

theorem EndsInName.eq_of_append {front : List Bytes} {c : Bytes} (h : EndsInName p)
    (hc : cleanComponents p = front ++ [c]) : c = base p := by
  obtain ⟨front', hfront⟩ := h.components
  exact List.singleton_inj.mp (List.append_inj' (hc.symm.trans hfront) rfl).2

/-- Names below a directory are its last components. -/
theorem cleanComponents_join {down : List Bytes} (hp : p ≠ []) (hdown : ∀ c ∈ down, IsName c) :
    cleanComponents (join [p, ofComponents false down]) = cleanComponents p ++ down := by
  have hfold (acc : List Bytes) :
      down.foldl (step (isAbsolute p)) acc = down.reverse ++ acc := by
    induction down generalizing acc with
    | nil => rfl
    | cons c rest ih =>
      rw [List.foldl_cons, step_name (hdown c List.mem_cons_self),
        ih fun d hd => hdown d (List.mem_cons_of_mem c hd), List.reverse_cons, List.append_assoc,
        List.singleton_append]
  have hmem : ∀ c ∈ down, c ≠ [] ∧ slash ∉ c := fun c hc =>
    ⟨(hdown c hc).ne_nil, (hdown c hc).slash⟩
  have hcomponents : (components (p ++ slash :: ofComponents false down)).foldl
      (step (isAbsolute p)) [] = down.reverse ++ (components p).foldl (step (isAbsolute p)) [] := by
    rw [components, Bytes.splitOn_append_sep, List.filter_append, List.foldl_append, ← components,
      ← components]
    by_cases hnil : down = []
    · subst hnil
      rfl
    · rw [components_ofComponents hnil hmem, hfold]
  have hne : ofComponents false down ≠ [] := ofComponents_ne_nil fun c hc => (hmem c hc).1
  rw [join_pair hne, if_neg hp, cleanComponents_clean, cleanComponents, isAbsolute_concat hp,
    hcomponents, List.reverse_append, List.reverse_reverse, cleanComponents]

/-! ## Relative paths -/

theorem Settled.ne_dot {rooted : Bool} {acc : List Bytes} (h : Settled rooted acc) :
    ∀ c ∈ acc, c ≠ "." := by
  induction acc with
  | nil => exact fun _ hc => absurd hc List.not_mem_nil
  | cons c rest ih => exact List.forall_mem_cons.mpr ⟨h.1.2.2, ih h.2.2⟩

/-- In front of a step up there are only such steps. -/
theorem Settled.eq_up {rooted : Bool} {behind front : List Bytes}
    (h : Settled rooted (behind ++ (".." : Bytes) :: front)) : ∀ c ∈ front, c = ".." := by
  induction behind with
  | nil => exact (h.2.1 rfl).2
  | cons c rest ih => exact ih h.2.2

theorem dropShared_spec (as bs : List Bytes) : ∃ shared,
    as = shared ++ (dropShared as bs).1 ∧ bs = shared ++ (dropShared as bs).2 := by
  induction as generalizing bs with
  | nil => exact ⟨[], rfl, rfl⟩
  | cons a as ih =>
    cases bs with
    | nil => exact ⟨[], rfl, rfl⟩
    | cons b bs =>
      rw [dropShared]
      by_cases hab : a = b
      · obtain ⟨shared, has, hbs⟩ := ih bs
        rw [if_pos (beq_iff_eq.mpr hab)]
        exact ⟨a :: shared, congrArg (a :: ·) has, hab ▸ congrArg (a :: ·) hbs⟩
      · rw [if_neg (by simpa using hab)]
        exact ⟨[], rfl, rfl⟩

/-- A path leads up. -/
def LeadsUp (p : Bytes) : Prop := (Bytes.after? ".." p).isSome

theorem leadsUp_ofComponents (cs : List Bytes) : LeadsUp (ofComponents false (".." :: cs)) := by
  have hprefix : (".." : Bytes) <+: ofComponents false (".." :: cs) := by
    cases cs with
    | nil => simp [ofComponents, Bytes.join]
    | cons c rest => simp [ofComponents, Bytes.join, List.intercalate_cons_cons]
  rw [LeadsUp, Bytes.after?, if_pos (List.isPrefixOf_iff_prefix.mpr hprefix)]
  rfl

/-- A relative path leads up, unless it leads to a place below its start. -/
theorem relative?_cases {start target rel : Bytes} (h : EndsInName target)
    (hrel : relative? start target = some rel) : LeadsUp rel
      ∨ ∃ down, isAbsolute start = isAbsolute target
        ∧ cleanComponents target = cleanComponents start ++ down
        ∧ rel = ofComponents false down := by
  have hdot : (clean target == ".") = false := by
    rw [beq_eq_false_iff_ne, h.clean]
    intro he
    have hname := h.isName
    rw [he] at hname
    exact hname.ne_dot (by decide +kernel)
  rw [relative?] at hrel
  split at hrel
  · next hsame =>
    have hclean : clean start = clean target := eq_of_beq hsame
    refine .inr ⟨[], ?_, ?_, (Option.some.inj hrel).symm⟩
    · rw [← isAbsolute_clean, hclean, isAbsolute_clean]
    · rw [← cleanComponents_clean target, ← hclean, cleanComponents_clean, List.append_nil]
  split at hrel
  · cases hrel
  · next habsolute =>
    have habs : isAbsolute start = isAbsolute target := by simpa using habsolute
    rw [hdot, if_neg Bool.false_ne_true] at hrel
    obtain ⟨shared, hstart, htarget⟩ :=
      dropShared_spec (cleanComponents start) (cleanComponents target)
    rcases hboth : dropShared (cleanComponents start) (cleanComponents target) with ⟨up, down⟩
    rw [hboth] at hstart htarget
    simp only [hboth] at hrel
    split at hrel
    · cases hrel
    · obtain rfl := Option.some.inj hrel
      cases up with
      | nil =>
        rw [List.append_nil] at hstart
        exact .inr ⟨down, habs, hstart ▸ htarget, rfl⟩
      | cons c up => exact .inl (leadsUp_ofComponents _)

end Path

namespace Build

/-- The path of a module next to its document. -/
def nextTo (input : Bytes) : Bytes :=
  input.take (input.length - (Path.extension input).length) ++ ".wast"

/-- The path of a module below the output directory. -/
def below (base name : Bytes) : Bytes :=
  if base.isEmpty then Path.base name
  else
    match Path.relative? base name with
    | some rel =>
      if (Bytes.after? ".." rel).isSome || Path.isAbsolute rel then Path.base name else rel
    | none => Path.base name

theorem outputPath_eq (base outDir input : Bytes) : outputPath base outDir input
    = if outDir = [] then nextTo input else Path.join [outDir, below base (nextTo input)] := by
  cases outDir <;> rfl

/-- The ending of a module. -/
theorem isName_nextTo {c : Bytes} (h : Path.slash ∉ c) : Path.IsName (nextTo c) := by
  have hlength : 5 ≤ (nextTo c).length := by
    have hending : (".wast" : Bytes).length = 5 := by decide +kernel
    rw [nextTo, List.length_append, hending]
    exact Nat.le_add_left _ _
  have hne {d : Bytes} (hd : d.length < 5) : nextTo c ≠ d := fun he =>
    Nat.not_le_of_lt hd (he ▸ hlength)
  refine ⟨hne (by decide), fun hmem => ?_, hne (by decide +kernel), hne (by decide +kernel)⟩
  rcases List.mem_append.mp hmem with hmem | hmem
  · exact h (List.mem_of_mem_take hmem)
  · exact absurd hmem (by decide +kernel)

/-- From the last dot on, a path is its extension. -/
theorem extension_of_dot {p a b : Bytes} (hp : p.reverse = a ++ 46 :: b)
    (ha : ∀ x ∈ a, x ≠ Path.slash ∧ x ≠ 46) : Path.extension p = 46 :: a.reverse := by
  have htake : p.reverse.takeWhile (fun x => x != Path.slash && x != 46) = a := by
    rw [hp, List.takeWhile_append_of_pos fun x hx => by simpa using ha x hx]
    simp
  rw [Path.extension, htake, hp, List.drop_left]
  rfl

/-- A last component without a dot has no extension. -/
theorem extension_of_no_dot {p a b : Bytes} (hp : p.reverse = a ++ b)
    (ha : ∀ x ∈ a, x ≠ Path.slash ∧ x ≠ 46) (hb : b = [] ∨ ∃ q, b = Path.slash :: q) :
    Path.extension p = [] := by
  have htake : p.reverse.takeWhile (fun x => x != Path.slash && x != 46) = a := by
    rw [hp, List.takeWhile_append_of_pos fun x hx => by simpa using ha x hx]
    rcases hb with rfl | ⟨q, rfl⟩ <;> simp
  rw [Path.extension, htake, hp, List.drop_left]
  rcases hb with rfl | ⟨q, rfl⟩ <;> rfl

/-- The extension is that of the last component. -/
theorem extension_concat {c : Bytes} (h : Path.slash ∉ c) (q : Bytes) :
    Path.extension (q ++ Path.slash :: c) = Path.extension c := by
  have hreverse : (q ++ Path.slash :: c).reverse = c.reverse ++ Path.slash :: q.reverse := by simp
  by_cases hdot : 46 ∈ c.reverse
  · obtain ⟨a, b, hc, hfirst⟩ := List.eq_append_cons_of_mem hdot
    have ha : ∀ x ∈ a, x ≠ Path.slash ∧ x ≠ 46 := fun x hx =>
      ⟨fun he => h (List.mem_reverse.mp (hc ▸ List.mem_append_left _ (he ▸ hx))),
        fun he => hfirst (he ▸ hx)⟩
    rw [extension_of_dot hc ha, extension_of_dot (b := b ++ Path.slash :: q.reverse) _ ha]
    rw [hreverse, hc, List.append_assoc, List.cons_append]
  · have hc : ∀ x ∈ c.reverse, x ≠ Path.slash ∧ x ≠ 46 := fun x hx =>
      ⟨fun he => h (List.mem_reverse.mp (he ▸ hx)), fun he => hdot (he ▸ hx)⟩
    rw [extension_of_no_dot hreverse hc (.inr ⟨_, rfl⟩),
      extension_of_no_dot (List.append_nil _).symm hc (.inl rfl)]

theorem length_extension_le (c : Bytes) : (Path.extension c).length ≤ c.length := by
  have htake := List.takeWhile_sublist (fun x => x != Path.slash && x != 46) (l := c.reverse)
  rw [Path.extension]
  split
  · next hdrop =>
    have hlength := congrArg List.length hdrop
    rw [List.length_drop, List.length_reverse, List.length_cons] at hlength
    rw [List.length_cons, List.length_reverse]
    omega
  · exact Nat.zero_le _

theorem nextTo_concat {c : Bytes} (h : Path.slash ∉ c) (q : Bytes) :
    nextTo (q ++ Path.slash :: c) = q ++ Path.slash :: nextTo c := by
  have hle := length_extension_le c
  have hlength : (q ++ Path.slash :: c).length - (Path.extension c).length
      = q.length + (c.length - (Path.extension c).length + 1) := by
    rw [List.length_append, List.length_cons]
    omega
  rw [nextTo, extension_concat h, hlength, List.take_length_add_append, List.take_succ_cons,
    List.append_assoc, List.cons_append, nextTo]

/-- The module next to a document whose path is clean has a clean path with a name at its end. -/
theorem endsInName_nextTo {p : Bytes} (h : Path.clean p = p) : Path.EndsInName (nextTo p) := by
  obtain ⟨c, hc, rfl | rfl | ⟨q, hq, hcs, rfl⟩⟩ := Path.exists_last h
  · have hsingle := Path.endsInName_single (isName_nextTo hc) false
    rwa [Path.ofComponents, Bytes.join_singleton] at hsingle
  · have hsingle := Path.endsInName_single (isName_nextTo hc) true
    rw [Path.ofComponents, Bytes.join_singleton] at hsingle
    exact nextTo_concat hc [] ▸ hsingle
  · exact nextTo_concat hc q ▸ Path.endsInName_concat (isName_nextTo hc) hq hcs

/-- A module goes right into the output directory, or to where it is seen from the base directory,
which is a place below that. -/
theorem below_cases {name : Bytes} (h : Path.EndsInName name) (base : Bytes) :
    below base name = Path.base name
      ∨ ∃ down, (∀ c ∈ down, Path.IsName c) ∧ Path.isAbsolute base = Path.isAbsolute name
        ∧ Path.cleanComponents name = Path.cleanComponents base ++ down
        ∧ below base name = Path.ofComponents false down := by
  rw [below]
  split
  · exact .inl rfl
  cases hrel : Path.relative? base name with
  | none => exact .inl rfl
  | some rel =>
    dsimp only
    split
    · exact .inl rfl
    · next hcond =>
      rw [Bool.or_eq_true, not_or] at hcond
      obtain ⟨down, habs, hdown, rfl⟩ := (Path.relative?_cases h hrel).resolve_left hcond.1
      refine .inr ⟨down, fun c hc => ?_, habs, hdown, rfl⟩
      have hmem : c ∈ Path.cleanComponents name := hdown ▸ List.mem_append_right _ hc
      have hsettled : Path.Settled (Path.isAbsolute name) (Path.cleanComponents name).reverse := by
        rw [Path.cleanComponents, List.reverse_reverse]
        exact Path.settled_foldl trivial (Path.components_mem name)
      obtain ⟨hne, hslash⟩ := Path.cleanComponents_mem name c hmem
      refine ⟨hne, hslash, hsettled.ne_dot c (List.mem_reverse.mpr hmem), fun hup => ?_⟩
      -- A step up would be the first one already, and then the path leads up.
      obtain ⟨front, behind, rfl⟩ := List.append_of_mem (hup ▸ hc)
      rw [hdown, List.reverse_append, List.reverse_append, List.reverse_cons, List.append_assoc,
        List.append_assoc, List.singleton_append] at hsettled
      have hfront := hsettled.eq_up
      cases front with
      | nil => exact hcond.1 (Path.leadsUp_ofComponents behind)
      | cons d front =>
        have hd : d = ".." := hfront d (by simp)
        rw [hd] at hcond
        exact hcond.1 (Path.leadsUp_ofComponents _)

/-- A module goes right into the output directory, under its own name. -/
def Flat (base outDir input : Bytes) : Prop :=
  outputPath base outDir input = Path.join [outDir, Path.base (nextTo input)]

/-- What leads to a module from the output directory on. -/
theorem exists_down {name : Bytes} (h : Path.EndsInName name) (base : Bytes) :
    ∃ down, (∀ c ∈ down, Path.IsName c) ∧ below base name = Path.ofComponents false down
      ∧ (∀ c, down = [c] → c = Path.base name)
      ∧ (down = [Path.base name] ∨ Path.isAbsolute base = Path.isAbsolute name
        ∧ Path.cleanComponents name = Path.cleanComponents base ++ down) := by
  rcases below_cases h base with hflat | ⟨down, hnames, habs, hdown, hbelow⟩
  · refine ⟨[Path.base name], List.forall_mem_singleton.mpr h.isName, ?_, fun c hc => ?_, .inl rfl⟩
    · rw [hflat, Path.ofComponents, Bytes.join_singleton]
      rfl
    · exact (List.singleton_inj.mp hc).symm
  · exact ⟨down, hnames, hbelow, fun c hc => h.eq_of_append (hc ▸ hdown), .inr ⟨habs, hdown⟩⟩

/-- Modules of documents meet just if they have the same name next to their documents, or the same
last name right in the output directory. -/
theorem outputPath_eq_iff {p q : Bytes} (hp : Path.clean p = p) (hq : Path.clean q = q)
    (base outDir : Bytes) : outputPath base outDir p = outputPath base outDir q ↔
      nextTo p = nextTo q ∨ outDir ≠ [] ∧ Flat base outDir p ∧ Flat base outDir q
        ∧ Path.base (nextTo p) = Path.base (nextTo q) := by
  constructor
  · intro h
    by_cases hout : outDir = []
    · rw [outputPath_eq, outputPath_eq, if_pos hout, if_pos hout] at h
      exact .inl h
    have hendp := endsInName_nextTo hp
    have hendq := endsInName_nextTo hq
    obtain ⟨down, hnames, hbelow, hlast, hcases⟩ := exists_down hendp base
    obtain ⟨down', hnames', hbelow', hlast', hcases'⟩ := exists_down hendq base
    have hpathp := outputPath_eq base outDir p
    have hpathq := outputPath_eq base outDir q
    rw [if_neg hout, hbelow] at hpathp
    rw [if_neg hout, hbelow'] at hpathq
    obtain rfl : down = down' := by
      have hcomponents := congrArg Path.cleanComponents (hpathp.symm.trans (h.trans hpathq))
      rw [Path.cleanComponents_join hout hnames, Path.cleanComponents_join hout hnames']
        at hcomponents
      exact List.append_cancel_left hcomponents
    have hflat {c : Bytes} (hc : down = [c]) : Flat base outDir p ∧ Flat base outDir q
        ∧ Path.base (nextTo p) = Path.base (nextTo q) := by
      have hspell : Path.ofComponents false down = c := by
        rw [hc, Path.ofComponents, Bytes.join_singleton]
        rfl
      refine ⟨?_, ?_, (hlast c hc).symm.trans (hlast' c hc)⟩
      · rw [Flat, hpathp, hspell, hlast c hc]
      · rw [Flat, hpathq, hspell, hlast' c hc]
    rcases hcases with hc | ⟨habs, hdown⟩
    · exact .inr ⟨hout, hflat hc⟩
    rcases hcases' with hc | ⟨habs', hdown'⟩
    · exact .inr ⟨hout, hflat hc⟩
    · refine .inl ?_
      rw [← hendp.clean, ← hendq.clean, Path.clean, Path.clean, hdown, hdown', ← habs, ← habs']
  · rintro (h | ⟨-, hflatp, hflatq, hbase⟩)
    · rw [outputPath_eq, outputPath_eq, h]
    · rw [hflatp, hflatq, hbase]

end Build

/-! ## Inputs -/

namespace Inputs

theorem nodup_eraseDups : ∀ l : List Bytes, l.eraseDups.Nodup
  | [] => List.nodup_nil
  | a :: l => by
    rw [List.eraseDups_cons, List.nodup_cons]
    exact ⟨by simp, nodup_eraseDups _⟩
  termination_by l => l.length
  decreasing_by exact Nat.lt_succ_of_le (List.length_filter_le _ _)

theorem exists_of_mapM {α β ε : Type} {f : α → Except ε β} {l : List α} {rs : List β}
    (h : l.mapM f = .ok rs) : ∀ r ∈ rs, ∃ a ∈ l, f a = .ok r := by
  induction l generalizing rs with
  | nil =>
    obtain rfl := Except.ok.inj h
    exact fun _ h => absurd h List.not_mem_nil
  | cons a rest ih =>
    rw [List.mapM_cons] at h
    cases hfirst : f a with
    | error e =>
      rw [hfirst] at h
      cases h
    | ok r =>
      cases hrest : rest.mapM f with
      | error e =>
        rw [hfirst, hrest] at h
        cases h
      | ok more =>
        rw [hfirst, hrest] at h
        obtain rfl := Except.ok.inj h
        refine List.forall_mem_cons.mpr ⟨⟨a, List.mem_cons_self, hfirst⟩, fun x hx => ?_⟩
        obtain ⟨b, hb, hbx⟩ := ih hrest x hx
        exact ⟨b, List.mem_cons_of_mem a hb, hbx⟩

/-- What is found at and below a path has clean paths. -/
theorem clean_ofRoot {d : Disk} {root : Bytes} {paths : List Bytes}
    (h : ofRoot d root = .ok paths) : ∀ p ∈ paths, Path.clean p = p := by
  rw [ofRoot] at h
  cases hstat : d.stat root with
  | error e =>
    rw [hstat] at h
    cases h
  | ok entry =>
    rw [hstat] at h
    cases entry with
    | file content =>
      obtain rfl := Except.ok.inj h
      exact List.forall_mem_singleton.mpr (Path.clean_clean root)
    | directory =>
      have hroot : root ≠ [] := by
        rintro rfl
        cases hstat
      dsimp only [bind, Except.bind] at h
      cases hloc : d.locate root with
      | error cause =>
        rw [hloc] at h
        cases h
      | ok names =>
        rw [hloc] at h
        obtain rfl := Except.ok.inj h
        intro p hp
        obtain ⟨⟨below, content⟩, -, hpath⟩ := List.mem_filterMap.mp hp
        dsimp only at hpath
        split at hpath
        · obtain rfl := Option.some.inj hpath
          rw [Path.join, List.filter_cons_of_pos (by simpa using hroot)]
          exact Path.clean_clean _
        · cases hpath

/-- The inputs of a build are told apart, and have clean paths. -/
theorem list_ok {d : Disk} {roots paths : List Bytes} (h : list d roots = .ok paths) :
    paths.Nodup ∧ ∀ p ∈ paths, Path.clean p = p := by
  rw [list] at h
  cases hfound : roots.mapM (ofRoot d) with
  | error e =>
    rw [hfound] at h
    cases h
  | ok found =>
    rw [hfound] at h
    obtain rfl := Except.ok.inj h
    refine ⟨(List.mergeSort_perm _ _).nodup_iff.mpr (nodup_eraseDups _), fun p hp => ?_⟩
    rw [Bytes.sort, List.mem_mergeSort, List.mem_eraseDups] at hp
    obtain ⟨ps, hps, hp⟩ := List.mem_flatten.mp hp
    obtain ⟨root, -, hroot⟩ := exists_of_mapM hfound ps hps
    exact clean_ofRoot hroot p hp

end Inputs

/-- A batch that was not called off has a result for every path. -/
theorem Batch.length_results {o : BatchOptions} {paths : List Bytes} {results : List FileResult}
    {s : Session} (h : ((compileFiles o paths).run s).1.results = .ok results) :
    results.length = paths.length := by
  cases hc : o.cancelled with
  | true =>
    cases paths with
    | nil =>
      obtain rfl := Except.ok.inj h
      rfl
    | cons path rest =>
      have hrun : ((compileFiles o (path :: rest)).run s).1.results = .error cancelFailure := by
        rw [compileFiles, if_neg (by simp), hc]
        rfl
      rw [hrun] at h
      cases h
  | false =>
    rw [results_compileFiles hc] at h
    cases hcrash : BatchM.crash? (along o paths s (oneByOne paths.length)).1 with
    | some how =>
      rw [hcrash] at h
      cases h
    | none =>
      rw [hcrash] at h
      obtain rfl := Except.ok.inj h
      have hover : Over (along o paths s (oneByOne paths.length)).1 :=
        over_along (fun _ hi => count_oneByOne hi) hcrash
      have hresults : List.Forall₂ (fun _ _ => True) paths
          (results (along o paths s (oneByOne paths.length)).1) :=
        forall₂_results length_along hover fun _ _ _ => True.intro
      exact hresults.length_eq.symm

/-! ## Writing a module -/

/-- A text was written to a path: it is read back, directories stay, and so do all other files. -/
structure Disk.Wrote (path text : Bytes) (d d' : Disk) : Prop where
  cwd : d'.cwd = d.cwd
  directory : ∀ {names}, d.entry? names = some .directory → d'.entry? names = some .directory
  file : ∀ {names content}, names ≠ lead d.cwd path → d.entry? names = some (.file content) →
    d'.entry? names = some (.file content)
  read : d'.readFile path = .ok text

namespace DiskM

variable {path text : Bytes} {d d' : Disk}

theorem bare_eq_self (h : Disk.endsInSlash path = false) : Disk.bare path = path := by
  rcases List.eq_nil_or_concat path with rfl | ⟨front, b, hpath⟩
  · rfl
  · rw [List.concat_eq_append] at hpath
    have hb : b ≠ Path.slash := fun hb => by
      rw [hpath, hb, Disk.endsInSlash, List.getLast?_concat] at h
      simp at h
    rw [hpath, Disk.bare, Path.dropSlashes_concat hb, ite_self]

theorem wrote_writeFile (h : (writeFile path text).run d = (.ok (), d')) :
    Disk.Wrote path text d d' := by
  rw [writeFile, run_get] at h
  split at h
  · next names hw =>
    obtain ⟨hloc, hfree, hslash⟩ := Disk.writable_eq_ok hw
    rw [bare_eq_self hslash] at hloc
    have hnames := Disk.eq_of_locate hloc
    obtain rfl : d.setEntry names (.file text) = d' := congrArg Prod.snd h
    have hdirectory : ∀ {other}, d.entry? other = some .directory →
        Disk.entry? (d.setEntry names (.file text)) other = some .directory := by
      intro other hother
      have hne : other ≠ names := fun he => hfree (he ▸ hother)
      rwa [Disk.entry?_setEntry_of_ne hne]
    refine ⟨rfl, hdirectory, fun hne he => ?_, ?_⟩
    · rwa [Disk.entry?_setEntry_of_ne (hnames ▸ hne)]
    · refine Disk.readFile_eq_ok.mpr ⟨names, Disk.locate_of_directories hdirectory rfl hloc, ?_⟩
      have hroot : names.isEmpty = false := by
        rw [List.isEmpty_eq_false_iff]
        rintro rfl
        exact hfree rfl
      rw [Disk.entry?_setEntry_self, hroot, if_neg Bool.false_ne_true]
  · cases congrArg Prod.fst h

end DiskM

/-- What is read stays so, unless something else is written to where its path leads. -/
theorem Disk.Wrote.read_stays {path text other content : Bytes} {d d' : Disk}
    (h : Disk.Wrote path text d d') (hread : d.readFile other = .ok content)
    (hsame : lead d.cwd path = lead d.cwd other → text = content) :
    d'.readFile other = .ok content := by
  refine readFile_of_directories h.directory h.cwd ?_ hread
  by_cases hlead : lead d.cwd path = lead d.cwd other
  · have hentry := entry?_of_readFile h.read
    rw [h.cwd, hlead, hsame hlead] at hentry
    exact hentry
  · exact h.file (Ne.symm hlead) (entry?_of_readFile hread)

theorem Disk.Gains.wrote {path text : Bytes} {d d₁ d₂ : Disk} (h : Gains d d₁)
    (hwrote : Wrote path text d₁ d₂) : Wrote path text d d₂ where
  cwd := hwrote.cwd.trans h.cwd
  directory he := hwrote.directory (h.stays he)
  file hne he := hwrote.file (h.cwd ▸ hne) (h.stays he)
  read := hwrote.read

namespace Build

variable {req : BuildRequest} {path text : Bytes} {s : Session}

theorem run_bind {α β : Type} (act : SessionM α) (next : α → SessionM β) (s : Session) :
    (act >>= next).run s = (next (act.run s).1).run (act.run s).2 := rfl

theorem wrote_writeModule (h : ((writeModule path text).run s).1 = .ok ()) :
    Disk.Wrote path text s.disk ((writeModule path text).run s).2.disk := by
  have hmake : Disk.Gains s.disk ((DiskM.mkdirAll (Path.dir path)).run s.disk).2 :=
    DiskM.spares_mkdirFrom _ _ s.disk
  rw [writeModule, run_bind] at h ⊢
  split at h
  · cases h
  rw [run_bind] at h ⊢
  split at h
  · cases h
  · next hwrite =>
    exact hmake.wrote (DiskM.wrote_writeFile (Prod.ext hwrite rfl))

/-! ## Writing all modules -/

/-- Modules of artifacts were written one after the other. -/
inductive Written (req : BuildRequest) : Disk → List Artifact → Disk → Prop where
  | nil (d : Disk) : Written req d [] d
  | cons {a : Artifact} {rest : List Artifact} {m : ModuleOutput} {d d₁ d₂ : Disk}
    (output : a.output = outputPath req.base req.outDir a.input)
    (outcome : a.result.outcome = .ok m)
    (first : Disk.Wrote a.output m.text d d₁) (more : Written req d₁ rest d₂) :
    Written req d (a :: rest) d₂

namespace Written

variable {d d' : Disk} {as : List Artifact}

theorem cwd (h : Written req d as d') : d'.cwd = d.cwd := by
  induction h with
  | nil => rfl
  | cons _ _ first _ ih => exact ih.trans first.cwd

theorem mem (h : Written req d as d') : ∀ a ∈ as,
    a.output = outputPath req.base req.outDir a.input ∧ ∃ m, a.result.outcome = .ok m := by
  induction h with
  | nil => exact fun _ h => absurd h List.not_mem_nil
  | cons output outcome _ _ ih => exact List.forall_mem_cons.mpr ⟨⟨output, _, outcome⟩, ih⟩

/-- What is read stays so, unless a module with another text is written to where its path leads. -/
theorem read_stays (h : Written req d as d') {path content : Bytes}
    (hread : d.readFile path = .ok content)
    (hsame : ∀ a ∈ as, Disk.lead d.cwd a.output = Disk.lead d.cwd path →
      ∀ m, a.result.outcome = .ok m → m.text = content) : d'.readFile path = .ok content := by
  induction h with
  | nil => exact hread
  | cons output outcome first _ ih =>
    obtain ⟨hfirst, hrest⟩ := List.forall_mem_cons.mp hsame
    exact ih (first.read_stays hread fun hlead => hfirst hlead _ outcome)
      fun b hb hlead => hrest b hb (first.cwd ▸ hlead)

/-- All modules are read back just if those that meet have the same text. -/
theorem read_iff (h : Written req d as d') :
    (∀ a ∈ as, ∀ m, a.result.outcome = .ok m → d'.readFile a.output = .ok m.text)
      ↔ ∀ a ∈ as, ∀ b ∈ as, Disk.lead d'.cwd a.output = Disk.lead d'.cwd b.output →
        ∀ m n, a.result.outcome = .ok m → b.result.outcome = .ok n → m.text = n.text := by
  constructor
  · intro hread a ha b hb hlead m n hm hn
    have hentry := Disk.entry?_of_readFile (hread a ha m hm)
    rw [hlead, Disk.entry?_of_readFile (hread b hb n hn)] at hentry
    exact (DiskEntry.file.inj (Option.some.inj hentry)).symm
  · intro hsame
    rw [h.cwd] at hsame
    induction h with
    | nil => exact fun _ h => absurd h List.not_mem_nil
    | @cons a rest m d d₁ d₂ output outcome first more ih =>
      refine List.forall_mem_cons.mpr ⟨fun n hn => ?_, ih ?_⟩
      · refine more.read_stays (Except.ok.inj (outcome.symm.trans hn) ▸ first.read) ?_
        rw [first.cwd]
        exact fun b hb hlead k hk =>
          hsame b (List.mem_cons_of_mem a hb) a List.mem_cons_self hlead k n hk hn
      · rw [first.cwd]
        exact fun b hb c hc => hsame b (List.mem_cons_of_mem a hb) c (List.mem_cons_of_mem a hc)

end Written

/-- A document has its module written, or its artifact says that it failed. -/
theorem settle_cases (req : BuildRequest) (cwd input : Bytes) (r : FileResult) (s : Session) :
    ((settle req cwd input r).run s).1.input = input
      ∧ (((settle req cwd input r).run s).1.result.failed = true
        ∨ ∃ m, ((settle req cwd input r).run s).1.output = outputPath req.base req.outDir input
          ∧ ((settle req cwd input r).run s).1.result.outcome = .ok m
          ∧ Disk.Wrote (outputPath req.base req.outDir input) m.text s.disk
            ((settle req cwd input r).run s).2.disk) := by
  rw [settle]
  split
  · next f hf =>
    refine ⟨rfl, .inl ?_⟩
    show r.failed = true
    rw [FileResult.failed, hf]
  · next m hm =>
    rw [run_bind]
    split
    · exact ⟨rfl, .inl rfl⟩
    · next hwrite => exact ⟨rfl, .inr ⟨m, rfl, hm, wrote_writeModule hwrite⟩⟩

/-- Write the modules of all documents. -/
def settleAll (req : BuildRequest) (cwd : Bytes) (files : List (Bytes × FileResult)) :
    SessionM (List Artifact) := files.mapM fun (input, r) => settle req cwd input r

/-- Documents none of which failed have their modules written one after the other. -/
theorem written_settleAll {cwd : Bytes} {files : List (Bytes × FileResult)} {s : Session}
    (h : ∀ a ∈ ((settleAll req cwd files).run s).1, a.result.failed = false) :
    ((settleAll req cwd files).run s).1.map Artifact.input = files.map Prod.fst
      ∧ Written req s.disk ((settleAll req cwd files).run s).1
        ((settleAll req cwd files).run s).2.disk := by
  induction files generalizing s with
  | nil => exact ⟨rfl, .nil s.disk⟩
  | cons file rest ih =>
    obtain ⟨input, r⟩ := file
    rw [settleAll, List.mapM_cons, run_bind, run_bind] at h ⊢
    obtain ⟨hfirst, hrest⟩ := List.forall_mem_cons.mp h
    obtain ⟨hinput, hcases⟩ := settle_cases req cwd input r s
    obtain ⟨m, houtput, houtcome, hwrote⟩ := hcases.resolve_left (Bool.not_eq_true _ ▸ hfirst)
    obtain ⟨hinputs, hwritten⟩ := ih hrest
    refine ⟨congrArg₂ List.cons hinput hinputs, .cons ?_ houtcome ?_ hwritten⟩
    · rw [houtput, hinput]
    · rw [houtput]
      exact hwrote

/-! ## Whole builds -/

/-- What a build does with the results of its documents. -/
def conclude (req : BuildRequest) (cwd : Bytes) (files paths : List Bytes)
    (results : List FileResult) : SessionM BuildOutcome := do
  let artifacts ← settleAll req cwd (paths.zip results)
  let failed := artifacts.countP (·.result.failed)
  let failure := if failed = 0 then none else some (failure failed paths.length)
  SessionM.tellAll [] .write (if failed = 0 then .done else .error) failure
  return {
    artifacts := artifacts
    files := files
    failed := failed
    stages := (({} : StageTimes).set .emit 0).set .write 0
    timing := .merge (results.map (·.timing))
    failure := failure }

theorem written_conclude {cwd : Bytes} {files paths : List Bytes} {results : List FileResult}
    {s : Session} (hlength : results.length = paths.length)
    (h : ((conclude req cwd files paths results).run s).1.failure = none) :
    ((conclude req cwd files paths results).run s).1.artifacts.map Artifact.input = paths
      ∧ Written req s.disk ((conclude req cwd files paths results).run s).1.artifacts
        ((conclude req cwd files paths results).run s).2.disk := by
  have hcount : ((settleAll req cwd (paths.zip results)).run s).1.countP (·.result.failed) = 0 := by
    by_contra hne
    have hfailure : (if ((settleAll req cwd (paths.zip results)).run s).1.countP
        (·.result.failed) = 0 then none else some (failure _ paths.length)) = none := h
    rw [if_neg hne] at hfailure
    cases hfailure
  have hnone := List.countP_eq_zero.mp hcount
  obtain ⟨hinputs, hwritten⟩ := written_settleAll fun a ha => Bool.not_eq_true _ ▸ hnone a ha
  rw [List.map_fst_zip (Nat.le_of_eq hlength.symm)] at hinputs
  exact ⟨hinputs, hwritten⟩

end Build

namespace BuildRequest

variable {req : BuildRequest} {s : Session}

/-- A build that did not fail wrote the modules of all its inputs, one after the other. -/
theorem written_run (h : (req.run.run s).1.failure = none) :
    ∃ paths d, Inputs.list s.disk req.inputs = .ok paths
      ∧ (req.run.run s).1.artifacts.map Artifact.input = paths
      ∧ Build.Written req d (req.run.run s).1.artifacts (req.run.run s).2.disk := by
  rw [run, Build.run_bind] at h ⊢
  dsimp only at h ⊢
  split at h
  · cases h
  · cases h
  · next paths hne hlist =>
    rw [Build.run_bind, Build.run_bind, Build.run_bind] at h ⊢
    split at h
    · cases h
    · next results hresults =>
      exact ⟨paths, _, hlist, Build.written_conclude (Batch.length_results hresults) h⟩

/-- In a build, modules of documents meet just if the documents differ in nothing but the extension,
or if both modules go right into the output directory under one name. A build that did not fail had
a module for each of its inputs, which are told apart and have clean paths, and all modules are
there in the end just if those that meet have the same text. -/
theorem modules_meet (req : BuildRequest) :
    (∀ p q : Bytes, Path.clean p = p → Path.clean q = q →
      (Build.outputPath req.base req.outDir p = Build.outputPath req.base req.outDir q ↔
        Build.nextTo p = Build.nextTo q ∨ req.outDir ≠ [] ∧ Build.Flat req.base req.outDir p
          ∧ Build.Flat req.base req.outDir q
          ∧ Path.base (Build.nextTo p) = Path.base (Build.nextTo q)))
    ∧ ∀ s : Session, (req.run.run s).1.failure = none →
      ∃ paths, Inputs.list s.disk req.inputs = .ok paths
        ∧ paths.Nodup ∧ (∀ p ∈ paths, Path.clean p = p)
        ∧ (req.run.run s).1.artifacts.map Artifact.input = paths
        ∧ (∀ a ∈ (req.run.run s).1.artifacts,
          a.output = Build.outputPath req.base req.outDir a.input
            ∧ ∃ m, a.result.outcome = .ok m)
        ∧ ((∀ a ∈ (req.run.run s).1.artifacts, ∀ m, a.result.outcome = .ok m →
            (req.run.run s).2.disk.readFile a.output = .ok m.text)
          ↔ ∀ a ∈ (req.run.run s).1.artifacts, ∀ b ∈ (req.run.run s).1.artifacts,
            Disk.lead (req.run.run s).2.disk.cwd a.output
                = Disk.lead (req.run.run s).2.disk.cwd b.output →
              ∀ m n, a.result.outcome = .ok m → b.result.outcome = .ok n → m.text = n.text) := by
  refine ⟨fun p q hp hq => Build.outputPath_eq_iff hp hq req.base req.outDir, fun s h => ?_⟩
  obtain ⟨paths, d, hlist, hinputs, hwritten⟩ := written_run h
  obtain ⟨hnodup, hclean⟩ := Inputs.list_ok hlist
  exact ⟨paths, hlist, hnodup, hclean, hinputs, hwritten.mem, hwritten.read_iff⟩

/-- Two files with a document of nothing. -/
def twoFiles : Session where
  disk := { entries := [(["p.irmp"], .file Batch.bareDocument),
    (["q.irmp"], .file Batch.bareDocument)] }

def twoInputs : BuildRequest := { inputs := ["p.irmp", "q.irmp"], outDir := "out" }

-- Sorting is not evaluated by the kernel, so the two names are shown to be in order.
theorem sort_twoInputs : Bytes.sort ["p.irmp", "q.irmp"] = ["p.irmp", "q.irmp"] :=
  List.mergeSort_of_pairwise (by decide +kernel)

theorem list_twoInputs : Inputs.list twoFiles.disk twoInputs.inputs = .ok ["p.irmp", "q.irmp"] :=
  congrArg Except.ok sort_twoInputs

theorem failure_twoInputs : (twoInputs.run.run twoFiles).1.failure = none := by
  have hget : (StateT.run (get : SessionM Session) twoFiles).1 = twoFiles := rfl
  have hnames : Progress.displayNames twoFiles.disk.cwd twoInputs.base ["p.irmp", "q.irmp"]
      = ["p.irmp", "q.irmp"] := sort_twoInputs
  rw [run, Build.run_bind, hget]
  dsimp only
  rw [list_twoInputs]
  dsimp only
  rw [hnames]
  refine Option.isNone_iff_eq_none.mp ?_
  decide +kernel

/-- Below the base directory, modules are told apart by their places; and a build of two documents
leaves the module of each. -/
theorem modules_meet_apart :
    Build.outputPath "/w" "out" "/w/a/p.irmp" ≠ Build.outputPath "/w" "out" "/w/b/p.irmp"
      ∧ (twoInputs.run.run twoFiles).1.artifacts.map Artifact.input = ["p.irmp", "q.irmp"]
      ∧ ∀ a ∈ (twoInputs.run.run twoFiles).1.artifacts, ∀ m, a.result.outcome = .ok m →
        (twoInputs.run.run twoFiles).2.disk.readFile a.output = .ok m.text := by
  constructor
  · intro hsame
    rcases ((modules_meet { base := "/w", outDir := "out" }).1 "/w/a/p.irmp" "/w/b/p.irmp"
      (by decide +kernel) (by decide +kernel)).mp hsame with h | ⟨-, h, -, -⟩
    · exact absurd h (by decide +kernel)
    · exact absurd (show _ = _ from h) (by decide +kernel)
  · obtain ⟨paths, hlist, -, -, hinputs, hmem, hread⟩ :=
      (modules_meet twoInputs).2 twoFiles failure_twoInputs
    obtain rfl := Except.ok.inj (hlist.symm.trans list_twoInputs)
    refine ⟨hinputs, hread.mpr fun a ha b hb hmeet m n hm hn => ?_⟩
    obtain ⟨haout, -⟩ := hmem a ha
    obtain ⟨hbout, -⟩ := hmem b hb
    have hin {c : Artifact} (hc : c ∈ (twoInputs.run.run twoFiles).1.artifacts) :
        c.input ∈ (["p.irmp", "q.irmp"] : List Bytes) := hinputs ▸ List.mem_map_of_mem hc
    have hlead : ∀ p ∈ (["p.irmp", "q.irmp"] : List Bytes), ∀ cwd,
        Disk.lead cwd (Build.outputPath twoInputs.base twoInputs.outDir p)
          = Disk.lead cwd "out" ++ [Build.nextTo p] := by
      intro p hp cwd
      have hpath : Path.slash ∉ p ∧ Build.outputPath twoInputs.base twoInputs.outDir p
          = "out" ++ Path.slash :: Build.nextTo p := by
        revert p
        decide +kernel
      rw [hpath.2, Disk.lead_concat (Build.isName_nextTo hpath.1) (by decide)]
    have hsame : a.input = b.input := by
      rw [haout, hbout, hlead _ (hin ha), hlead _ (hin hb)] at hmeet
      have happart : ∀ p ∈ (["p.irmp", "q.irmp"] : List Bytes),
          ∀ q ∈ (["p.irmp", "q.irmp"] : List Bytes), Build.nextTo p = Build.nextTo q → p = q := by
        decide +kernel
      exact happart _ (hin ha) _ (hin hb) (List.singleton_inj.mp (List.append_cancel_left hmeet))
    have hnodup : ((twoInputs.run.run twoFiles).1.artifacts.map Artifact.input).Nodup :=
      hinputs ▸ by decide +kernel
    obtain rfl := List.inj_on_of_nodup_map hnodup ha hb hsame
    rw [Except.ok.inj (hm.symm.trans hn)]

/-- Two documents of one name in two directories: from an absolute base directory neither is found
below it, and both modules go to one file. -/
theorem modules_overwritten : ("a/p.irmp" : Bytes) ≠ "b/p.irmp"
    ∧ Path.clean "a/p.irmp" = "a/p.irmp" ∧ Path.clean "b/p.irmp" = "b/p.irmp"
    ∧ Build.outputPath "/w" "out" "a/p.irmp" = Build.outputPath "/w" "out" "b/p.irmp" := by
  decide +kernel

end BuildRequest

end WastForge
