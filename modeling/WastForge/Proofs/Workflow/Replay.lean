import WastForge.Proofs.Document.RoundTrip
import WastForge.Proofs.Emit.Slots
import WastForge.Proofs.Workflow.Cache
import WastForge.Workflow.Batch

/-!
# Diagnostics from the cache

An entry has the diagnostics that the run that kept it had room for. They come back in their order
and with the paths of their files, so a hit tells what a fresh compilation would tell if that run
turned none away. The ones that it turned away are lost, and so is their number.

A compilation that fails puts its error behind its warnings, so the bag has it just if the warnings
leave room. Else it is only counted, together with the warnings that there is no room for, and what
is in the bag are warnings.
-/

namespace WastForge

/-! ## Bags and filters -/

namespace Bag

variable (ds : List Diagnostic) (b : Bag)

/-- A bag keeps the first diagnostics, as many as it has room for. -/
theorem items_foldl_add :
    (ds.foldl add b).items = b.items ++ ds.take (b.capacity - b.items.length) := by
  induction ds generalizing b with
  | nil => simp
  | cons d rest ih =>
    rw [List.foldl_cons, ih, add, hasRoom]
    split
    · next h =>
      have hroom : b.capacity - b.items.length = b.capacity - (b.items ++ [d]).length + 1 := by
        simp only [decide_eq_true_eq, List.length_append, List.length_singleton] at h ⊢
        omega
      rw [hroom, List.take_succ_cons, List.append_assoc]
      rfl
    · next h =>
      have hfull : b.capacity - b.items.length = 0 := by
        simp only [decide_eq_true_eq] at h
        omega
      rw [hfull, List.take_zero, List.take_zero]

/-- A bag counts those that it has no room for. -/
theorem dropped_foldl_add :
    (ds.foldl add b).dropped = b.dropped + (ds.length - (b.capacity - b.items.length)) := by
  induction ds generalizing b with
  | nil => simp
  | cons d rest ih =>
    rw [List.foldl_cons, ih, add, hasRoom, List.length_cons]
    split
    · next h =>
      simp only [decide_eq_true_eq, List.length_append, List.length_singleton] at h ⊢
      omega
    · next h =>
      simp only [decide_eq_true_eq] at h ⊢
      omega

/-- What is told of the diagnostics in a bag: all that can be kept of each, with the path of its
file, and how many there was no room for. -/
def told (b : Bag) (files : FileSet) : List KeptDiagnostic × Nat :=
  (b.items.map (.ofDiagnostic files), b.dropped)

end Bag

namespace FilteredBag

/-- The diagnostics that a filter lets through. -/
def passed (seen : List Complaint) : List Diagnostic → List Diagnostic
  | [] => []
  | d :: rest =>
    if seen.contains (Complaint.of d) then passed seen rest
    else d :: passed (Complaint.of d :: seen) rest

theorem bag_reportAll (fb : FilteredBag) (ds : List Diagnostic) :
    (fb.reportAll ds).bag = (passed fb.seen ds).foldl Bag.add fb.bag := by
  induction ds generalizing fb with
  | nil => rfl
  | cons d rest ih =>
    show ((fb.report d).reportAll rest).bag = _
    rw [ih, passed, report]
    split <;> rfl

end FilteredBag

namespace Program

variable {p : Program} {limit : Int} {m : ModuleOutput}

/-- The warnings of a compilation that pass the filter. -/
def warnings (p : Program) : List Diagnostic :=
  FilteredBag.passed [] (p.compile 0).journal.warnings

/-- A compilation that gives a module keeps the first warnings and lists them by place. -/
theorem bag_compile (h : (p.compile limit).outcome = .ok m) : (p.compile limit).bag
    = (p.warnings.foldl Bag.add (Bag.ofLimit limit)).sort := by
  have hbag : (p.compile limit).bag
      = Bag.ofWork limit (p.compile 0).journal (p.compile limit).outcome := rfl
  rw [hbag, h, Bag.ofWork, FilteredBag.bag_reportAll]
  rfl

theorem items_compile (h : (p.compile limit).outcome = .ok m) : (p.compile limit).bag.items
    = (p.warnings.take (Bag.ofLimit limit).capacity).mergeSort fun d e => !Bag.precedes e d := by
  rw [bag_compile h, Bag.sort, Bag.items_foldl_add]
  rfl

theorem length_items_compile (h : (p.compile limit).outcome = .ok m) :
    (p.compile limit).bag.items.length
      = min (Bag.ofLimit limit).capacity p.warnings.length := by
  rw [items_compile h, List.length_mergeSort, List.length_take]

theorem dropped_compile (h : (p.compile limit).outcome = .ok m) :
    (p.compile limit).bag.dropped = p.warnings.length - (Bag.ofLimit limit).capacity := by
  rw [bag_compile h, Bag.sort, Bag.dropped_foldl_add]
  exact Nat.zero_add _

end Program

/-! ## Bringing diagnostics back -/

namespace FileSet

variable {fs : FileSet} {path : Bytes}

/-- A file keeps its number when others are added. -/
theorem get?_of_prefix {fs' : FileSet} {id : UInt32} (h : fs.paths <+: fs'.paths)
    (hget : fs.get? id = some path) : fs'.get? id = some path := by
  unfold get? at hget ⊢
  obtain ⟨more, hmore⟩ := h
  split at hget
  · cases hget
  · next i hi =>
    rw [← hmore, List.getElem?_append_left (List.getElem?_eq_some_iff.mp hget).1]
    exact hget

theorem get?_ofNat {i : Nat} (h : fs.paths[i]? = some path) (hlen : fs.paths.length < Pack.limit) :
    fs.get? (UInt32.ofNat (i + 1)) = some path := by
  have hi := (List.getElem?_eq_some_iff.mp h).1
  have hid : (UInt32.ofNat (i + 1)).toNat = i + 1 :=
    UInt32.toNat_ofNat_of_lt' (Nat.lt_of_le_of_lt hi hlen)
  rw [get?, hid]
  exact h

/-- A path that was added is the one of its number. -/
theorem get?_add (hpath : normalPath path = path)
    (hlen : (fs.add path).1.paths.length < Pack.limit) :
    (fs.add path).1.get? (fs.add path).2 = some path := by
  cases hlook : fs.lookup? path with
  | none =>
    have hadd : fs.add path = ({ fs with paths := fs.paths ++ [path] },
        UInt32.ofNat (fs.paths.length + 1)) := by rw [add, hlook, hpath]
    rw [hadd] at hlen ⊢
    exact get?_ofNat (List.getElem?_concat_length ..) hlen
  | some id =>
    have hadd : fs.add path = (fs, id) := by rw [add, hlook]
    rw [lookup?, hpath] at hlook
    obtain ⟨i, hi, rfl⟩ := Option.map_eq_some_iff.mp hlook
    rw [hadd] at hlen ⊢
    obtain ⟨hlt, hget, -⟩ := List.idxOf?_eq_some_iff.mp hi
    exact get?_ofNat (List.getElem?_eq_some_iff.mpr ⟨hlt, hget⟩) hlen

end FileSet

namespace KeptDiagnostic

/-- Bring diagnostics back, whether there is room for them or not. -/
def restoreList : List KeptDiagnostic → FileSet → FileSet × List Diagnostic
  | [], files => (files, [])
  | k :: ks, files =>
    ((restoreList ks (k.restore files).1).1,
      (k.restore files).2 :: (restoreList ks (k.restore files).1).2)

theorem restoreAll_eq (ks : List KeptDiagnostic) (files : FileSet) (bag : Bag) :
    restoreAll ks files bag
      = ((restoreList ks files).1, (restoreList ks files).2.foldl Bag.add bag) := by
  induction ks generalizing files bag with
  | nil => rfl
  | cons k ks ih => exact ih (k.restore files).1 (bag.add (k.restore files).2)

variable {known : List Bytes} {files : FileSet} {k : KeptDiagnostic} {ks : List KeptDiagnostic}

/-- The files of a program, as far as bringing diagnostics back depends on them: they are known by
these paths, and they can be numbered. -/
structure Known (known : List Bytes) : Prop where
  normal : FileSet.Normal known
  count : known.length < Pack.limit

/-- All files are known, and none is there twice. -/
def Among (known : List Bytes) (files : FileSet) : Prop :=
  files.paths.Nodup ∧ files.paths ⊆ known

theorem restore_none (h : k.path = []) (files : FileSet) : k.restore files
    = (files, { severity := ⟨k.severity⟩, code := ⟨k.code⟩, message := k.message, member := k.member
                span := ⟨0, k.line, k.col⟩ }) := by
  rw [restore, h]
  rfl

theorem restore_some (h : k.path ≠ []) (files : FileSet) : k.restore files
    = ((files.add k.path).1,
      { severity := ⟨k.severity⟩, code := ⟨k.code⟩, message := k.message, member := k.member
        span := ⟨(files.add k.path).2, k.line, k.col⟩ }) := by
  rw [restore, List.isEmpty_eq_false_iff.mpr h]
  rfl

theorem among_add (hknown : Known known) (hfiles : Among known files) {path : Bytes}
    (hpath : path ∈ known) : Among known (files.add path).1 := by
  have hnormal : normalPath path = path := hknown.normal.2 path hpath
  have hnodup : FileSet.Normal (files.add path).1.paths :=
    FileSet.normal_add ⟨hfiles.1, fun p hp => hknown.normal.2 p (hfiles.2 hp)⟩ path
  refine ⟨hnodup.1, ?_⟩
  rw [FileSet.paths_add, hnormal]
  split
  · exact hfiles.2
  · exact List.append_subset.mpr ⟨hfiles.2, fun p hp => List.mem_singleton.mp hp ▸ hpath⟩

/-- A diagnostic that is brought back is the one that was kept, and stays it when more files are
added. -/
theorem ofDiagnostic_restore (hknown : Known known) (hk : k.path = [] ∨ k.path ∈ known)
    (hfiles : Among known files) :
    Among known (k.restore files).1 ∧ ∀ files' : FileSet,
      (k.restore files).1.paths <+: files'.paths → ofDiagnostic files' (k.restore files).2 = k := by
  by_cases hnone : k.path = []
  · rw [restore_none hnone]
    refine ⟨hfiles, fun files' _ => ?_⟩
    cases k
    cases hnone
    rfl
  · have hpath : k.path ∈ known := hk.resolve_left hnone
    have hamong := among_add hknown hfiles hpath
    rw [restore_some hnone]
    refine ⟨hamong, fun files' hprefix => ?_⟩
    have hlen : (files.add k.path).1.paths.length < Pack.limit :=
      Nat.lt_of_le_of_lt (hamong.1.length_le_of_subset hamong.2) hknown.count
    have hget := FileSet.get?_of_prefix hprefix
      (FileSet.get?_add (hknown.normal.2 _ hpath) hlen)
    show { k with path := (files'.get? (files.add k.path).2).getD [] } = k
    rw [hget]
    rfl

theorem prefix_restore (k : KeptDiagnostic) (files : FileSet) :
    files.paths <+: (k.restore files).1.paths := by
  by_cases hnone : k.path = []
  · simp only [restore_none hnone, List.prefix_refl]
  · rw [restore_some hnone]
    exact FileSet.prefix_add files k.path

theorem prefix_restoreList (ks : List KeptDiagnostic) (files : FileSet) :
    files.paths <+: (restoreList ks files).1.paths := by
  induction ks generalizing files with
  | nil => exact List.prefix_refl _
  | cons k ks ih => exact (prefix_restore k files).trans (ih _)

/-- Diagnostics that are brought back are those that were kept. -/
theorem map_restoreList (hknown : Known known) (hks : ∀ k ∈ ks, k.path = [] ∨ k.path ∈ known)
    (hfiles : Among known files) :
    (restoreList ks files).2.map (ofDiagnostic (restoreList ks files).1) = ks := by
  induction ks generalizing files with
  | nil => rfl
  | cons k ks ih =>
    obtain ⟨hamong, hback⟩ := ofDiagnostic_restore hknown (hks k List.mem_cons_self) hfiles
    rw [restoreList, List.map_cons, hback _ (prefix_restoreList ks _),
      ih (fun k hk => hks k (List.mem_cons_of_mem _ hk)) hamong]

/-- What comes back are the first diagnostics that were kept, as many as there is room for. -/
theorem told_restoreAll (hknown : Known known) (hks : ∀ k ∈ ks, k.path = [] ∨ k.path ∈ known)
    (limit : Int) :
    (restoreAll ks {} (Bag.ofLimit limit)).2.told (restoreAll ks {} (Bag.ofLimit limit)).1
      = (ks.take (Bag.ofLimit limit).capacity, ks.length - (Bag.ofLimit limit).capacity) := by
  have hmap := @map_restoreList _ {} _ hknown hks ⟨List.nodup_nil, List.nil_subset _⟩
  have hlen := congrArg List.length hmap
  rw [List.length_map] at hlen
  rw [restoreAll_eq, Bag.told, Bag.items_foldl_add, Bag.dropped_foldl_add, hlen]
  refine Prod.ext ?_ (Nat.zero_add _)
  show ((restoreList ks {}).2.take _).map _ = _
  rw [List.map_take, hmap]
  rfl

theorem path_ofDiagnostic (files : FileSet) (d : Diagnostic) :
    (ofDiagnostic files d).path = [] ∨ (ofDiagnostic files d).path ∈ files.paths := by
  show (files.get? d.span.file).getD [] = [] ∨ (files.get? d.span.file).getD [] ∈ files.paths
  unfold FileSet.get?
  split
  · exact .inl rfl
  · next i _ =>
    cases hget : files.paths[i]? with
    | none => exact .inl rfl
    | some path => exact .inr (List.mem_of_getElem? hget)

end KeptDiagnostic

/-! ## Hits -/

namespace FileResult

open Document (Keeps)

variable {o : BatchOptions} {i : Nat} {path data : Bytes} {p : Program} {limit : Int}
  {e : CacheEntry}

theorem known_of_read (h : Document.read data = .ok p) : KeptDiagnostic.Known p.files.paths := by
  obtain ⟨d, -, hd, hp⟩ := Document.read_draft h
  obtain ⟨hfits, -, -, hnormal, -, -⟩ := Document.fits_of_toProgram hd hp
  exact ⟨hnormal, hfits.files⟩

/-- A hit tells the first diagnostics of the entry, as many as there is room for. -/
theorem told_ofEntry (he : Keeps limit data e) :
    (ofEntry o i path e).bag.told (ofEntry o i path e).files
      = (e.diagnostics.take (Bag.ofLimit o.limit).capacity,
        e.diagnostics.length - (Bag.ofLimit o.limit).capacity) := by
  obtain ⟨p, m, hread, -, rfl⟩ := he
  refine KeptDiagnostic.told_restoreAll (known_of_read hread) (fun k hk => ?_) o.limit
  obtain ⟨d, -, rfl⟩ := List.mem_map.mp hk
  exact KeptDiagnostic.path_ofDiagnostic p.files d

/-- If the run that kept the entry turned diagnostics away, a hit does not tell what a fresh
compilation tells: it turns fewer away, or has fewer of them. -/
theorem told_ofEntry_ne (he : Keeps limit data e) (hread : Document.read data = .ok p)
    (hlost : (p.compile limit).bag.dropped ≠ 0) :
    (ofEntry o i path e).bag.told (ofEntry o i path e).files
      ≠ (p.compile o.limit).bag.told p.files := by
  rw [told_ofEntry he]
  obtain ⟨p', m, hread', hout, rfl⟩ := he
  obtain rfl := Except.ok.inj (hread.symm.trans hread')
  have hout' : (p.compile o.limit).outcome = .ok m := hout
  have hkept := Program.length_items_compile hout
  have hfresh := Program.length_items_compile hout'
  have hdropped := Program.dropped_compile hout
  have hdropped' := Program.dropped_compile hout'
  intro h
  obtain ⟨hitems, hcount⟩ := Prod.mk.inj h
  have hlen := congrArg List.length hitems
  simp only [CacheEntry.ofModule, List.length_take, List.length_map] at hlen hcount
  omega

/-- A hit tells what a fresh compilation tells just when the run that kept the entry turned no
diagnostic away, and a fresh compilation turns none away either or has room for those that come
first by their places. -/
theorem told_ofEntry_eq_iff (hread : Document.read data = .ok p) (he : Keeps limit data e) :
    (ofEntry o i path e).bag.told (ofEntry o i path e).files
        = (p.compile o.limit).bag.told p.files
      ↔ (p.compile limit).bag.dropped = 0
        ∧ ((p.compile o.limit).bag.dropped = 0
          ∨ e.diagnostics.take (Bag.ofLimit o.limit).capacity
            = ((p.compile o.limit).bag.told p.files).1) := by
  by_cases hlost : (p.compile limit).bag.dropped = 0
  · rw [told_ofEntry he]
    obtain ⟨p', m, hread', hout, rfl⟩ := he
    obtain rfl := Except.ok.inj (hread.symm.trans hread')
    have hout' : (p.compile o.limit).outcome = .ok m := hout
    have hkept := Program.length_items_compile hout
    have hdropped := Program.dropped_compile hout
    have hdropped' := Program.dropped_compile hout'
    have hcount : (CacheEntry.ofModule p.name m (p.compile limit).bag p.files).diagnostics.length
        = p.warnings.length := by
      rw [CacheEntry.ofModule, List.length_map]
      omega
    -- both count what they turn away from all warnings, so only the ones that are told can differ
    constructor
    · intro h
      exact ⟨hlost, .inr (congrArg Prod.fst h)⟩
    · rintro ⟨-, hroom | htake⟩
      · refine Prod.ext ?_ ?_
        · have hall : (p.compile limit).bag.items = (p.compile o.limit).bag.items := by
            rw [Program.items_compile hout, Program.items_compile hout',
              List.take_of_length_le (by omega), List.take_of_length_le (by omega)]
          rw [List.take_of_length_le (by omega), CacheEntry.ofModule, hall]
          rfl
        · show _ - _ = (p.compile o.limit).bag.dropped
          rw [hcount, hdropped']
      · refine Prod.ext htake ?_
        show _ - _ = (p.compile o.limit).bag.dropped
        rw [hcount, hdropped']
  · exact iff_of_false (told_ofEntry_ne he hread hlost) fun h => hlost h.1

/-! ### Two warnings, and room for one -/

/-- A program that reads a field of instances twice, which gives a warning each. -/
def twoFields : Program where
  name := "p"
  decls := some [{
    name := "T"
    funcs := some [{
      name := "Main"
      declaringType := "T"
      flags := 5
      body := .block ⟨1, {}⟩ (some [
        .expr ⟨2, {}⟩ (.field ⟨TypeTable.int32, {}⟩ ⟨"U", "a"⟩ false .missing),
        .expr ⟨3, {}⟩ (.field ⟨TypeTable.int32, {}⟩ ⟨"U", "b"⟩ false .missing)]) }] }]

set_option maxRecDepth 4000 in
theorem read_twoFields :
    Document.read (Document.shortDocument "p" twoFields.decls) = .ok twoFields := rfl

/-- The module of the program. -/
def twoPlaceholders : ModuleOutput where
  text := ";; p\n\n(module\n)\n\n(untranslatable.FieldAccess)\n(untranslatable.FieldAccess)\n"

theorem outcome_twoFields (limit : Int) :
    (twoFields.compile limit).outcome = .ok twoPlaceholders := rfl

theorem length_warnings_twoFields : twoFields.warnings.length = 2 := by decide +kernel

/-- What a run that has room for some diagnostics keeps of the program. -/
def keptAt (limit : Int) : CacheEntry :=
  .ofModule twoFields.name twoPlaceholders (twoFields.compile limit).bag twoFields.files

theorem keeps_twoFields (limit : Int) :
    Keeps limit (Document.shortDocument "p" twoFields.decls) (keptAt limit) :=
  ⟨twoFields, twoPlaceholders, read_twoFields, outcome_twoFields limit, rfl⟩

theorem dropped_twoFields (limit : Int) :
    (twoFields.compile limit).bag.dropped = 2 - (Bag.ofLimit limit).capacity := by
  rw [Program.dropped_compile (outcome_twoFields limit), length_warnings_twoFields]

/-- After a run with room for both warnings, a hit tells what a fresh compilation tells. -/
theorem told_ofEntry_twoFields :
    (ofEntry { limit := 100 } 0 "a" (keptAt 2)).bag.told
        (ofEntry { limit := 100 } 0 "a" (keptAt 2)).files
      = (twoFields.compile 100).bag.told twoFields.files := by
  have hroom : (twoFields.compile 100).bag.dropped = 0 := by
    rw [dropped_twoFields]
    rfl
  have hkept : (twoFields.compile 2).bag.dropped = 0 := by
    rw [dropped_twoFields]
    rfl
  exact (told_ofEntry_eq_iff (o := { limit := 100 }) read_twoFields (keeps_twoFields 2)).mpr
    ⟨hkept, .inl hroom⟩

/-- After a run with room for one of them, the other is lost. -/
theorem told_ofEntry_lost :
    (ofEntry { limit := 100 } 0 "a" (keptAt 1)).bag.told
        (ofEntry { limit := 100 } 0 "a" (keptAt 1)).files
      ≠ (twoFields.compile 100).bag.told twoFields.files := by
  refine told_ofEntry_ne (o := { limit := 100 }) (keeps_twoFields 1) read_twoFields ?_
  rw [dropped_twoFields]
  decide

end FileResult

/-! ## What a failed compilation shows -/

namespace FilteredBag

/-- A filter makes no diagnostics of its own. -/
theorem passed_subset (seen : List Complaint) (ds : List Diagnostic) : passed seen ds ⊆ ds := by
  induction ds generalizing seen with
  | nil => exact List.Subset.refl _
  | cons d rest ih =>
    rw [passed]
    split
    · exact List.subset_cons_of_subset d (ih seen)
    · exact List.cons_subset_cons d (ih _)

end FilteredBag

namespace Bag

variable {ds : List Diagnostic} {d : Diagnostic} {b : Bag} {n : Nat}

/-- What only the last diagnostic has is kept just if there is room for all of them. -/
theorem exists_take_concat {P : Diagnostic → Prop} (hlast : P d) (hrest : ∀ e ∈ ds, ¬P e) :
    (∃ e ∈ (ds ++ [d]).take n, P e) ↔ ds.length < n := by
  rcases Nat.lt_or_ge ds.length n with hroom | hfull
  · refine iff_of_true ⟨d, ?_, hlast⟩ hroom
    rw [List.take_of_length_le (by rw [List.length_append]; exact hroom)]
    exact List.mem_append_right _ (List.mem_singleton_self d)
  · refine iff_of_false ?_ (Nat.not_lt.mpr hfull)
    rw [List.take_append_of_le_length hfull]
    rintro ⟨e, he, hP⟩
    exact hrest e (List.mem_of_mem_take he) hP

theorem hasErrors_iff :
    b.hasErrors = true ↔ ∃ d ∈ b.items, Severity.error.rank ≤ d.severity.rank := by
  rw [hasErrors, hasAtLeast, List.any_eq_true]
  simp only [decide_eq_true_eq]

end Bag

namespace Program

variable {p : Program} {limit : Int} {f : Failure}

theorem severity_warnings (p : Program) : ∀ d ∈ p.warnings, d.severity = .warning := by
  intro d hd
  have hjournal := FilteredBag.passed_subset [] _ hd
  obtain ⟨x, hx, hxd⟩ := List.mem_filterMap.mp hjournal
  obtain ⟨new, hnew, hwarns⟩ := (reports_emit p).warns []
  have hmem : x ∈ new := by
    rw [List.append_nil] at hnew
    rw [← hnew]
    exact List.mem_reverse.mp hx
  cases x with
  | warning d' =>
    obtain rfl := Option.some.inj hxd
    exact (hwarns d' hmem).2
  | _ => cases hxd

/-- A compilation that comes to its end fails with an error. -/
theorem isError_compile (hreturns : (p.compile limit).crashes = false)
    (h : (p.compile limit).outcome = .error f) :
    f.problem? = some f.diagnostic ∧ f.diagnostic.severity = .error := by
  rw [Compiled.crashes, h] at hreturns
  obtain ⟨d, hd, hsev⟩ := ((reports_emit p).fails [] f h).error hreturns
  have hdiagnostic : f.diagnostic = d := by rw [Failure.diagnostic, hd]
  rw [hdiagnostic]
  exact ⟨hd, hsev⟩

/-- The bag of a compilation that fails gets the warnings and then the error. -/
theorem bag_compile_error (h : (p.compile limit).outcome = .error f) : (p.compile limit).bag
    = (p.warnings ++ [f.diagnostic]).foldl Bag.add (Bag.ofLimit limit) := by
  have hbag : (p.compile limit).bag
      = Bag.ofWork limit (p.compile 0).journal (p.compile limit).outcome := rfl
  rw [hbag, h, Bag.ofWork, FilteredBag.bag_reportAll, List.foldl_append]
  rfl

/-- A failed compilation that comes to its end shows its error just if its warnings leave room for
it: the bag has as many of the warnings, and of the error behind them, as there is room for, and
counts the rest. So it has the error that the failure carries, and it has an error at all, just if
there are fewer warnings than the limit. -/
theorem failure_shown_iff (hreturns : (p.compile limit).crashes = false)
    (h : (p.compile limit).outcome = .error f) :
    f.problem? = some f.diagnostic ∧ f.diagnostic.severity = .error
      ∧ (p.compile limit).bag.items
        = (p.warnings ++ [f.diagnostic]).take (Bag.ofLimit limit).capacity
      ∧ (p.compile limit).bag.dropped = p.warnings.length + 1 - (Bag.ofLimit limit).capacity
      ∧ (f.diagnostic ∈ (p.compile limit).bag.items
        ↔ p.warnings.length < (Bag.ofLimit limit).capacity)
      ∧ ((p.compile limit).bag.hasErrors = true
        ↔ p.warnings.length < (Bag.ofLimit limit).capacity) := by
  obtain ⟨hcarries, hsev⟩ := isError_compile hreturns h
  have hitems : (p.compile limit).bag.items
      = (p.warnings ++ [f.diagnostic]).take (Bag.ofLimit limit).capacity := by
    rw [bag_compile_error h, Bag.items_foldl_add]
    rfl
  have hdropped : (p.compile limit).bag.dropped
      = p.warnings.length + 1 - (Bag.ofLimit limit).capacity := by
    rw [bag_compile_error h, Bag.dropped_foldl_add, List.length_append, List.length_singleton]
    exact Nat.zero_add _
  -- no warning is an error, so only the last diagnostic can be one
  have herror : ∀ d ∈ p.warnings, ¬Severity.error.rank ≤ d.severity.rank := by
    intro d hd
    rw [severity_warnings p d hd]
    decide
  have hlast : Severity.error.rank ≤ f.diagnostic.severity.rank := by
    rw [hsev]
    decide
  refine ⟨hcarries, hsev, hitems, hdropped, ?_, ?_⟩
  · have hne : ∀ d ∈ p.warnings, d ≠ f.diagnostic := by
      rintro d hd rfl
      exact herror _ hd hlast
    rw [hitems, ← Bag.exists_take_concat (P := (· = f.diagnostic)) rfl hne, exists_eq_right]
  · rw [Bag.hasErrors_iff, hitems, Bag.exists_take_concat hlast herror]

/-- A program that reads a variable that is not there, which gives a warning, and then goes to a
label that is not there. -/
def lostGoto : Program where
  name := "p"
  decls := some [{
    name := "T"
    funcs := some [{
      name := "F"
      declaringType := "T"
      flags := 1
      result := TypeTable.void
      body := .block { id := 1 } (some [
        .expr { id := 2 } (.variable { type := TypeTable.int32 } "x" false),
        .goto { id := 3 } "L"]) }] }]

theorem outcome_lostGoto (limit : Int) : (lostGoto.compile limit).outcome = .error (.problem
    { Diagnostic.fatal .undeclaredLabel {} "goto L: no such label" with member := "T::F" }) := rfl

/-- With room for two diagnostics it is shown. -/
theorem failure_shown_iff_lostGoto : (lostGoto.compile 2).bag.hasErrors = true := by
  obtain ⟨-, -, -, -, -, hshown⟩ := failure_shown_iff rfl (outcome_lostGoto 2)
  have hwarnings : lostGoto.warnings.length = 1 := by decide +kernel
  rw [hshown, hwarnings]
  decide

/-- With room for one it is not. -/
theorem failure_hidden :
    (∃ f, (lostGoto.compile 1).outcome = .error f
        ∧ f.diagnostic ∉ (lostGoto.compile 1).bag.items)
      ∧ (lostGoto.compile 1).bag.hasErrors = false := by
  refine ⟨⟨_, outcome_lostGoto 1, ?_⟩, ?_⟩
  · decide +kernel
  · decide +kernel

end Program

end WastForge
