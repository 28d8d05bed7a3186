import Mathlib.Data.List.Forall2
import Mathlib.Data.List.Induction
import WastForge.Proofs.Workflow.Cache
import WastForge.Workflow.Batch

/-!
# Batches do not depend on their schedule

Workers share the disk, with the cache on it, and what the batch remembers. Whatever order their
steps come in, what they share stays sound, and the work on a file ends in the result that the file
has by itself. They share the process as well: a file whose compilation ends the process takes all
other files with it.
-/

namespace WastForge

namespace BatchM

variable {α β : Type} {d : Disk} {memory : List Remembered}

/-- On a disk `d` with the results `memory` remembered, the work gives `a` and changes neither. -/
def Gives (d : Disk) (memory : List Remembered) (act : BatchM α) (a : α) : Prop :=
  ∀ b, b.session.disk = d → b.memory = memory →
    (act.run b).1 = a ∧ (act.run b).2.session.disk = d ∧ (act.run b).2.memory = memory

theorem gives_pure (a : α) : Gives d memory (pure a) a := fun _ hd hm => ⟨rfl, hd, hm⟩

theorem Gives.bind {act : BatchM α} {next : α → BatchM β} {a : α} {c : β}
    (h : Gives d memory act a) (hnext : Gives d memory (next a) c) :
    Gives d memory (act >>= next) c := by
  intro b hd hm
  obtain ⟨ha, hd', hm'⟩ := h b hd hm
  have hrun : (act >>= next).run b = (next (act.run b).1).run (act.run b).2 := rfl
  rw [hrun, ha]
  exact hnext _ hd' hm'

theorem gives_tell (path : Bytes) (phase : Phase) (status : Option PhaseStatus) :
    Gives d memory (tell path phase status) () := fun _ hd hm => ⟨rfl, hd, hm⟩

/-- Observers have no part in the work. -/
theorem Gives.observed {path : Bytes} {phase : Phase} {act : BatchM (Result α)} {r : Result α}
    (h : Gives d memory act r) : Gives d memory (observed path phase act) r :=
  (gives_tell _ _ _).bind (h.bind ((gives_tell _ _ _).bind (gives_pure r)))

theorem gives_note (e : JournalEntry) : Gives d memory (inSession (SessionM.note e)) () :=
  fun _ hd hm => ⟨rfl, hd, hm⟩

end BatchM

namespace FileWork

open BatchM

/-- A step of the work on a file, as far as the disk and what the batch remembers are concerned:
where it leads from a disk `d` and from remembered results `memory`. -/
inductive Moves (o : BatchOptions) (i : Nat) (path : Bytes) (d : Disk) (memory : List Remembered) :
    FileWork → FileWork → Disk → List Remembered → Prop where
  | unread {e : DiskError} (h : d.readFile path = .error e) :
    Moves o i path d memory .waiting
      (.finished (.ofFailure o i path (.during ("read " ++ path) (.other e.message)))) d memory
  | read {data : Bytes} (h : d.readFile path = .ok data) :
    Moves o i path d memory .waiting (.loaded data (cacheKey data)) d memory
  | recalled {data : Bytes} {m : Remembered} (h : m ∈ memory) (hpath : m.path = path) :
    Moves o i path d memory (.loaded data m.key) (.finished m.result) d memory
  | forgotten {data : Bytes} {key : Digest} :
    Moves o i path d memory (.loaded data key) (.unremembered data key) d memory
  | found {data : Bytes} {key : Digest} {c : ModuleCache} {e : CacheEntry}
    (hc : o.cache = some c) (h : c.get? d key = some e) :
    Moves o i path d memory (.unremembered data key) (.settled key (.ofEntry o i path e)) d memory
  | missing {data : Bytes} {key : Digest} :
    Moves o i path d memory (.unremembered data key) (.fresh data key) d memory
  | refused {data : Bytes} {key : Digest} {f : Failure} (h : Document.read data = .error f)
    (hreturns : f.crash? = none) :
    Moves o i path d memory (.fresh data key) (.finished (.ofFailure o i path f)) d memory
  | compiled {data : Bytes} {key : Digest} {p : Program} (h : Document.read data = .ok p)
    (hreturns : (p.compile o.limit).outcome.crash? = none) :
    Moves o i path d memory (.fresh data key)
      (.compiled key (.ofCompiled i path (p.compile o.limit))) d memory
  | crashes {data : Bytes} {key : Digest} {how : Crash}
    (h : (Document.moduleOf o.limit data).crash? = some how) :
    Moves o i path d memory (.fresh data key) (.crashed how) d memory
  | kept {key : Digest} {r : FileResult} {c : ModuleCache} {m : ModuleOutput}
    (hc : o.cache = some c) (h : r.outcome = .ok m) :
    Moves o i path d memory (.compiled key r) (.settled key r)
      ((c.put key (.ofModule r.name m r.bag r.files)).run d).2 memory
  | unkept {key : Digest} {r : FileResult} :
    Moves o i path d memory (.compiled key r) (.settled key r) d memory
  | remembered {key : Digest} {r : FileResult} :
    Moves o i path d memory (.settled key r) (.finished r) d (⟨path, key, r⟩ :: memory)
  | idle {r : FileResult} : Moves o i path d memory (.finished r) (.finished r) d memory
  | gone {how : Crash} : Moves o i path d memory (.crashed how) (.crashed how) d memory

variable {o : BatchOptions} {i : Nat} {path : Bytes} {d : Disk} {memory : List Remembered}
  {w w' : FileWork}

/-- On a disk `d` with the results `memory` remembered, the work makes a step from `w`. -/
def Leads (o : BatchOptions) (i : Nat) (path : Bytes) (d : Disk) (memory : List Remembered)
    (w : FileWork) (act : BatchM FileWork) : Prop :=
  ∀ b, b.session.disk = d → b.memory = memory → Moves o i path d memory w (act.run b).1
    (act.run b).2.session.disk (act.run b).2.memory

theorem leads_gives {act : BatchM FileWork} (h : Gives d memory act w')
    (hmove : Moves o i path d memory w w' d memory) : Leads o i path d memory w act := by
  intro b hd hm
  obtain ⟨hw, hd', hm'⟩ := h b hd hm
  rwa [hw, hd', hm']

theorem leads_bind {α : Type} {act : BatchM α} {next : α → BatchM FileWork} {a : α}
    (h : Gives d memory act a) (hnext : Leads o i path d memory w (next a)) :
    Leads o i path d memory w (act >>= next) := by
  intro b hd hm
  obtain ⟨ha, hd', hm'⟩ := h b hd hm
  have hrun : (act >>= next).run b = (next (act.run b).1).run (act.run b).2 := rfl
  rw [hrun, ha]
  exact hnext _ hd' hm'

theorem leads_get {next : Batch → BatchM FileWork}
    (h : ∀ b, b.session.disk = d → b.memory = memory → Leads o i path d memory w (next b)) :
    Leads o i path d memory w (get >>= next) := fun b hd hm => h b hd hm b hd hm

theorem gives_finish (r : FileResult) : Gives d memory (finish r) (.finished r) :=
  (gives_note _).bind (gives_pure _)

theorem leads_load : Leads o i path d memory .waiting (load o i path) := by
  have hread : Gives d memory (observed path .read do
      return ((← get).session.disk.readFile path).mapError fun e => Failure.other e.message)
      ((d.readFile path).mapError fun e => .other e.message) := by
    refine Gives.observed fun b hd hm => ⟨?_, hd, hm⟩
    rw [← hd]
    rfl
  unfold load
  refine leads_bind (gives_note _) (leads_bind hread ?_)
  cases h : d.readFile path with
  | error e => exact leads_gives (gives_finish _) (.unread h)
  | ok data => exact leads_gives (gives_pure _) (.read h)

theorem leads_lookBack (data : Bytes) (key : Digest) :
    Leads o i path d memory (.loaded data key) (lookBack path data key) := by
  refine leads_get fun b hd hm => ?_
  rw [Batch.remembered?, hm]
  split
  · next r hr =>
    split at hr
    · next m hfind =>
      split at hr
      · next hkey =>
        obtain rfl := Option.some.inj hr
        have hpath : m.path = path := by simpa using List.find?_some hfind
        exact leads_gives (gives_finish _)
          (hkey ▸ .recalled (List.mem_of_find?_eq_some hfind) hpath)
      · cases hr
    · cases hr
  · exact leads_gives (gives_pure _) .forgotten

theorem leads_lookUp (data : Bytes) (key : Digest) :
    Leads o i path d memory (.unremembered data key) (lookUp o i path data key) := by
  refine leads_get fun b hd hm => ?_
  rw [hd]
  split
  · next e he =>
    obtain ⟨c, hc, hget⟩ := Option.bind_eq_some_iff.mp he
    exact leads_gives (gives_pure _) (.found hc hget)
  · exact leads_gives (gives_pure _) .missing

theorem leads_compile (data : Bytes) (key : Digest) :
    Leads o i path d memory (.fresh data key) (compile o i path data key) := by
  refine leads_bind (gives_pure _).observed ?_
  cases h : Document.read data with
  | error f =>
    dsimp only
    cases hcrash : f.crash? with
    | none => exact leads_gives (gives_finish _) (.refused h hcrash)
    | some how =>
      refine leads_gives (gives_pure _) (.crashes ?_)
      rwa [Document.moduleOf, h]
  | ok p =>
    have hemit : Gives d memory (observed path .emit do
        inSession (modify fun s => { s with journal := (p.compile o.limit).journal ++ s.journal })
        return (p.compile o.limit).outcome) (p.compile o.limit).outcome :=
      Gives.observed fun _ hd hm => ⟨rfl, hd, hm⟩
    refine leads_bind hemit ?_
    cases hcrash : (p.compile o.limit).outcome.crash? with
    | none => exact leads_gives (gives_pure _) (.compiled h hcrash)
    | some how =>
      refine leads_gives (gives_pure _) (.crashes ?_)
      rwa [Document.moduleOf, h]

theorem leads_keep (key : Digest) (r : FileResult) :
    Leads o i path d memory (.compiled key r) (keep o path key r) := by
  rw [keep]
  split
  · next m c hm hc =>
    intro b hd hmem
    subst hd hmem
    exact .kept hc hm
  · exact leads_gives (gives_pure _) .unkept

/-- Every step is one of these. -/
theorem moves_step (w : FileWork) (b : Batch) :
    Moves o i path b.session.disk b.memory w ((w.step o i path).run b).1
      ((w.step o i path).run b).2.session.disk ((w.step o i path).run b).2.memory := by
  cases w with
  | waiting => exact leads_load b rfl rfl
  | loaded data key => exact leads_lookBack data key b rfl rfl
  | unremembered data key => exact leads_lookUp data key b rfl rfl
  | fresh data key => exact leads_compile data key b rfl rfl
  | compiled key r => exact leads_keep key r b rfl rfl
  | settled key r => exact .remembered
  | finished r => exact .idle
  | crashed how => exact .gone

/-- How many steps are left at most. -/
def left : FileWork → Nat
  | .waiting => 6
  | .loaded .. => 5
  | .unremembered .. => 4
  | .fresh .. => 3
  | .compiled .. => 2
  | .settled .. => 1
  | .finished _ | .crashed _ => 0

theorem Moves.left_le {d' : Disk} {memory' : List Remembered}
    (h : Moves o i path d memory w w' d' memory') : w'.left ≤ w.left - 1 := by
  cases h <;> simp only [left] <;> omega

theorem exists_result_of_left (h : w.left = 0) (hcrash : w.crash? = none) :
    ∃ r, w.result? = some r := by
  cases w with
  | finished r => exact ⟨r, rfl⟩
  | crashed how => cases hcrash
  | _ => exact absurd h (by simp [left])

end FileWork

/-! ## What a step keeps -/

/-- The module of a file by itself: the file is read and compiled, and nothing else is looked at. -/
def Disk.moduleAt (limit : Int) (d : Disk) (path : Bytes) : Result ModuleOutput :=
  match d.readFile path with
  | .error e => .error (.during ("read " ++ path) (.other e.message))
  | .ok data => Document.moduleOf limit data

/-- The result is that of a file by itself, whose compilation comes to its end. -/
structure FileResult.IsAlone (limit : Int) (d : Disk) (path : Bytes) (r : FileResult) : Prop where
  path_eq : r.path = path
  outcome_eq : r.outcome = d.moduleAt limit path
  returns : (d.moduleAt limit path).crash? = none

/-- The files and the cache from which a batch starts: documents are told apart by their keys, what
is kept of them can be written, the files hold them, and the cache was made from them. -/
structure BatchOptions.Suits (o : BatchOptions) (docs : Set Bytes) (paths : List Bytes)
    (d : Disk) : Prop where
  keys : docs.InjOn cacheKey
  entries : ∀ data ∈ docs, ∀ limit e, Document.Keeps limit data e → e.Fits
  files : ∀ path ∈ paths, ∀ data, d.readFile path = .ok data → data ∈ docs
  cache : ∀ c, o.cache = some c → c.Sound docs d

section Step

variable {o : BatchOptions} {docs : Set Bytes} {paths : List Bytes} {start d d' : Disk}
  {memory memory' : List Remembered} {path : Bytes} {w w' : FileWork} {i : Nat}

/-- What the workers share agrees with the files as they were at the start. -/
structure Shares (o : BatchOptions) (docs : Set Bytes) (start d : Disk)
    (memory : List Remembered) : Prop where
  cache : ∀ c, o.cache = some c → c.Sound docs d
  memory : ∀ m ∈ memory, m.result.IsAlone o.limit start m.path

/-- What the work on a file has found agrees with the file as it was at the start. -/
def FileWork.Agrees (limit : Int) (start : Disk) (path : Bytes) : FileWork → Prop
  | .waiting => True
  | .loaded data key | .unremembered data key | .fresh data key =>
    start.readFile path = .ok data ∧ key = cacheKey data
  | .compiled key r => ∃ data p i, start.readFile path = .ok data ∧ key = cacheKey data
    ∧ Document.read data = .ok p ∧ r = .ofCompiled i path (p.compile limit)
    ∧ (p.compile limit).outcome.crash? = none
  | .settled _ r | .finished r => r.IsAlone limit start path
  | .crashed how => (start.moduleAt limit path).crash? = some how

theorem Disk.moduleAt_of_read {limit : Int} {data : Bytes} (h : start.readFile path = .ok data) :
    start.moduleAt limit path = Document.moduleOf limit data := by
  rw [moduleAt, h]

theorem isAlone_unread {limit : Int} {e : DiskError} (h : start.readFile path = .error e) :
    (FileResult.ofFailure o i path (.during ("read " ++ path) (.other e.message))).IsAlone
      limit start path := by
  have hmodule : start.moduleAt limit path
      = .error (.during ("read " ++ path) (.other e.message)) := by rw [Disk.moduleAt, h]
  exact ⟨rfl, hmodule.symm, hmodule ▸ rfl⟩

theorem isAlone_refused {limit : Int} {data : Bytes} {f : Failure}
    (h : start.readFile path = .ok data) (hread : Document.read data = .error f)
    (hreturns : f.crash? = none) : (FileResult.ofFailure o i path f).IsAlone limit start path := by
  have hmodule : start.moduleAt limit path = .error f := by
    rw [Disk.moduleAt_of_read h, Document.moduleOf, hread]
    rfl
  exact ⟨rfl, hmodule.symm, hmodule ▸ hreturns⟩

theorem isAlone_compiled {limit : Int} {data : Bytes} {p : Program}
    (h : start.readFile path = .ok data) (hread : Document.read data = .ok p)
    (hreturns : (p.compile limit).outcome.crash? = none) :
    (FileResult.ofCompiled i path (p.compile limit)).IsAlone limit start path := by
  have hmodule : start.moduleAt limit path = (p.compile limit).outcome := by
    rw [Disk.moduleAt_of_read h, Document.moduleOf, hread]
    rfl
  exact ⟨rfl, hmodule.symm, hmodule ▸ hreturns⟩

theorem isAlone_entry {limit limit' : Int} {data : Bytes} {e : CacheEntry}
    (h : start.readFile path = .ok data) (he : Document.Keeps limit' data e) :
    (FileResult.ofEntry o i path e).IsAlone limit start path := by
  have hmodule : start.moduleAt limit path = .ok e.toModule :=
    (Disk.moduleAt_of_read h).trans (he.moduleOf limit)
  exact ⟨rfl, hmodule.symm, hmodule ▸ rfl⟩

/-- What the shared state and the work on a file agree on, they still agree on after a step. -/
theorem FileWork.Moves.keeps (h : FileWork.Moves o i path d memory w w' d' memory')
    (ho : o.Suits docs paths start) (hpath : path ∈ paths)
    (hsame : d.readFile path = start.readFile path) (hshare : Shares o docs start d memory)
    (hw : w.Agrees o.limit start path) :
    Shares o docs start d' memory' ∧ w'.Agrees o.limit start path := by
  cases h with
  | unread h => exact ⟨hshare, isAlone_unread (hsame ▸ h)⟩
  | read h => exact ⟨hshare, hsame ▸ h, rfl⟩
  | recalled h hm => exact ⟨hshare, hm ▸ hshare.memory _ h⟩
  | forgotten => exact ⟨hshare, hw⟩
  | found hc hget =>
    obtain ⟨hread, rfl⟩ := hw
    obtain ⟨limit, he⟩ :=
      (hshare.cache _ hc).get? ho.keys ho.entries (ho.files _ hpath _ hread) hget
    exact ⟨hshare, isAlone_entry hread he⟩
  | missing => exact ⟨hshare, hw⟩
  | refused h hreturns => exact ⟨hshare, isAlone_refused hw.1 h hreturns⟩
  | compiled h hreturns => exact ⟨hshare, _, _, _, hw.1, hw.2, h, rfl, hreturns⟩
  | crashes h => exact ⟨hshare, (congrArg _ (Disk.moduleAt_of_read hw.1)).trans h⟩
  | kept hc hm =>
    obtain ⟨data, p, j, hread, rfl, hp, rfl, hreturns⟩ := hw
    refine ⟨⟨fun c' hc' => ?_, hshare.memory⟩, isAlone_compiled hread hp hreturns⟩
    obtain rfl := Option.some.inj (hc.symm.trans hc')
    exact (hshare.cache _ hc).put (ho.files _ hpath _ hread) ⟨p, _, hp, hm, rfl⟩
  | unkept =>
    obtain ⟨data, p, j, hread, rfl, hp, rfl, hreturns⟩ := hw
    exact ⟨hshare, isAlone_compiled hread hp hreturns⟩
  | remembered =>
    refine ⟨⟨hshare.cache, fun m hm => ?_⟩, hw⟩
    rcases List.mem_cons.mp hm with rfl | hm
    · exact hw
    · exact hshare.memory m hm
  | idle => exact ⟨hshare, hw⟩
  | gone => exact ⟨hshare, hw⟩

/-- The files are read as at the start. -/
structure Untouched (paths : List Bytes) (start d : Disk) : Prop where
  cwd : d.cwd = start.cwd
  same : ∀ path ∈ paths, d.readFile path = start.readFile path

/-- A step does not touch files that stand in no place of the cache. -/
theorem FileWork.Moves.untouched (h : FileWork.Moves o i path d memory w w' d' memory')
    (hapart : ∀ path ∈ paths, ∃ content, start.readFile path = .ok content
      ∧ ∀ c key, o.cache = some c → Disk.lead start.cwd path ≠ c.placeOf start.cwd key)
    (hd : Untouched paths start d) : Untouched paths start d' := by
  cases h with
  | kept hc _ =>
    refine ⟨(ModuleCache.cwd_put ..).trans hd.cwd, fun path hpath => ?_⟩
    obtain ⟨content, hread, hne⟩ := hapart path hpath
    rw [hread]
    refine ModuleCache.readFile_put _ ((hd.same path hpath).trans hread) ?_
    rw [hd.cwd]
    exact hne _ _ hc
  | _ => exact hd

end Step

/-! ## Whole runs -/

namespace Batch

/-- The batch of some files whose workers made their steps in the order of a schedule: the work on
every file, and what the workers share. -/
def along (o : BatchOptions) (paths : List Bytes) (s : Session) (schedule : List Nat) :
    List FileWork × Batch :=
  (BatchM.follow o paths schedule).run
    { session := { s with journal := .enter .driver "compile_files" :: s.journal } }

/-- The results of the work that is finished, in the order of the files. -/
def results (works : List FileWork) : List FileResult := works.filterMap (·.result?)

variable {o : BatchOptions} {docs : Set Bytes} {paths : List Bytes} {s : Session}
  {schedule : List Nat}

/-- Compiling files lets the work on one file after the other make its steps. -/
theorem results_compileFiles (hc : o.cancelled = false) :
    ((compileFiles o paths).run s).1.results
      = match BatchM.crash? (along o paths s (oneByOne paths.length)).1 with
        | some how => .error (.crash how)
        | none => .ok (results (along o paths s (oneByOne paths.length)).1) := by
  cases paths with
  | nil => rfl
  | cons path rest =>
    rw [compileFiles, hc]
    rfl

theorem along_concat (i : Nat) : along o paths s (schedule ++ [i])
    = (BatchM.stepAt o paths (along o paths s schedule).1 i).run (along o paths s schedule).2 := by
  rw [along, BatchM.follow, List.foldlM_append]
  rfl

/-- The files are not changed while the batch runs. -/
def Undisturbed (o : BatchOptions) (paths : List Bytes) (s : Session)
    (schedule : List Nat) : Prop :=
  ∀ t, t <+: schedule → ∀ path ∈ paths,
    (along o paths s t).2.session.disk.readFile path = s.disk.readFile path

/-- At a turn the work on one file makes a step, or nothing happens. -/
theorem stepAt_cases (o : BatchOptions) (paths : List Bytes) (works : List FileWork) (i : Nat)
    (b : Batch) :
    (∃ path w, BatchM.crash? works = none ∧ paths[i]? = some path ∧ works[i]? = some w
        ∧ (BatchM.stepAt o paths works i).run b
          = (works.set i ((w.step o i path).run b).1, ((w.step o i path).run b).2))
      ∨ ((BatchM.crash? works = none → paths[i]? = none ∨ works[i]? = none)
        ∧ (BatchM.stepAt o paths works i).run b = (works, b)) := by
  unfold BatchM.stepAt
  split
  · next path w hcrash hpath hw => exact .inl ⟨path, w, hcrash, hpath, hw, rfl⟩
  · next h =>
    refine .inr ⟨fun hcrash => ?_, rfl⟩
    cases hpath : paths[i]? with
    | none => exact .inl rfl
    | some path =>
      cases hw : works[i]? with
      | none => exact .inr rfl
      | some w => exact absurd hw (h path w hcrash hpath)

/-- The shared state and the work on every file agree with the files at the start. -/
structure Coherent (o : BatchOptions) (docs : Set Bytes) (paths : List Bytes) (start : Disk)
    (works : List FileWork) (b : Batch) : Prop where
  shares : Shares o docs start b.session.disk b.memory
  agrees : ∀ {i : Nat} {path : Bytes} {w : FileWork}, paths[i]? = some path →
    works[i]? = some w → w.Agrees o.limit start path

/-- A turn keeps the agreement. -/
theorem Coherent.stepAt {works : List FileWork} {b : Batch} {start : Disk}
    (h : Coherent o docs paths start works b) (ho : o.Suits docs paths start)
    (hsame : ∀ path ∈ paths, b.session.disk.readFile path = start.readFile path) (i : Nat) :
    Coherent o docs paths start ((BatchM.stepAt o paths works i).run b).1
      ((BatchM.stepAt o paths works i).run b).2 := by
  rcases stepAt_cases o paths works i b with ⟨path, w, -, hpath, hw, hrun⟩ | ⟨-, hrun⟩
  · have hmem : path ∈ paths := List.mem_of_getElem? hpath
    obtain ⟨hshares, hagrees⟩ := (FileWork.moves_step w b).keeps ho hmem (hsame path hmem) h.shares
      (h.agrees hpath hw)
    rw [hrun]
    refine ⟨hshares, fun {j path' w'} hpath' hw' => ?_⟩
    rw [List.getElem?_set] at hw'
    split at hw'
    · next hij =>
      subst hij
      obtain rfl := Option.some.inj (hpath.symm.trans hpath')
      split at hw'
      · exact Option.some.inj hw' ▸ hagrees
      · cases hw'
    · exact h.agrees hpath' hw'
  · rw [hrun]
    exact h

theorem coherent_along (ho : o.Suits docs paths s.disk) (hu : Undisturbed o paths s schedule) :
    Coherent o docs paths s.disk (along o paths s schedule).1 (along o paths s schedule).2 := by
  induction schedule using List.reverseRecOn with
  | nil =>
    refine ⟨⟨ho.cache, fun _ hm => absurd hm List.not_mem_nil⟩, ?_⟩
    intro i path w hpath hw
    change (paths.map fun _ => FileWork.waiting)[i]? = some w at hw
    rw [List.getElem?_map, hpath] at hw
    exact Option.some.inj hw ▸ trivial
  | append_singleton t i ih =>
    have hprefix : t <+: t ++ [i] := List.prefix_append t [i]
    rw [along_concat]
    exact (ih fun u hu' => hu u (hu'.trans hprefix)).stepAt ho (hu t hprefix) i

theorem length_along : (along o paths s schedule).1.length = paths.length := by
  induction schedule using List.reverseRecOn with
  | nil => exact List.length_map _
  | append_singleton t i ih =>
    rw [along_concat]
    rcases stepAt_cases o paths (along o paths s t).1 i (along o paths s t).2 with
      ⟨path, w, -, -, -, hrun⟩ | ⟨-, hrun⟩
    · rw [hrun]
      exact (List.length_set ..).trans ih
    · rwa [hrun]

theorem exists_path {i : Nat} {w : FileWork} (h : (along o paths s schedule).1[i]? = some w) :
    ∃ path, paths[i]? = some path := by
  have hi := (List.getElem?_eq_some_iff.mp h).1
  rw [length_along] at hi
  exact ⟨_, List.getElem?_eq_getElem hi⟩

/-- A process that goes on went on before. -/
theorem crash?_of_concat {i : Nat}
    (h : BatchM.crash? (along o paths s (schedule ++ [i])).1 = none) :
    BatchM.crash? (along o paths s schedule).1 = none := by
  rw [along_concat] at h
  rcases stepAt_cases o paths (along o paths s schedule).1 i (along o paths s schedule).2 with
    ⟨path, w, hcrash, -, -, -⟩ | ⟨-, hrun⟩
  · exact hcrash
  · rwa [hrun] at h

/-- As long as the process goes on, work that has its turn comes closer to its end. -/
theorem left_along {i : Nat} {w : FileWork}
    (hcrash : BatchM.crash? (along o paths s schedule).1 = none)
    (h : (along o paths s schedule).1[i]? = some w) :
    w.left ≤ FileWork.maxSteps - schedule.count i := by
  induction schedule using List.reverseRecOn generalizing i w with
  | nil =>
    change (paths.map fun _ => FileWork.waiting)[i]? = some w at h
    rw [List.getElem?_map] at h
    obtain ⟨path, -, rfl⟩ := Option.map_eq_some_iff.mp h
    exact Nat.le_refl _
  | append_singleton t j ih =>
    have hgoes := crash?_of_concat hcrash
    rw [along_concat] at h
    rw [List.count_append, List.count_singleton]
    rcases stepAt_cases o paths (along o paths s t).1 j (along o paths s t).2 with
      ⟨path, v, -, -, hv, hrun⟩ | ⟨hidle, hrun⟩
    · rw [hrun, List.getElem?_set] at h
      split at h
      · next hji =>
        subst hji
        split at h
        · have hmoves : FileWork.Moves o j path _ _ v _ _ _ :=
            FileWork.moves_step v (along o paths s t).2
          have hleft := hmoves.left_le
          have hbefore := ih hgoes hv
          obtain rfl := Option.some.inj h
          rw [beq_self_eq_true, if_pos rfl]
          omega
        · cases h
      · next hji =>
        rw [beq_eq_false_iff_ne.mpr hji, if_neg Bool.false_ne_true]
        exact ih hgoes h
    · rw [hrun] at h
      have hji : j ≠ i := by
        rintro rfl
        obtain ⟨path, hpath⟩ := exists_path h
        rcases hidle hgoes with hnone | hnone
        · exact Option.some_ne_none _ (hpath.symm.trans hnone)
        · exact Option.some_ne_none _ (h.symm.trans hnone)
      rw [beq_eq_false_iff_ne.mpr hji, if_neg Bool.false_ne_true]
      exact ih hgoes h

/-- All work is finished. -/
def Over (works : List FileWork) : Prop := ∀ w ∈ works, ∃ r, w.result? = some r

/-- A batch is over when every file had its turns, if the process goes on. -/
theorem over_along (h : ∀ i < paths.length, FileWork.maxSteps ≤ schedule.count i)
    (hcrash : BatchM.crash? (along o paths s schedule).1 = none) :
    Over (along o paths s schedule).1 := by
  intro w hw
  obtain ⟨i, hi, hget⟩ := List.mem_iff_getElem.mp hw
  have hleft := left_along hcrash (List.getElem?_eq_some_iff.mpr ⟨hi, hget⟩)
  rw [length_along] at hi
  have hturns := h i hi
  exact FileWork.exists_result_of_left (by omega) (List.findSome?_eq_none_iff.mp hcrash w hw)

/-- The process goes on where the compilation of every file by itself comes to its end. -/
theorem crash?_along (ho : o.Suits docs paths s.disk) (hu : Undisturbed o paths s schedule)
    (hreturns : ∀ path ∈ paths, (s.disk.moduleAt o.limit path).crash? = none) :
    BatchM.crash? (along o paths s schedule).1 = none := by
  refine List.findSome?_eq_none_iff.mpr fun w hw => ?_
  obtain ⟨i, hget⟩ := List.mem_iff_getElem?.mp hw
  obtain ⟨path, hpath⟩ := exists_path hget
  have hagrees := (coherent_along ho hu).agrees hpath hget
  cases w with
  | crashed how => cases hagrees.symm.trans (hreturns path (List.mem_of_getElem? hpath))
  | _ => rfl

/-- In a batch that is over, the compilation of every file by itself comes to its end. -/
theorem returns_of_over (ho : o.Suits docs paths s.disk) (hu : Undisturbed o paths s schedule)
    (hover : Over (along o paths s schedule).1) :
    ∀ path ∈ paths, (s.disk.moduleAt o.limit path).crash? = none := by
  intro path hpath
  obtain ⟨i, hi⟩ := List.mem_iff_getElem?.mp hpath
  have hlt : i < (along o paths s schedule).1.length := by
    rw [length_along]
    exact (List.getElem?_eq_some_iff.mp hi).1
  obtain ⟨w, hw⟩ : ∃ w, (along o paths s schedule).1[i]? = some w :=
    ⟨_, List.getElem?_eq_getElem hlt⟩
  obtain ⟨r, hr⟩ := hover w (List.mem_of_getElem? hw)
  have hagrees := (coherent_along ho hu).agrees hi hw
  cases w with
  | finished r' => exact hagrees.returns
  | _ => cases hr

theorem forall₂_results {P : Bytes → FileResult → Prop} {works : List FileWork}
    (hlen : works.length = paths.length) (hover : Over works)
    (h : ∀ {i : Nat} {path : Bytes} {w : FileWork} {r : FileResult}, paths[i]? = some path →
      works[i]? = some w → w.result? = some r → P path r) :
    List.Forall₂ P paths (results works) := by
  induction paths generalizing works with
  | nil =>
    obtain rfl := List.eq_nil_of_length_eq_zero hlen
    exact .nil
  | cons path rest ih =>
    obtain ⟨w, ws, rfl⟩ := List.exists_cons_of_length_eq_add_one hlen
    obtain ⟨r, hr⟩ := hover w List.mem_cons_self
    rw [results, List.filterMap_cons_some hr]
    refine .cons (h (i := 0) rfl rfl hr) (ih (Nat.succ.inj hlen)
      (fun v hv => hover v (List.mem_cons_of_mem w hv)) fun {i} _ _ _ hpath hw hr => ?_)
    exact h (i := i + 1) hpath hw hr

/-- What the work on a file ends in is the result of the file by itself. -/
theorem isAlone_along (ho : o.Suits docs paths s.disk) (hu : Undisturbed o paths s schedule)
    (hover : Over (along o paths s schedule).1) :
    List.Forall₂ (fun path r => r.IsAlone o.limit s.disk path) paths
      (results (along o paths s schedule).1) := by
  refine forall₂_results length_along hover fun {i path w r} hpath hw hr => ?_
  have hagrees := (coherent_along ho hu).agrees hpath hw
  cases w with
  | finished r' => exact Option.some.inj hr ▸ hagrees
  | _ => cases hr

theorem untouched_along (h : ∀ path ∈ paths, ∃ content, s.disk.readFile path = .ok content
      ∧ ∀ c key, o.cache = some c → Disk.lead s.disk.cwd path ≠ c.placeOf s.disk.cwd key)
    (schedule : List Nat) :
    Untouched paths s.disk (along o paths s schedule).2.session.disk := by
  induction schedule using List.reverseRecOn with
  | nil => exact ⟨rfl, fun _ _ => rfl⟩
  | append_singleton t i ih =>
    rw [along_concat]
    rcases stepAt_cases o paths (along o paths s t).1 i (along o paths s t).2 with
      ⟨path, w, -, -, -, hrun⟩ | ⟨-, hrun⟩
    · rw [hrun]
      exact (FileWork.moves_step w _).untouched h ih
    · rwa [hrun]

/-- A batch of files that stand in no place of the cache does not change them. -/
theorem undisturbed_of_apart (h : ∀ path ∈ paths, ∃ content, s.disk.readFile path = .ok content
      ∧ ∀ c key, o.cache = some c → Disk.lead s.disk.cwd path ≠ c.placeOf s.disk.cwd key) :
    Undisturbed o paths s schedule :=
  fun t _ => (untouched_along h t).same

/-! ## Every schedule -/

theorem count_oneByOne {n i : Nat} (h : i < n) : FileWork.maxSteps ≤ (oneByOne n).count i := by
  have hsub : (List.replicate FileWork.maxSteps i).Sublist (oneByOne n) := by
    rw [oneByOne, List.flatMap_def]
    exact List.sublist_flatten_of_mem (List.mem_map_of_mem (List.mem_range.mpr h))
  have hcount := hsub.count_le i
  rwa [List.count_replicate_self] at hcount

/-- The document of a program with nothing in it. -/
def bareDocument : Bytes := Document.shortDocument "p" none

def threeFiles : Session where
  disk := { entries := [(["a"], .file bareDocument), (["b"], .file bareDocument),
    (["x"], .file []), (["cache"], .directory)] }

def threePaths : List Bytes := ["a", "b", "x"]

def withCache : BatchOptions := { cache := some ⟨"cache"⟩ }

theorem read_bareDocument : Document.read bareDocument = .ok { name := "p" } := rfl

theorem fits_bareModule {bag : Bag} (hbag : bag.items = []) (files : FileSet) :
    (CacheEntry.ofModule "p" { text := ";; p\n\n(module\n)\n" } bag files).Fits where
  name := (by decide +kernel : ("p" : Bytes).length < Pack.limit)
  text := (by decide +kernel : (";; p\n\n(module\n)\n" : Bytes).length < Pack.limit)
  exports := Pack.limit_pos
  exportNames := fun _ h => absurd h List.not_mem_nil
  imports := Pack.limit_pos
  skipped := Pack.limit_pos
  skippedNames := fun _ h => absurd h List.not_mem_nil
  diagnostics := by
    rw [CacheEntry.ofModule, hbag]
    exact Pack.limit_pos
  diagnostic := by
    rw [CacheEntry.ofModule, hbag]
    exact fun _ h => absurd h List.not_mem_nil

theorem fits_bareDocument {limit : Int} {e : CacheEntry}
    (h : Document.Keeps limit bareDocument e) : e.Fits := by
  obtain ⟨p, m, hread, hout, rfl⟩ := h
  obtain rfl := Except.ok.inj (read_bareDocument.symm.trans hread)
  obtain rfl : ({ text := ";; p\n\n(module\n)\n" } : ModuleOutput) = m := Except.ok.inj hout
  have hbag : (Program.compile { name := "p" } limit).bag
      = (FilteredBag.reportAll { bag := Bag.ofLimit limit } []).bag.sort := rfl
  exact fits_bareModule (hbag ▸ List.mergeSort_nil) _

theorem suits_threeFiles : withCache.Suits {bareDocument, []} threePaths threeFiles.disk where
  keys := by
    have hne : cacheKey bareDocument ≠ cacheKey [] := by decide +kernel
    rintro x (rfl | rfl) y (rfl | rfl) h
    · rfl
    · exact absurd h hne
    · exact absurd h.symm hne
    · rfl
  entries := by
    rintro data (rfl | rfl) limit e h
    · exact fits_bareDocument h
    · obtain ⟨p, m, hread, -⟩ := h
      cases hread
  files := by
    have hread : ∀ path ∈ threePaths, threeFiles.disk.readFile path = .ok bareDocument
        ∨ threeFiles.disk.readFile path = .ok [] := by decide +kernel
    intro path hpath data hdata
    rcases hread path hpath with h | h
    · exact .inl (Except.ok.inj (hdata.symm.trans h))
    · exact .inr (Except.ok.inj (hdata.symm.trans h))
  cache := by
    intro c _ key content h
    have hname {name : Bytes} (hname : name.length < 3) {x : DiskEntry} :
        (c.placeOf threeFiles.disk.cwd key, DiskEntry.file content) ≠ ([name], x) := fun he =>
      ModuleCache.placeOf_ne hname c _ key [] (congrArg Prod.fst he).symm
    rcases List.mem_cons.mp (Disk.mem_of_entry? h) with ha | hrest
    · exact absurd ha (hname (by decide +kernel))
    rcases List.mem_cons.mp hrest with hb | hrest
    · exact absurd hb (hname (by decide +kernel))
    rcases List.mem_cons.mp hrest with hx | hrest
    · exact absurd hx (hname (by decide +kernel))
    · cases congrArg Prod.snd (List.mem_singleton.mp hrest)

theorem undisturbed_threeFiles (schedule : List Nat) :
    Undisturbed withCache threePaths threeFiles schedule := by
  have hread : ∀ path ∈ threePaths, (threeFiles.disk.readFile path).toOption.isSome
      ∧ Disk.lead threeFiles.disk.cwd path = [] ++ [path] ∧ path.length < 3 := by decide +kernel
  refine undisturbed_of_apart fun path hpath => ?_
  obtain ⟨hsome, hlead, hshort⟩ := hread path hpath
  cases hfile : threeFiles.disk.readFile path with
  | error e =>
    rw [hfile] at hsome
    cases hsome
  | ok content =>
    refine ⟨content, rfl, fun c key _ => ?_⟩
    rw [hlead]
    exact ModuleCache.placeOf_ne hshort c _ key []

/-- A document whose only declaration is left out. -/
def holedDocument : Bytes := Document.shortFront "q" ++ Pack.array [Pack.nil]

def twoFiles : Session where
  disk := { entries := [(["a"], .file bareDocument), (["b"], .file holedDocument)] }

def twoPaths : List Bytes := ["a", "b"]

end Batch

end WastForge
