import WastForge.Proofs.Machine.Invariant
import WastForge.Proofs.Workflow.Place
import WastForge.Workflow.Run

/-!
# Where output goes

A program may redirect its output to a file that it names. The name has to be a last component of a
path, which `.` and `..` are too: these lead to the directory of the output and to the one around
it. Every other name leads right into the directory, and nothing else is written there or anywhere.
-/

namespace WastForge

/-! ## Names of files -/

namespace Output

variable {o o' : Output} {name : Bytes}

/-- Output can be redirected once, to any name without a separator. -/
theorem redirect_eq_ok_iff : o.redirect name = .ok o' ↔
    o.file = none ∧ (name ≠ [] ∧ Path.slash ∉ name) ∧ o' = ⟨some (name, [])⟩ := by
  rw [redirect]
  cases hfile : o.file with
  | some file => simp
  | none =>
    have hbad : (name.isEmpty || Path.isAbsolute name || Path.base name != name) = false
        ↔ name ≠ [] ∧ Path.slash ∉ name := by
      rw [Bool.or_eq_false_iff, Bool.or_eq_false_iff, List.isEmpty_eq_false_iff,
        bne_eq_false_iff_eq]
      constructor
      · rintro ⟨⟨hne, habsolute⟩, hbase⟩
        refine ⟨hne, ((Path.base_eq_self_iff hne).mp hbase).resolve_right fun hroot => ?_⟩
        rw [hroot] at habsolute
        exact absurd habsolute (by decide)
      · rintro ⟨hne, hslash⟩
        exact ⟨⟨hne, Path.isAbsolute_of_slash_not_mem hslash⟩,
          Path.base_of_slash_not_mem hne hslash⟩
    rw [← hbad]
    cases (name.isEmpty || Path.isAbsolute name || Path.base name != name) with
    | true => simp
    | false => simp [eq_comm]

/-- Output goes nowhere, or to a file with a name to which it can be redirected. -/
def Named (o : Output) : Prop :=
  ∀ name content, o.file = some (name, content) → name ≠ [] ∧ Path.slash ∉ name

theorem named_redirect (h : o.redirect name = .ok o') : o'.Named := by
  obtain ⟨-, hname, rfl⟩ := redirect_eq_ok_iff.mp h
  rintro _ _ ⟨⟩
  exact hname

theorem named_append {data : Bytes} (ho : o.Named) (h : o.append data = .ok o') : o'.Named := by
  rw [append] at h
  cases hfile : o.file with
  | none =>
    rw [hfile] at h
    cases h
  | some file =>
    rw [hfile] at h
    cases h
    rintro _ _ ⟨⟩
    exact ho _ _ hfile

end Output

theorem invariant_named : Invariant (fun m => m.output.Named) (fun _ => True) where
  plain h houtput _ := houtput ▸ h
  redirect _ _ h := Output.named_redirect h
  append hm _ h := Output.named_append hm h
  set h _ := h
  start h _ := h
  back _ h := h
  void := True.intro
  zero := True.intro
  read _ _ := True.intro
  const _ := True.intro
  loaded _ _ := True.intro
  unary _ _ := True.intro
  binary _ _ _ := True.intro

theorem Machine.output_of_start {mod : Script.Module} {m : Machine} (h : start mod = .ok m) :
    m.output = {} := by
  rw [start] at h
  cases hmemory : mod.segments.foldlM (fun mem s => mem.write s.offset s.data)
      (Memory.ofSize mod.memory) with
  | error t =>
    rw [hmemory] at h
    cases h
  | ok memory =>
    rw [hmemory] at h
    cases h
    rfl

/-- However a script runs, its output has no other names. -/
theorem Script.named_execute {text : Bytes} {o : RunOptions} {report : RunReport}
    (h : (execute text o).1 = .ok report) : report.output.Named := by
  unfold execute at h
  split at h
  · cases h
  split at h
  · cases h
  split at h
  · cases h
  · next m hstart =>
    split at h
    · cases h
    · have hnamed : ∀ env ds, (Machine.directives env ds m).2.output.Named := by
        intro env ds
        refine Machine.keeps_directives invariant_named ds ?_
        rw [Machine.output_of_start hstart]
        exact fun _ _ h => nomatch h
      dsimp only at h
      split at h
      · cases h
      · next last _ heq =>
        cases h
        have hlast : last.output = (Machine.directives _ _ m).2.output :=
          congrArg (fun x => x.2.output) heq.symm
        show last.output.Named
        rw [hlast]
        exact hnamed _ _

/-! ## Writing output -/

namespace Output

/-- What is written of output is directories, and the file where its name leads to. -/
theorem save_run (content dir : Bytes) (name : Bytes) (d : Disk) :
    ∃ d', Disk.Gains d d' ∧ (((Output.save ⟨some (name, content)⟩ dir).run d).2 = d'
      ∨ ((Output.save ⟨some (name, content)⟩ dir).run d).2
        = d'.setEntry (Disk.lead d.cwd (Path.join [dir, name])) (.file content)) := by
  by_cases hdir : dir = []
  · exact ⟨d, .refl d, .inl (by rw [hdir]; rfl)⟩
  have hsave : Output.save ⟨some (name, content)⟩ dir
      = (do
        DiskM.mkdirAll dir
        DiskM.writeFile (Path.join [dir, name]) content
        return [Path.join [dir, name]]) := by
    have hempty : dir.isEmpty = false := List.isEmpty_eq_false_iff.mpr hdir
    simp [save, files, hempty]
  rw [hsave]
  have hmake : Disk.Gains d ((DiskM.mkdirAll dir).run d).2 := DiskM.spares_mkdirFrom _ _ d
  refine ⟨_, hmake, ?_⟩
  rcases DiskM.run_bind (DiskM.mkdirAll dir) (fun _ => do
      DiskM.writeFile (Path.join [dir, name]) content
      return [Path.join [dir, name]]) d with h | ⟨_, h⟩
  · exact .inl h
  have hwrite := DiskM.writeFile_run (Path.join [dir, name]) content
    ((DiskM.mkdirAll dir).run d).2
  rw [Disk.lead_bare, hmake.cwd] at hwrite
  rcases DiskM.run_bind (DiskM.writeFile (Path.join [dir, name]) content)
    (fun _ => return [Path.join [dir, name]]) ((DiskM.mkdirAll dir).run d).2 with h' | ⟨_, h'⟩
  all_goals
    rcases hwrite with hw | ⟨-, hw⟩
    · exact .inl (h.trans (h'.trans hw))
    · exact .inr (h.trans (h'.trans hw))

/-- No file is touched by output but the one to which its name leads. -/
theorem entry?_save {content dir name found : Bytes} {d : Disk} {names : List Bytes}
    (hne : names ≠ Disk.lead d.cwd (Path.join [dir, name])) :
    Disk.entry? ((Output.save ⟨some (name, content)⟩ dir).run d).2 names = some (.file found)
      ↔ d.entry? names = some (.file found) := by
  obtain ⟨d', hgains, h⟩ := save_run content dir name d
  have hsame : Disk.entry? ((Output.save ⟨some (name, content)⟩ dir).run d).2 names
      = d'.entry? names := by
    rcases h with h | h
    · rw [h]
    · rw [h, Disk.entry?_setEntry_of_ne hne]
  rw [hsame]
  exact ⟨hgains.file, hgains.stays⟩

end Output

/-! ## Inside the directory -/

/-- A name leads right into a directory. -/
structure Path.LeadsInto (dir name : Bytes) : Prop where
  parent : Path.dir (join [dir, name]) = clean dir
  last : base (join [dir, name]) = name
  place : ∀ cwd, Disk.lead cwd (join [dir, name]) = Disk.lead cwd (clean dir) ++ [name]

theorem Path.leadsInto_iff {name : Bytes} (hne : name ≠ []) (hslash : slash ∉ name) (dir : Bytes) :
    LeadsInto dir name ↔ name ≠ "." ∧ name ≠ ".." := by
  constructor
  · rintro ⟨-, -, hlead⟩
    have hlead := hlead []
    rw [Disk.lead_join hne hslash, Disk.lead_clean] at hlead
    have hlength := congrArg List.length hlead
    rw [List.length_append, List.length_singleton] at hlength
    constructor
    · rintro rfl
      rw [Disk.goOn_dot] at hlength
      exact Nat.succ_ne_self _ hlength.symm
    · rintro rfl
      rw [Disk.goOn_up, List.length_dropLast] at hlength
      omega
  · rintro ⟨hdot, hup⟩
    have hname : IsName name := ⟨hne, hslash, hdot, hup⟩
    refine ⟨dir_join_name hname dir, base_join_name hname dir, fun cwd => ?_⟩
    rw [Disk.lead_join hne hslash, Disk.goOn_name hname, Disk.lead_clean]

/-- Every name to which output can be redirected leads right into the directory of the output but
for two: one leads to the directory itself, the other to the one around it. No other file is touched
when the output is written. However a script runs, its output has no other names. -/
theorem Output.redirect_leads {o o' : Output} {name : Bytes} (h : o.redirect name = .ok o')
    (dir : Bytes) :
    (name ≠ [] ∧ Path.slash ∉ name)
      ∧ (Path.LeadsInto dir name ↔ name ≠ "." ∧ name ≠ "..")
      ∧ (name = "." → ∀ cwd, Disk.lead cwd (Path.join [dir, name]) = Disk.lead cwd (Path.clean dir))
      ∧ (name = ".." → ∀ cwd,
          Disk.lead cwd (Path.join [dir, name]) = (Disk.lead cwd (Path.clean dir)).dropLast)
      ∧ (∀ (content found : Bytes) (d : Disk) (names : List Bytes),
          names ≠ Disk.lead d.cwd (Path.join [dir, name]) →
          (Disk.entry? ((Output.save ⟨some (name, content)⟩ dir).run d).2 names
              = some (.file found)
            ↔ d.entry? names = some (.file found)))
      ∧ ∀ (text : Bytes) (options : RunOptions) (report : RunReport) (written content : Bytes),
          (Script.execute text options).1 = .ok report →
          report.output.file = some (written, content) →
          (Path.LeadsInto dir written ↔ written ≠ "." ∧ written ≠ "..") := by
  obtain ⟨-, ⟨hne, hslash⟩, -⟩ := redirect_eq_ok_iff.mp h
  refine ⟨⟨hne, hslash⟩, Path.leadsInto_iff hne hslash dir, fun hdot cwd => ?_, fun hup cwd => ?_,
    fun _ _ _ _ => entry?_save, fun text options report written content hrun hfile => ?_⟩
  · rw [Disk.lead_join hne hslash, hdot, Disk.goOn_dot, Disk.lead_clean]
  · rw [Disk.lead_join hne hslash, hup, Disk.goOn_up, Disk.lead_clean]
  · obtain ⟨hne, hslash⟩ := Script.named_execute hrun written content hfile
    exact Path.leadsInto_iff hne hslash dir

/-- A plain name leads into the directory of the output. -/
theorem Output.redirect_leads_plain :
    Output.redirect {} "log" = .ok ⟨some ("log", [])⟩ ∧ Path.LeadsInto "out" "log" := by
  have h : Output.redirect {} "log" = .ok ⟨some ("log", [])⟩ :=
    redirect_eq_ok_iff.mpr ⟨rfl, by decide +kernel, rfl⟩
  have hname : ("log" : Bytes) ≠ "." ∧ ("log" : Bytes) ≠ ".." := by decide +kernel
  exact ⟨h, (Output.redirect_leads h "out").2.1.mpr hname⟩

/-- Output can be redirected to the directory around its own, which is no child of it. -/
theorem Output.redirect_up :
    Output.redirect {} ".." = .ok ⟨some ("..", [])⟩
      ∧ Path.join ["out/log", ".."] = Bytes.ofString "out"
      ∧ Path.dir (Path.join ["out/log", ".."]) ≠ Path.clean "out/log"
      ∧ Path.base (Path.join ["out/log", ".."]) ≠ Bytes.ofString ".." :=
  ⟨redirect_eq_ok_iff.mpr ⟨rfl, by decide +kernel, rfl⟩, by decide +kernel, by decide +kernel,
    by decide +kernel⟩

end WastForge
