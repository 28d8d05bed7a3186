import Mathlib.Data.Set.Operations
import WastForge.Compile
import WastForge.Document.Read
import WastForge.Proofs.Document.Declared
import WastForge.Proofs.Workflow.Place

/-!
# Caches of modules

What is kept is found again. A cache is sound when the files in the places of its entries hold
what compilations of the documents with their keys kept, and it stays so when the module of one
more document is kept. A sound cache gives a document the module that compiling it would give, as
long as no other document has its key.
-/

namespace WastForge

open Document (Short)
open Pack (Reads Aligned)

/-! ## Entries are read back -/

namespace Pack

theorem reads_blob {s : Bytes} (h : s.length < limit) : Reads readText (blob s) s := by
  unfold blob
  dsimp only
  split
  · exact (reads_head_number (g := .text) (fun _ => rfl) ‹_›).bind (reads_take s)
  split
  · exact (reads_head_number (g := .text) (fun _ => rfl) ‹_›).bind (reads_take s)
  · exact (reads_head_number (g := .text) (fun _ => rfl) h).bind (reads_take s)

theorem reads_texts {l : List Bytes} (hlen : l.length < limit) (h : ∀ s ∈ l, s.length < limit) :
    Reads (updateTexts []) (CacheEntry.writeList text l) l := by
  have hitems : (Rows.ofList l).getD [] = l := Document.items_ofList l
  have hrows : Reads (readRows readText) (rows text (Rows.ofList l)) (Rows.ofList l) :=
    reads_rows (by rwa [hitems]) fun s hs => reads_text (h s (by rwa [hitems] at hs))
  have hget := hrows.map fun rows => rows.getD []
  rwa [hitems] at hget

end Pack

/-- The texts of a kept diagnostic can be written. -/
structure KeptDiagnostic.Fits (k : KeptDiagnostic) : Prop where
  message : Short k.message
  member : Short k.member
  path : Short k.path

theorem KeptDiagnostic.reads_write {k : KeptDiagnostic} (h : k.Fits) :
    Reads (update {}) k.write k :=
  Aligned.reads
    (.cons ((Pack.reads_u8 k.severity).map _) (.cons ((Pack.reads_u16 k.code).map _)
      (.cons ((Pack.reads_text h.message).map _) (.cons ((Pack.reads_text h.member).map _)
        (.cons ((Pack.reads_text h.path).map _) (.cons ((Pack.reads_u32 k.line).map _)
          (.cons ((Pack.reads_u32 k.col).map _) .nil)))))))
    (by decide +kernel)

namespace CacheEntry

/-- The texts and lists of an entry can be written. -/
structure Fits (e : CacheEntry) : Prop where
  name : Short e.name
  text : Short e.text
  exports : Short e.exports
  exportNames : ∀ s ∈ e.exports, Short s
  imports : Short e.imports
  skipped : Short e.skipped
  skippedNames : ∀ s ∈ e.skipped, Short s
  diagnostics : Short e.diagnostics
  diagnostic : ∀ k ∈ e.diagnostics, k.Fits

theorem reads_write {e : CacheEntry} (h : e.Fits) : Reads reader e.write e := by
  have hitems : (Rows.ofList e.diagnostics).getD [] = e.diagnostics :=
    Document.items_ofList e.diagnostics
  have hdiagnostics : Reads (Pack.updateSlots {} KeptDiagnostic.update {})
      (writeList KeptDiagnostic.write e.diagnostics) (.ofRows (Rows.ofList e.diagnostics)) := by
    refine Pack.reads_slots ?_ fun k hk =>
      KeptDiagnostic.reads_write (h.diagnostic k (by rwa [hitems] at hk))
    rw [hitems]
    exact h.diagnostics
  unfold reader
  refine Reads.last (a := ({ e with diagnostics := [] }, .ofRows (Rows.ofList e.diagnostics))) ?_ ?_
  · refine Aligned.reads
      (.cons (b := (_, {})) ((Pack.reads_u16 e.version).map _)
        (.cons (b := (_, {})) ((Pack.reads_text h.name).map _)
          (.cons (b := (_, {})) ((Pack.reads_text h.text).map _)
            (.cons (b := (_, {})) ((Pack.reads_u32 e.heapSize).map _)
              (.cons (b := (_, {})) ((Pack.reads_u32 e.memorySize).map _)
                (.cons (b := (_, {})) ((Pack.reads_texts h.exports h.exportNames).map _)
                  (.cons (b := (_, {})) ((Pack.reads_blob h.imports).map _)
                    (.cons (b := ({ e with diagnostics := [] }, {}))
                      ((Pack.reads_texts h.skipped h.skippedNames).map _)
                      (.cons ?diagnostics .nil)))))))))
      (by decide +kernel)
    exact hdiagnostics.map (Prod.mk _)
  · show pure { e with diagnostics := Rows.items (Rows.ofList e.diagnostics) } = pure e
    rw [Document.items_ofList]

/-- An entry is found in what was written of it. -/
theorem ofBytes?_write {e : CacheEntry} (h : e.Fits) (hv : e.version = currentVersion) :
    ofBytes? e.write = some e := by
  have hread := reads_write h []
  rw [List.append_nil] at hread
  rw [ofBytes?, show reader.run e.write = _ from hread]
  exact if_pos hv

theorem toModule_ofModule (name : Bytes) (m : ModuleOutput) (bag : Bag) (files : FileSet) :
    (ofModule name m bag files).toModule = m := by
  have hops : (m.imports.map (·.code)).map HarnessOp.mk = m.imports := by
    rw [List.map_map]
    exact List.map_id _
  show { m with imports := (m.imports.map (·.code)).map HarnessOp.mk } = m
  rw [hops]

end CacheEntry

/-! ## Documents and their entries -/

namespace Document

/-- The module of a document by itself. -/
def moduleOf (limit : Int) (data : Bytes) : Result ModuleOutput := do
  ((← read data).compile limit).outcome

/-- How many diagnostics are kept has no part in what the module is. -/
theorem moduleOf_limit (limit limit' : Int) (data : Bytes) :
    moduleOf limit data = moduleOf limit' data := rfl

/-- What a cache keeps of a document that was compiled with room for some diagnostics. -/
def Keeps (limit : Int) (data : Bytes) (e : CacheEntry) : Prop :=
  ∃ p m, read data = .ok p ∧ (p.compile limit).outcome = .ok m
    ∧ e = .ofModule p.name m (p.compile limit).bag p.files

theorem Keeps.version {limit : Int} {data : Bytes} {e : CacheEntry} (h : Keeps limit data e) :
    e.version = CacheEntry.currentVersion := by
  obtain ⟨p, m, -, -, rfl⟩ := h
  rfl

/-- An entry holds the module of its document, with whatever limit it was made. -/
theorem Keeps.moduleOf {limit : Int} {data : Bytes} {e : CacheEntry} (h : Keeps limit data e)
    (limit' : Int) : moduleOf limit' data = .ok e.toModule := by
  obtain ⟨p, m, hread, hout, rfl⟩ := h
  rw [moduleOf_limit limit' limit, Document.moduleOf, hread, CacheEntry.toModule_ofModule]
  exact hout

open Pack in
/-- The document of a program over the builtin types, up to its declarations; the type table is made
of lists of fields. -/
def shortFront (name : Bytes) : Bytes :=
  [0x96, 1] ++ text name ++ nil
    ++ array (TypeTable.builtin.types.map fun t =>
      [0x94, t.kind.code, 0, t.width, UInt8.ofNat t.payload.toNat])
    ++ array (TypeTable.builtin.nominals.map fun n => 0x92 :: text n.name ++ nil)

/-- The document of a program over the builtin types. -/
def shortDocument (name : Bytes) (decls : Rows TypeDecl) : Bytes :=
  shortFront name ++ Pack.rows writeDecl decls

end Document

/-! ## Sound caches -/

namespace ModuleCache

open Document (Keeps)

/-- Every file in the place of an entry was written for a document that has its key. -/
def Sound (c : ModuleCache) (docs : Set Bytes) (d : Disk) : Prop :=
  ∀ key content, d.entry? (c.placeOf d.cwd key) = some (.file content) →
    ∃ data ∈ docs, cacheKey data = key ∧ ∃ limit e, Keeps limit data e ∧ content = e.write

variable {c : ModuleCache} {docs : Set Bytes} {d : Disk} {data : Bytes} {limit : Int}
  {e : CacheEntry}

/-- A cache stays sound when the entry of one more document is kept. -/
theorem Sound.put (h : c.Sound docs d) (hdata : data ∈ docs) (he : Keeps limit data e) :
    c.Sound docs ((c.put (cacheKey data) e).run d).2 := by
  intro key content hfile
  rw [cwd_put] at hfile
  rcases entry?_put hfile with hold | ⟨hplace, hcontent⟩
  · exact h key content hold
  · exact ⟨data, hdata, (placeOf_injective hplace).symm, limit, e, he, hcontent⟩

/-- What a sound cache gives for a document is an entry of this document. -/
theorem Sound.get? (h : c.Sound docs d) (hinj : docs.InjOn cacheKey)
    (hfits : ∀ data ∈ docs, ∀ limit e, Keeps limit data e → e.Fits) (hdata : data ∈ docs)
    (he : c.get? d (cacheKey data) = some e) : ∃ limit, Keeps limit data e := by
  rw [ModuleCache.get?] at he
  split at he
  · next content hread =>
    obtain ⟨data', hdata', hkey, limit, e', he', rfl⟩ :=
      h _ _ (Disk.entry?_of_readFile hread)
    obtain rfl := hinj hdata' hdata hkey
    rw [CacheEntry.ofBytes?_write (hfits _ hdata _ _ he') he'.version] at he
    exact ⟨limit, Option.some.inj he ▸ he'⟩
  · cases he

end ModuleCache

end WastForge
