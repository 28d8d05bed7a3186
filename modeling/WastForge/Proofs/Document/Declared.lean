import WastForge.Document.Read
import WastForge.Proofs.Document.Tree

/-!
# Documents are read back

The declarations, the type table and the file paths of a program are read back from its document,
as the draft that the program is made from.
-/

namespace WastForge

open Document (Short)

/-- The texts and lists of a function can be written, those of its body apart. -/
structure Func.Fits (f : Func) : Prop where
  name : Short f.name
  declaringType : Short f.declaringType
  exportName : Short f.exportName
  params : Short (Rows.items f.params)
  locals : Short (Rows.items f.locals)
  localNames : ∀ l ∈ Rows.items f.params ++ Rows.items f.locals, Short l.name

/-- The texts and lists of a type declaration can be written, those of bodies apart. -/
structure TypeDecl.Fits (d : TypeDecl) : Prop where
  name : Short d.name
  fields : Short (Rows.items d.fields)
  fieldNames : ∀ f, some f ∈ Rows.items d.fields → Short f.name
  funcs : Short (Rows.items d.funcs)
  func : ∀ f ∈ Rows.items d.funcs, f.Fits

/-- The texts and lists of a nominal slot can be written. -/
structure Nominal.Fits (n : Nominal) : Prop where
  name : Short n.name
  fields : Short n.fields
  fieldNames : ∀ f ∈ n.fields, Short f.name

/-- All texts and lists of a program can be written, and its operators are the ones that their
numbers mean. -/
structure Program.Fits (p : Program) : Prop where
  name : Short p.name
  files : Short p.files.paths
  paths : ∀ path ∈ p.files.paths, Short path
  types : Short p.types.types
  nominals : Short p.types.nominals
  nominal : ∀ n ∈ p.types.nominals, n.Fits
  decls : Short (Rows.items p.decls)
  decl : ∀ d ∈ Rows.items p.decls, d.Fits
  nodes : p.Throughout Expr.Fits Stmt.Fits

end WastForge

namespace WastForge.Document

open Pack

/-! ## Type tables -/

theorem reads_descriptor {d : Descriptor} (hk : Kind.ofCode d.kind.code = d.kind) :
    Reads (updateDescriptor {}) (writeDescriptor d) d := by
  unfold updateDescriptor writeDescriptor
  exact Aligned.reads
    (.cons (b := { kind := d.kind }) ((reads_u8 _).last (by rw [hk]))
      (.cons ((reads_u32 d.elem).map _) (.cons ((reads_u8 d.width).map _)
        (.cons ((reads_u32 d.payload).map _) .nil))))
    (by decide +kernel)

theorem reads_structField {f : StructField} (hname : Short f.name) :
    Reads (updateStructField {}) (writeStructField f) f :=
  Aligned.reads (.cons ((reads_text hname).map _) (.cons ((reads_u32 f.type).map _) .nil))
    (by decide +kernel)

theorem items_ofList {α : Type} (l : List α) : Rows.items (Rows.ofList l) = l := by
  cases l <;> rfl

/-- The draft that a nominal slot is read into. -/
def NominalDraft.ofNominal (n : Nominal) : NominalDraft := ⟨n.name, .ofRows (Rows.ofList n.fields)⟩

theorem NominalDraft.toNominal_ofNominal (n : Nominal) : (ofNominal n).toNominal = n := by
  simp only [toNominal, ofNominal, Slots.ofRows, items_ofList]

theorem reads_nominal {n : Nominal} (h : n.Fits) :
    Reads (updateNominal {}) (writeNominal n) (.ofNominal n) := by
  have hitems : (Rows.ofList n.fields).getD [] = n.fields := items_ofList n.fields
  have hfields : Reads (updateSlots {} updateStructField {})
      (Pack.rows writeStructField (Rows.ofList n.fields)) (.ofRows (Rows.ofList n.fields)) := by
    refine reads_slots ?_ fun f hf => reads_structField (h.fieldNames f (by rwa [hitems] at hf))
    rw [hitems]
    exact h.fields
  exact Aligned.reads (.cons ((reads_text h.name).map _) (.cons (hfields.map _) .nil))
    (by decide +kernel)

/-! ## Declarations -/

theorem reads_local {l : Local} (hname : Short l.name) :
    Reads (updateLocal {}) (writeLocal l) l :=
  Aligned.reads (.cons ((reads_text hname).map _) (.cons ((reads_u32 l.type).map _) .nil))
    (by decide +kernel)

theorem reads_locals {rows : Option (List Local)} (hlen : Short (Rows.items rows))
    (hname : ∀ l ∈ Rows.items rows, Short l.name) :
    Reads (updateSlots {} updateLocal {}) (Pack.rows writeLocal rows) (.ofRows rows) :=
  reads_slots hlen fun l hl => reads_local (hname l hl)

/-- The draft that a function is read into. -/
def FuncDraft.ofFunc (f : Func) : FuncDraft :=
  ⟨{ f with params := none, locals := none }, .ofRows f.params, .ofRows f.locals⟩

theorem FuncDraft.toFunc_ofFunc (f : Func) : (ofFunc f).toFunc = f := rfl

theorem reads_func {stmt : Update Stmt} {f : Func} (h : f.Fits)
    (hbody : Reads (stmt .missing) (writeStmt f.body) f.body) :
    Reads (updateFunc stmt {}) (writeFunc f) (.ofFunc f) := by
  have hparams := reads_locals h.params fun l hl => h.localNames l (List.mem_append_left _ hl)
  have hlocals := reads_locals h.locals fun l hl => h.localNames l (List.mem_append_right _ hl)
  unfold updateFunc writeFunc
  exact Aligned.reads
    (.cons (((reads_text h.name).map _).map _)
      (.cons (((reads_text h.declaringType).map _).map _)
        (.cons (hparams.map _) (.cons (hlocals.map _)
          (.cons (((reads_u32 f.result).map _).map _)
            (.cons (((reads_u8 f.flags).map _).map _)
              (.cons (((reads_text h.exportName).map _).map _)
                (.cons ((hbody.map _).map _)
                  (.cons (((reads_span f.span).map _).map _) .nil)))))))))
    (by decide +kernel)

theorem reads_field {f : FieldDecl} (hname : Short f.name) :
    Reads (updateField {}) (writeField f) f := by
  unfold updateField writeField
  exact Aligned.reads
    (.cons ((reads_text hname).map _) (.cons ((reads_u32 f.type).map _)
      (.cons ((reads_bool f.readOnly).map _) (.cons ((reads_span f.span).map _) .nil))))
    (by decide +kernel)

theorem reads_fieldPlace {place : Option FieldDecl} (hname : ∀ f, place = some f → Short f.name) :
    Reads (updateOptional {} updateField none) (optional writeField place) place := by
  cases place with
  | none => exact reads_optional_none
  | some f => exact reads_optional_some (head?_record (by simp)) (reads_field (hname f rfl))

/-- The draft that a type declaration is read into. -/
def DeclDraft.ofDecl (d : TypeDecl) : DeclDraft :=
  ⟨d.name, .ofRows d.fields, .ofRows (d.funcs.map (List.map fun f => some (.ofFunc f))), d.span⟩

theorem DeclDraft.toDecl_ofDecl (d : TypeDecl) : (ofDecl d).toDecl = d := by
  have hfuncs := Slots.items_ofRows_there FuncDraft.toFunc_ofFunc d.funcs
  simp only [toDecl, ofDecl, hfuncs]
  rfl

theorem DeclDraft.isWhole_ofDecl (d : TypeDecl) : (ofDecl d).isWhole := by
  unfold isWhole ofDecl
  cases d.funcs <;> simp [Slots.ofRows, Rows.items]

theorem reads_decl {stmt : Update Stmt} {d : TypeDecl} (h : d.Fits)
    (hbody : ∀ f ∈ Rows.items d.funcs, Reads (stmt .missing) (writeStmt f.body) f.body) :
    Reads (updateDecl stmt {}) (writeDecl d) (.ofDecl d) := by
  have hfields : Reads (updateSlots none (updateOptional {} updateField) {})
      (Pack.rows (optional writeField) d.fields) (.ofRows d.fields) :=
    reads_slots h.fields fun place hplace =>
      reads_fieldPlace fun f hf => h.fieldNames f (hf ▸ hplace)
  have hfuncs : Reads (updateSlots none (updateOptional {} (updateFunc stmt)) {})
      (Pack.rows writeFunc d.funcs)
      (.ofRows (d.funcs.map (List.map fun f => some (.ofFunc f)))) :=
    reads_updateSlots h.funcs fun f hf =>
      reads_optional_some (head?_record (by simp)) (reads_func (h.func f hf) (hbody f hf))
  unfold updateDecl writeDecl
  exact Aligned.reads
    (.cons ((reads_text h.name).map _) (.cons (hfields.map _) (.cons (hfuncs.map _)
      (.cons ((reads_span d.span).map _) .nil))))
    (by decide +kernel)

/-! ## Whole documents -/

/-- The draft that the document of a program is read into. -/
def Draft.ofProgram (p : Program) : Draft where
  schema := version
  name := p.name
  files := p.files.paths
  types := .ofRows (some p.types.types)
  nominals := .ofRows (some (p.types.nominals.map .ofNominal))
  decls := .ofRows (p.decls.map (List.map fun d => some (.ofDecl d)))

theorem Draft.isWhole_ofProgram (p : Program) : (ofProgram p).isWhole := by
  unfold isWhole ofProgram
  cases p.decls <;> simp [Slots.ofRows, Rows.items, DeclDraft.isWhole_ofDecl]

theorem reads_draft {stmt : Update Stmt} {p : Program} (h : p.Fits)
    (hkind : ∀ d ∈ p.types.types, Kind.ofCode d.kind.code = d.kind)
    (hbody : ∀ d ∈ Rows.items p.decls, ∀ f ∈ Rows.items d.funcs,
      Reads (stmt .missing) (writeStmt f.body) f.body) :
    Reads (readDraft stmt) (write p) (.ofProgram p) := by
  have hfiles : Reads (readRows readText) (Pack.rows text (some p.files.paths))
      (some p.files.paths) :=
    reads_rows h.files fun path hpath => reads_text (h.paths path hpath)
  have htypes : Reads (updateSlots {} updateDescriptor {})
      (Pack.rows writeDescriptor (some p.types.types)) (.ofRows (some p.types.types)) :=
    reads_slots h.types fun d hd => reads_descriptor (hkind d hd)
  have hnominals : Reads (updateSlots {} updateNominal {})
      (Pack.rows writeNominal (some p.types.nominals))
      (.ofRows (some (p.types.nominals.map .ofNominal))) :=
    reads_updateSlots h.nominals fun n hn => reads_nominal (h.nominal n hn)
  have hdecls : Reads (updateSlots none (updateOptional {} (updateDecl stmt)) {})
      (Pack.rows writeDecl p.decls)
      (.ofRows (p.decls.map (List.map fun d => some (.ofDecl d)))) :=
    reads_updateSlots h.decls fun d hd =>
      reads_optional_some (head?_record (by simp)) (reads_decl (h.decl d hd) (hbody d hd))
  unfold readDraft write
  exact Aligned.reads
    (.cons ((reads_u16 version).map _) (.cons ((reads_text h.name).map _)
      (.cons ((hfiles.map _).map _) (.cons (htypes.map _) (.cons (hnominals.map _)
        (.cons (hdecls.map _) .nil))))))
    (by decide +kernel)

/-- The encoding of a body is not longer than the document. -/
theorem length_body_le {p : Program} {d : TypeDecl} {f : Func} (hd : d ∈ Rows.items p.decls)
    (hf : f ∈ Rows.items d.funcs) : (writeStmt f.body).length ≤ (write p).length := by
  have hbody : (writeStmt f.body).length ≤ (writeFunc f).length :=
    length_le_record (p := ("Body", writeStmt f.body)) (by simp)
  have hfunc : (writeFunc f).length ≤ (Pack.rows writeFunc d.funcs).length := length_le_rows hf
  have hfuncs : (Pack.rows writeFunc d.funcs).length ≤ (writeDecl d).length :=
    length_le_record (p := ("Funcs", Pack.rows writeFunc d.funcs)) (by simp)
  have hdecl : (writeDecl d).length ≤ (Pack.rows writeDecl p.decls).length := length_le_rows hd
  have hdecls : (Pack.rows writeDecl p.decls).length ≤ (write p).length :=
    length_le_record (p := ("Decls", Pack.rows writeDecl p.decls)) (by simp)
  omega

/-- Reading a written document comes down to checking what was written. -/
theorem read_write_eq {p : Program} (hc : p.Throughout Expr.Carries Stmt.Carries) (hf : p.Fits)
    (hkind : ∀ d ∈ p.types.types, Kind.ofCode d.kind.code = d.kind) :
    read (write p) = (Draft.ofProgram p).toProgram := by
  have hbody : ∀ d ∈ Rows.items p.decls, ∀ f ∈ Rows.items d.funcs,
      Reads (updateStmt ((write p).length + 1) .missing) (writeStmt f.body) f.body :=
    fun d hd f hfunc => reads_stmt ((hc d hd f hfunc).and (hf.nodes d hd f hfunc))
      (Nat.le_succ_of_le (length_body_le hd hfunc))
  have h := reads_draft hf hkind hbody []
  rw [List.append_nil] at h
  unfold read
  rw [show (readDraft (updateStmt ((write p).length + 1))).run (write p) = _ from h]

end WastForge.Document
