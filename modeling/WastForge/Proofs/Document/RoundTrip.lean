import WastForge.Proofs.Document.Accepted
import WastForge.Proofs.Text.Path
import WastForge.Proofs.Types.Restore

/-!
# Nothing is lost in documents

A program whose nodes carry their contents is read back from its document as it is, and so is a
program that was read from any document before, if no node of it lost its contents there.
-/

namespace WastForge

/-- The numbers of all statements of a program, in the order in which they are checked. -/
def Program.statementIds (p : Program) : List UInt32 :=
  p.bodies.flatMap fun b => (Document.statements b.root).map (·.mark.id)

namespace Document

open Pack

/-! ## Statement numbers -/

/-- The numbers of the statements of a body. -/
def idsOf (b : Body) : List UInt32 := (statements b.root).map (·.mark.id)

/-- New numbers are added to those seen before. -/
theorem checkIds_eq_ok (member : Bytes) {seen : List UInt32} {stmts : List Stmt}
    (hzero : 0 ∉ stmts.map (·.mark.id)) (hnew : (stmts.map (·.mark.id) ++ seen).Nodup) :
    checkIds member seen stmts = .ok ((stmts.map (·.mark.id)).reverse ++ seen) := by
  induction stmts generalizing seen with
  | nil => rfl
  | cons s rest ih =>
    rw [List.map_cons, List.mem_cons, not_or] at hzero
    rw [List.map_cons, List.cons_append] at hnew
    have hid : (s.mark.id = 0 || seen.contains s.mark.id) = false := by
      have hseen := (List.nodup_cons.mp hnew).1
      rw [List.mem_append, not_or] at hseen
      simp [Ne.symm hzero.1, hseen.2]
    rw [checkIds, hid, if_neg Bool.false_ne_true, ih hzero.2 (List.perm_middle.nodup_iff.mpr hnew)]
    simp

/-- Bodies whose statements have different numbers, none of them zero, are accepted. -/
theorem checkBodies_ok (bodies : List Body) (seen : List UInt32)
    (hzero : 0 ∉ bodies.flatMap idsOf) (hnew : (bodies.flatMap idsOf ++ seen).Nodup) :
    ∃ out, bodies.foldlM (m := Result)
      (fun seen b => checkIds b.func.qualifiedName seen (statements b.root)) seen = .ok out := by
  induction bodies generalizing seen with
  | nil => exact ⟨seen, rfl⟩
  | cons b rest ih =>
    rw [List.flatMap_cons, List.mem_append, not_or] at hzero
    rw [List.flatMap_cons, List.append_assoc] at hnew
    have hperm : (rest.flatMap idsOf ++ ((idsOf b).reverse ++ seen)).Perm
        (idsOf b ++ (rest.flatMap idsOf ++ seen)) := by
      refine (List.perm_append_comm_assoc _ _ _).trans ?_
      exact ((List.reverse_perm _).append_right _)
    obtain ⟨out, hout⟩ := ih _ hzero.2 (hperm.nodup_iff.mpr hnew)
    refine ⟨out, ?_⟩
    have hb : (idsOf b ++ seen).Nodup :=
      hnew.sublist ((List.sublist_append_right _ _).append_left _)
    rw [List.foldlM_cons, checkIds_eq_ok _ hzero.1 hb]
    exact hout

theorem checkProgram_ok {p : Program} (hzero : 0 ∉ p.statementIds) (hnew : p.statementIds.Nodup) :
    checkProgram p = .ok () := by
  obtain ⟨out, hout⟩ := checkBodies_ok p.bodies [] hzero
    (by rwa [List.append_nil])
  unfold checkProgram
  rw [hout]
  rfl

/-- Numbers that were added are not zero, and none of them was seen before. -/
theorem checkIds_ok {member : Bytes} {stmts : List Stmt} {seen out : List UInt32}
    (h : checkIds member seen stmts = .ok out) (hseen : seen.Nodup) :
    out = (stmts.map (·.mark.id)).reverse ++ seen ∧ out.Nodup
      ∧ 0 ∉ stmts.map (·.mark.id) := by
  induction stmts generalizing seen with
  | nil =>
    obtain rfl := Except.ok.inj h
    exact ⟨rfl, hseen, List.not_mem_nil⟩
  | cons s rest ih =>
    unfold checkIds at h
    split at h
    · cases h
    · rename_i hid
      simp only [Bool.or_eq_true, decide_eq_true_eq, List.contains_eq_mem, not_or] at hid
      obtain ⟨hout, hnodup, hzero⟩ := ih h (List.nodup_cons.mpr ⟨hid.2, hseen⟩)
      refine ⟨?_, hnodup, ?_⟩
      · rw [hout, List.map_cons, List.reverse_cons, List.append_assoc]
        rfl
      · rw [List.map_cons, List.mem_cons, not_or]
        exact ⟨Ne.symm hid.1, hzero⟩

theorem checkBodies_nodup {bodies : List Body} {seen out : List UInt32}
    (h : bodies.foldlM (m := Result)
      (fun seen b => checkIds b.func.qualifiedName seen (statements b.root)) seen = .ok out)
    (hseen : seen.Nodup) :
    out.Perm (bodies.flatMap idsOf ++ seen) ∧ out.Nodup ∧ 0 ∉ bodies.flatMap idsOf := by
  induction bodies generalizing seen with
  | nil =>
    obtain rfl := Except.ok.inj h
    exact ⟨.refl _, hseen, List.not_mem_nil⟩
  | cons b rest ih =>
    rw [List.foldlM_cons] at h
    cases hb : checkIds b.func.qualifiedName seen (statements b.root) with
    | error f =>
      rw [hb] at h
      cases h
    | ok seen' =>
      rw [hb] at h
      obtain ⟨hout, hnodup, hzero⟩ := checkIds_ok hb hseen
      obtain ⟨hperm, hrest, hzero'⟩ := ih h hnodup
      refine ⟨?_, hrest, ?_⟩
      · rw [hout] at hperm
        rw [List.flatMap_cons, List.append_assoc]
        exact hperm.trans ((List.perm_append_comm_assoc _ _ _).trans
          ((List.reverse_perm _).append_right _))
      · rw [List.flatMap_cons, List.mem_append, not_or]
        exact ⟨hzero, hzero'⟩

theorem checkProgram_eq_ok_iff {p : Program} :
    checkProgram p = .ok () ↔ 0 ∉ p.statementIds ∧ p.statementIds.Nodup := by
  refine ⟨fun h => ?_, fun h => checkProgram_ok h.1 h.2⟩
  unfold checkProgram at h
  cases hfold : p.bodies.foldlM (m := Result)
      (fun seen b => checkIds b.func.qualifiedName seen (statements b.root)) [] with
  | error f =>
    rw [hfold] at h
    cases h
  | ok out =>
    obtain ⟨hperm, hnodup, hzero⟩ := checkBodies_nodup hfold List.nodup_nil
    rw [List.append_nil] at hperm
    exact ⟨hzero, hperm.nodup_iff.mp hnodup⟩

/-! ## Round trips -/

/-- What was written of a program is accepted as the program. -/
theorem toProgram_ofProgram {p : Program}
    (htypes : TypeTable.restore p.types.types p.types.nominals = .ok p.types)
    (hfiles : FileSet.Normal p.files.paths) (hids : checkProgram p = .ok ()) :
    (Draft.ofProgram p).toProgram = .ok { p with files := { paths := p.files.paths } } := by
  have hnominals : (p.types.nominals.map NominalDraft.ofNominal).map (·.toNominal)
      = p.types.nominals := by
    rw [List.map_map]
    exact (List.map_congr_left fun n _ => NominalDraft.toNominal_ofNominal n).trans
      (List.map_id _)
  have hdecls : ((Draft.ofProgram p).decls.items.map fun l =>
      l.filterMap fun t => t.map (·.toDecl)) = p.decls :=
    Slots.items_ofRows_there DeclDraft.toDecl_ofDecl p.decls
  have hfiles : FileSet.addAll {} p.files.paths = { paths := p.files.paths } :=
    FileSet.addAll_eq hfiles
  have hrestore : TypeTable.restore
      (Rows.items (Draft.ofProgram p).types.items)
      ((Rows.items (Draft.ofProgram p).nominals.items).map (·.toNominal)) = .ok p.types :=
    (congrArg _ hnominals).trans htypes
  have hover : (Draft.ofProgram p).over p.types
      = { p with files := { paths := p.files.paths } } := by
    rw [← hfiles, ← hdecls]
    rfl
  exact Draft.toProgram_eq_ok_iff.mpr ⟨rfl, p.types, hrestore, Draft.isWhole_ofProgram p,
    hover.symm, hids⟩

/-- A program that is sound in itself is read back from its document. -/
theorem read_write_ok {p : Program} (hc : p.Throughout Expr.Carries Stmt.Carries) (hf : p.Fits)
    (hkind : ∀ d ∈ p.types.types, Kind.ofCode d.kind.code = d.kind)
    (htypes : TypeTable.restore p.types.types p.types.nominals = .ok p.types)
    (hfiles : FileSet.Normal p.files.paths) (hids : checkProgram p = .ok ()) :
    read (write p) = .ok { p with files := { paths := p.files.paths } } :=
  (read_write_eq hc hf hkind).trans (toProgram_ofProgram htypes hfiles hids)

/-- The slots of a restored table can be written. -/
theorem fits_nominals {drafts : List NominalDraft} (hlen : Short drafts)
    (h : ∀ n ∈ drafts, n.Fits) {nominals : List Nominal}
    (heq : nominals = if (drafts.map (·.toNominal)).isEmpty then [{}]
      else drafts.map (·.toNominal)) :
    Short nominals ∧ ∀ n ∈ nominals, n.Fits := by
  subst heq
  split
  · refine ⟨(by decide : 1 < limit), List.forall_mem_singleton.mpr ⟨limit_pos, limit_pos, ?_⟩⟩
    exact fun _ hx => absurd hx List.not_mem_nil
  · refine ⟨by rwa [Short, List.length_map], ?_⟩
    exact List.forall_mem_map.mpr fun n hn => (h n hn).toNominal

/-- The program of a draft has all that is needed to be written and read again. -/
theorem fits_of_toProgram {d : Draft} {p : Program} (hd : d.Fits) (h : d.toProgram = .ok p) :
    p.Fits ∧ (∀ t ∈ p.types.types, Kind.ofCode t.kind.code = t.kind)
      ∧ TypeTable.restore p.types.types p.types.nominals = .ok p.types
      ∧ FileSet.Normal p.files.paths ∧ p.files = { paths := p.files.paths }
      ∧ checkProgram p = .ok () := by
  obtain ⟨-, types, hrestore, -, rfl, hids⟩ := Draft.toProgram_eq_ok_iff.mp h
  obtain ⟨hentries, hslots⟩ := TypeTable.restore_entries hrestore
  obtain ⟨hcount, hpaths⟩ := FileSet.addAll_bounded {} (n := limit)
    (fun _ hx => absurd hx List.not_mem_nil) hd.paths
  obtain ⟨hnominals, hnominal⟩ := fits_nominals hd.nominals.1 hd.nominals.items hslots
  have hnormal : FileSet.Normal (FileSet.addAll {} d.files).paths :=
    FileSet.normal_addAll ⟨List.nodup_nil, fun _ hx => absurd hx List.not_mem_nil⟩ _
  have hbase : FileSet.addAll {} d.files = { paths := (FileSet.addAll {} d.files).paths } :=
    congrArg (FileSet.mk _) (FileSet.base_addAll {} d.files)
  have hdecls : Rows.items (d.over types).decls
      = (Rows.items d.decls.items).filterMap fun t => t.map (·.toDecl) := items_filterMap _ _
  refine ⟨?_, ?_, TypeTable.restore_of_restore hrestore, hnormal, hbase, hids⟩
  · exact {
      name := hd.name
      files := Nat.lt_of_le_of_lt hcount (by rw [List.length_nil, Nat.zero_add]; exact hd.files)
      paths := hpaths
      types := by
        show Short types.types
        rw [hentries]
        exact hd.types.1
      nominals := hnominals
      nominal := hnominal
      decls := by
        rw [hdecls]
        exact Nat.lt_of_le_of_lt (List.length_filterMap_le _ _) hd.decls.1
      decl := by
        rw [hdecls]
        exact forall_mem_filterMap_map hd.decls.items fun t ht => ht.toDecl
      nodes := by
        show ∀ t ∈ Rows.items _, _
        rw [hdecls]
        exact forall_mem_filterMap_map hd.decls.items fun t ht => ht.bodies }
  · show ∀ t ∈ types.types, _
    rw [hentries]
    exact hd.types.items

/-- Nothing is lost: a program whose nodes carry their contents, whose statements have different
numbers, whose type table was built from the builtin one and whose paths were added to a file set
is read back from its document, all but the directory that paths are shown from. And a program
that was accepted from any document, and whose nodes carry their contents, is read back from the
document that is written of it. -/
theorem read_write :
    (∀ p : Program, p.Throughout Expr.Carries Stmt.Carries → p.Fits →
        0 ∉ p.statementIds → p.statementIds.Nodup → p.types.Built →
        (∃ paths, p.files.paths = (FileSet.addAll {} paths).paths) →
        read (write p) = .ok { p with files := { paths := p.files.paths } })
      ∧ ∀ (data : Bytes) (p : Program), read data = .ok p →
        p.Throughout Expr.Carries Stmt.Carries → read (write p) = .ok p := by
  refine ⟨fun p hc hf hzero hnew htypes ⟨paths, hpaths⟩ => ?_, fun data p h hc => ?_⟩
  · have hnormal : FileSet.Normal p.files.paths := by
      rw [hpaths]
      exact FileSet.normal_addAll ⟨List.nodup_nil, fun _ hx => absurd hx List.not_mem_nil⟩ paths
    exact read_write_ok hc hf htypes.sound.kind htypes.sound.restore_eq hnormal
      (checkProgram_ok hzero hnew)
  · obtain ⟨d, -, hd, hp⟩ := read_draft h
    obtain ⟨hf, hkind, htypes, hfiles, hbase, hids⟩ := fits_of_toProgram hd hp
    have hread := read_write_ok hc hf hkind htypes hfiles hids
    rwa [← hbase] at hread

/-- A function that gives a number. -/
def answerFunc : Func where
  name := "F"
  declaringType := "T"
  flags := 1
  result := TypeTable.int32
  body := .ret ⟨1, {}⟩ (.literal ⟨TypeTable.int32, {}⟩ { kind := .int, int := 42 })

/-- A program with one function, over a table with one more type. -/
def answer : Program where
  name := "p"
  types := (TypeTable.builtin.intern { kind := .pointer, elem := TypeTable.int32 }).1
  files := { paths := ["a.wast"] }
  decls := some [{ name := "T", funcs := some [answerFunc] }]

theorem answer_throughout {P : Expr → Prop} {Q : Stmt → Prop}
    (h : answerFunc.body.Throughout P Q) : answer.Throughout P Q :=
  List.forall_mem_singleton.mpr (List.forall_mem_singleton.mpr h)

theorem answer_fits : answer.Fits where
  name := (by decide +kernel : answer.name.length < limit)
  files := (by decide +kernel : answer.files.paths.length < limit)
  paths := (by decide +kernel : ∀ path ∈ answer.files.paths, path.length < limit)
  types := (by decide +kernel : answer.types.types.length < limit)
  nominals := (by decide +kernel : answer.types.nominals.length < limit)
  nominal := by
    have h : ∀ n ∈ answer.types.nominals, n.name.length < limit ∧ n.fields.length < limit
        ∧ ∀ f ∈ n.fields, f.name.length < limit := by decide +kernel
    exact fun n hn => ⟨(h n hn).1, (h n hn).2.1, (h n hn).2.2⟩
  decls := (by decide +kernel : (Rows.items answer.decls).length < limit)
  decl := by
    have h : answerFunc.Fits :=
      ⟨(by decide +kernel : answerFunc.name.length < limit),
        (by decide +kernel : answerFunc.declaringType.length < limit), limit_pos, limit_pos,
        limit_pos, fun _ hl => absurd hl List.not_mem_nil⟩
    refine List.forall_mem_singleton.mpr ⟨?_, limit_pos, ?_, ?_, List.forall_mem_singleton.mpr h⟩
    · exact (by decide +kernel : ("T" : Bytes).length < limit)
    · exact fun _ hf => absurd hf List.not_mem_nil
    · exact (by decide : 1 < limit)
  nodes := answer_throughout (.intro trivial
    (List.forall_mem_singleton.mpr (.intro ⟨rfl, limit_pos⟩ fun _ hx => absurd hx List.not_mem_nil))
    fun _ ht => absurd ht List.not_mem_nil)

theorem read_write_answer :
    answer.Throughout Expr.Carries Stmt.Carries ∧ answer.Fits ∧ 0 ∉ answer.statementIds
      ∧ answer.statementIds.Nodup ∧ answer.types.Built
      ∧ (∃ paths, answer.files.paths = (FileSet.addAll {} paths).paths)
      ∧ read (write answer) = .ok answer := by
  have hcarries : answer.Throughout Expr.Carries Stmt.Carries :=
    answer_throughout (.intro trivial
      (List.forall_mem_singleton.mpr (.intro trivial fun _ hx => absurd hx List.not_mem_nil))
      fun _ ht => absurd ht List.not_mem_nil)
  have htypes : answer.types.Built := .intern .builtin (.pointer TypeTable.int32)
  have hfiles : ∃ paths, answer.files.paths = (FileSet.addAll {} paths).paths :=
    ⟨["a.wast"], by decide +kernel⟩
  have hids : 0 ∉ answer.statementIds ∧ answer.statementIds.Nodup := by decide +kernel
  have hread : read (write answer) = .ok answer :=
    read_write.1 answer hcarries answer_fits hids.1 hids.2 htypes hfiles
  exact ⟨hcarries, answer_fits, hids.1, hids.2, htypes, hfiles,
    read_write.2 (write answer) answer hread hcarries⟩

/-- A document in which an operand is named twice, and the second time there is nothing. -/
def clearedOperand : Bytes :=
  let number : Expr := .literal {} { kind := .int }
  let operand := writeNode 9 8 {} (record [("Referent", writeExpr number), ("Referent", nil)])
  let body := writeNode 2 1 {} (record [("Expr", operand)])
  let func := record [("Name", text "F"), ("Body", body)]
  let decl := record [("Name", text "T"), ("Funcs", array [func])]
  record [("Schema", u16 version), ("Name", text "p"),
    ("Types", array (TypeTable.builtin.types.map writeDescriptor)),
    ("Nominals", array (TypeTable.builtin.nominals.map writeNominal)), ("Decls", array [decl])]

/-- A length that does not fit into four bytes is cut to them. -/
theorem reads_textHeader_cut {n : Nat} (h : 65536 ≤ n) :
    Reads head (textHeader n) (.text (n % limit)) := by
  have hnumber : Reads (number 4) (bigEndian 4 n) (n % limit) := by
    have hbytes : Reads (take 4) (bigEndian 4 n) (bigEndian 4 n) := by
      simpa only [length_bigEndian] using reads_take (bigEndian 4 n)
    have hcut : ofBigEndian (bigEndian 4 n) = n % limit := ofBigEndian_bigEndian 4 n
    exact hcut ▸ hbytes.map ofBigEndian
  rw [textHeader, if_neg (by omega), if_neg (by omega), if_neg (by omega)]
  exact fun rest => hnumber.map Head.text rest

/-- The fields of a record stand behind their number. -/
theorem readRecord_entries {α : Type} {zero : α} {fields : Fields α} {n : Nat} (h : n < 16)
    (s : Bytes) : readRecord zero fields (mapHeader n ++ s) = entries fields n zero s := by
  show (head (mapHeader n ++ s) >>= fun p => _) = _
  rw [mapHeader, if_pos h, reads_head_map h]
  rfl

/-- The document of a program whose name is one byte too long goes on inside the name, where no
field begins. -/
theorem readDraft_overlong {p : Program} {tail : Bytes} (hname : p.name = 0 :: tail)
    (hlen : p.name.length = limit) (stmt : Update Stmt) :
    readDraft stmt (write p) = .error .malformed := by
  obtain ⟨rest, hwrite⟩ : ∃ rest, write p = mapHeader 6 ++ (text "Schema" ++ (u16 version
      ++ (text "Name" ++ (textHeader limit ++ 0 :: rest)))) := by
    refine ⟨?_, ?_⟩
    rotate_left
    · rw [write, record, List.flatMap_cons, List.flatMap_cons, text.eq_1 p.name, hlen, hname]
      simp only [List.append_assoc, List.cons_append]
      rfl
  have hcut : Reads readText (textHeader limit) [] :=
    (reads_textHeader_cut (by decide)).last rfl
  rw [hwrite, readDraft, readRecord_entries (by decide),
    entries_succ (by decide +kernel) rfl ((reads_u16 version).map _),
    entries_succ (by decide +kernel) rfl (hcut.map _)]
  rfl

theorem read_overlong {p : Program} {tail : Bytes} (hname : p.name = 0 :: tail)
    (hlen : p.name.length = limit) (q : Program) : read (write p) ≠ .ok q := by
  intro hq
  unfold read at hq
  rw [show (readDraft _).run (write p) = _ from readDraft_overlong hname hlen _] at hq
  cases hq

theorem replicate_eq_cons {n : Nat} (h : 0 < n) (b : UInt8) :
    List.replicate n b = b :: List.replicate (n - 1) b := by
  obtain ⟨m, rfl⟩ := Nat.exists_eq_add_of_le' h
  rfl

/-- Nothing that is read over an operand takes its contents, and the document that is written of
the program is refused. So is the document of a program whose name is too long. -/
theorem read_write_cleared :
    (∃ p, read clearedOperand = .ok p ∧ ∀ q, read (write p) ≠ .ok q)
      ∧ ∀ q, read (write { name := List.replicate limit 0 }) ≠ .ok q := by
  obtain ⟨p, hp, hrefused⟩ := exists_ok_of_any (r := read clearedOperand)
    (P := fun p => (read (write p)).toOption.isNone) (by decide +kernel)
  refine ⟨⟨p, hp, fun q hq => ?_⟩,
    read_overlong (replicate_eq_cons limit_pos 0) List.length_replicate⟩
  rw [hq] at hrefused
  cases hrefused

end Document

end WastForge
