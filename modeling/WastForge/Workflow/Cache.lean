import WastForge.Diagnostic.Bag
import WastForge.Digest
import WastForge.Disk
import WastForge.Document.Write
import WastForge.Emit.Module

/-!
# The cache of modules

Finished modules are kept in files, by the digest of the document that they were made from and of
what the compiler is. An entry holds the module and the diagnostics that came with it; files are
named by their paths, since numbers of files mean nothing outside a program.

An entry that cannot be read, or has another version, counts as missing.
-/

namespace WastForge

/-- The version of the program. -/
def toolVersion : Bytes := "0.1.0-dev"

/-- A diagnostic as it is kept. -/
structure KeptDiagnostic where
  severity : UInt8 := 0
  code : UInt16 := 0
  message : Bytes := []
  member : Bytes := []
  /-- The path of its file; empty when it has none. -/
  path : Bytes := []
  line : UInt32 := 0
  col : UInt32 := 0
  deriving Repr, DecidableEq, Inhabited

namespace KeptDiagnostic

/-- Keep a diagnostic of a program with some files. -/
def ofDiagnostic (files : FileSet) (d : Diagnostic) : KeptDiagnostic where
  severity := d.severity.rank
  code := d.code.number
  message := d.message
  member := d.member
  path := (files.get? d.span.file).getD []
  line := d.span.line
  col := d.span.col

/-- Bring a diagnostic back; its file is added to the others. -/
def restore (k : KeptDiagnostic) (files : FileSet) : FileSet × Diagnostic :=
  let (files, file) := if k.path.isEmpty then (files, 0) else files.add k.path
  (files,
   { severity := ⟨k.severity⟩, code := ⟨k.code⟩, message := k.message, member := k.member
     span := ⟨file, k.line, k.col⟩ })

/-- Bring diagnostics back into a bag, in order. -/
def restoreAll (ks : List KeptDiagnostic) (files : FileSet) (bag : Bag) : FileSet × Bag :=
  ks.foldl
    (fun (files, bag) k =>
      let (files, d) := k.restore files
      (files, bag.add d))
    (files, bag)

open Pack in
/-- A kept diagnostic as a record. -/
def write (k : KeptDiagnostic) : Bytes :=
  record [("Severity", u8 k.severity), ("Code", u16 k.code), ("Message", text k.message),
    ("Member", text k.member), ("Path", text k.path), ("Line", u32 k.line), ("Col", u32 k.col)]

open Pack in
/-- Read a kept diagnostic. -/
def update : Update KeptDiagnostic :=
  updateRecord {} [
    ("Severity", fun k => return { k with severity := ← readU8 }),
    ("Code", fun k => return { k with code := ← readU16 }),
    ("Message", fun k => return { k with message := ← readText }),
    ("Member", fun k => return { k with member := ← readText }),
    ("Path", fun k => return { k with path := ← readText }),
    ("Line", fun k => return { k with line := ← readU32 }),
    ("Col", fun k => return { k with col := ← readU32 })]

end KeptDiagnostic

/-- What is kept of a compilation. -/
structure CacheEntry where
  version : UInt16 := 0
  name : Bytes := []
  text : Bytes := []
  heapSize : UInt32 := 0
  memorySize : UInt32 := 0
  exports : List Bytes := []
  /-- The imports by their numbers. -/
  imports : Bytes := []
  skipped : List Bytes := []
  diagnostics : List KeptDiagnostic := []
  deriving Repr, DecidableEq, Inhabited

namespace CacheEntry

/-- The version of the entries that are written. -/
def currentVersion : UInt16 := 1

/-- Keep a finished module. -/
def ofModule (name : Bytes) (m : ModuleOutput) (bag : Bag) (files : FileSet) : CacheEntry where
  version := currentVersion
  name := name
  text := m.text
  heapSize := m.heapSize
  memorySize := m.memorySize
  exports := m.exports
  imports := m.imports.map (·.code)
  skipped := m.skipped
  diagnostics := bag.items.map (KeptDiagnostic.ofDiagnostic files)

/-- The module of an entry. -/
def toModule (e : CacheEntry) : ModuleOutput where
  text := e.text
  heapSize := e.heapSize
  memorySize := e.memorySize
  exports := e.exports
  imports := e.imports.map HarnessOp.mk
  skipped := e.skipped

/-- A list in which nothing stands for the empty one. -/
def writeList {α : Type} (f : α → Bytes) (l : List α) : Bytes := Pack.rows f (Rows.ofList l)

open Pack in
/-- An entry as a record. -/
def write (e : CacheEntry) : Bytes :=
  record [("Schema", u16 e.version), ("Name", Pack.text e.name), ("Text", Pack.text e.text),
    ("HeapSize", u32 e.heapSize), ("MemorySize", u32 e.memorySize),
    ("Exports", writeList Pack.text e.exports), ("Imports", blob e.imports),
    ("Skipped", writeList Pack.text e.skipped),
    ("Diagnostics", writeList KeptDiagnostic.write e.diagnostics)]

open Pack in
/-- Read an entry; its diagnostics stand apart from the rest while they are read. -/
def reader : Reader CacheEntry := do
  let (e, diagnostics) ← readRecord (({} : CacheEntry), ({} : Slots KeptDiagnostic)) [
    ("Schema", fun (e, l) => return ({ e with version := ← readU16 }, l)),
    ("Name", fun (e, l) => return ({ e with name := ← readText }, l)),
    ("Text", fun (e, l) => return ({ e with text := ← readText }, l)),
    ("HeapSize", fun (e, l) => return ({ e with heapSize := ← readU32 }, l)),
    ("MemorySize", fun (e, l) => return ({ e with memorySize := ← readU32 }, l)),
    ("Exports", fun (e, l) => return ({ e with exports := ← updateTexts e.exports }, l)),
    ("Imports", fun (e, l) => return ({ e with imports := ← readText }, l)),
    ("Skipped", fun (e, l) => return ({ e with skipped := ← updateTexts e.skipped }, l)),
    ("Diagnostics", fun (e, l) => return (e, ← updateSlots {} KeptDiagnostic.update l))]
  return { e with diagnostics := Rows.items diagnostics.items }

/-- The entry that some bytes hold, if they hold one of the current version. -/
def ofBytes? (data : Bytes) : Option CacheEntry :=
  match reader.run data with
  | .ok (e, _) => if e.version = currentVersion then some e else none
  | .error _ => none

end CacheEntry

/-- What the compiler is, as far as its modules depend on it. -/
def compilerMark : Bytes :=
  "ilwasm " ++ toolVersion ++ " ir" ++ Bytes.ofNat Document.version.toNat ++ " cache"
    ++ Bytes.ofNat CacheEntry.currentVersion.toNat

/-- The key under which the module of a document is kept. -/
def cacheKey (document : Bytes) : Digest :=
  (Digest.ofBytes document).combine [Digest.ofBytes compilerMark]

/-- A cache in a directory. -/
structure ModuleCache where
  dir : Bytes
  deriving Repr, DecidableEq, Inhabited

namespace ModuleCache

/-- The cache in a directory, which is made if it is not there. -/
def openAt (dir : Bytes) : DiskM ModuleCache := do
  DiskM.mkdirAll dir
  return ⟨dir⟩

/-- The file of an entry. -/
def pathOf (c : ModuleCache) (key : Digest) : Bytes :=
  Path.join [c.dir, "modules", key.text ++ ".mp"]

/-- The entry that is kept under a key. -/
def get? (c : ModuleCache) (d : Disk) (key : Digest) : Option CacheEntry :=
  match d.readFile (c.pathOf key) with
  | .ok data => CacheEntry.ofBytes? data
  | .error _ => none

/-- Keep an entry under a key. -/
def put (c : ModuleCache) (key : Digest) (e : CacheEntry) : DiskM Unit := do
  DiskM.mkdirAll (Path.dir (c.pathOf key))
  DiskM.writeFile (c.pathOf key) e.write

/-- Drop all entries. -/
def clear (c : ModuleCache) : DiskM Unit := do
  let d ← get
  match d.locate c.dir with
  | .ok names => set ((d.removeAll names).setEntry names .directory)
  | .error cause => throw ⟨"rename", c.dir, cause⟩

end ModuleCache

end WastForge
