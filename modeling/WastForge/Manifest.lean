import WastForge.Disk
import WastForge.Text.Case
import WastForge.Text.Quoted
import WastForge.Toml.Document

/-!
# Project manifests

A project has a manifest in its top directory, which is found from any directory below. It names
the project, what is built and what is run. Paths in a manifest are seen from its own directory.
-/

namespace WastForge

/-- What a manifest says. -/
structure ManifestConfig where
  name : Bytes := []
  /-- What is built; nothing stands for the whole project. -/
  inputs : List Bytes := []
  outDir : Bytes := []
  jobs : Int := 0
  /-- Whether finished modules are kept; that is so unless said otherwise. -/
  cache : Bool := true
  main : Bytes := []
  stdoutDir : Bytes := []
  deriving Repr, DecidableEq, Inhabited

/-- What is wrong with a manifest. -/
inductive ManifestError where
  /-- It cannot be read. -/
  | unreadable (why : Bytes)
  | unknownKey (key : TomlKey)
  | missingPackage
  | missingName
  | negativeJobs
  | blankInput
  deriving Repr, DecidableEq, Inhabited

/-- The text of an error. -/
def ManifestError.message : ManifestError → Bytes
  | .unreadable why => "failed to parse TOML: " ++ why
  | .unknownKey key => "unknown key " ++ TomlKey.written key
  | .missingPackage => "missing [package]"
  | .missingName => "missing [package].name"
  | .negativeJobs => "[build].jobs must not be negative"
  | .blankInput => "empty entry in [build].inputs"

namespace ManifestConfig

/-- A key of a table, and how its value changes the configuration; there is no answer when the
value has the wrong kind. -/
structure Field where
  table : Bytes
  key : Bytes
  put : ManifestConfig → TomlValue → Option ManifestConfig

/-- A text. -/
def text? : TomlValue → Option Bytes
  | .text s => some s
  | _ => none

/-- A list of texts. -/
def texts? : TomlValue → Option (List Bytes)
  | .array items => items.mapM text?
  | _ => none

/-- All keys that a manifest may have. -/
def fields : List Field :=
  [⟨"package", "name", fun c v => (text? v).map fun s => { c with name := s }⟩,
   ⟨"build", "inputs", fun c v => (texts? v).map fun l => { c with inputs := l }⟩,
   ⟨"build", "out_dir", fun c v => (text? v).map fun s => { c with outDir := s }⟩,
   ⟨"build", "jobs", fun c v =>
     match v with
     | .integer n => some { c with jobs := n }
     | _ => none⟩,
   ⟨"build", "cache", fun c v =>
     match v with
     | .truth b => some { c with cache := b }
     | _ => none⟩,
   ⟨"run", "main", fun c v => (text? v).map fun s => { c with main := s }⟩,
   ⟨"run", "stdout_dir", fun c v => (text? v).map fun s => { c with stdoutDir := s }⟩]

/-- Whether two keys are the same but for case. -/
def alike (a b : Bytes) : Bool := Case.fold a == Case.fold b

/-- The field under a path of keys, in any case. -/
def field? (path : TomlKey) : Option Field :=
  match path with
  | [s, k] => fields.find? fun f => alike f.table s && alike f.key k
  | _ => none

/-- Whether a manifest may have a path of keys, in any case. -/
def isKnown (path : TomlKey) : Bool :=
  match path with
  | [s] => fields.any (alike ·.table s)
  | _ => (field? path).isSome

/-- Take the keys of one table over. -/
def ofMembers? (name : Bytes) (c : ManifestConfig) (members : TomlTable) : Option ManifestConfig :=
  members.foldlM (fun c (k, v) =>
    match field? [name, k] with
    | some f => f.put c v
    | none => some c) c

/-- Take a table over; unknown keys are passed over. -/
def ofTable? (t : TomlTable) : Option ManifestConfig :=
  t.foldlM (fun c (s, v) =>
    if isKnown [s] then
      match v with
      | .table members => ofMembers? s c members
      | _ => none
    else some c) {}

/-- Whether a text is nothing but blanks. -/
def isBlank (s : Bytes) : Bool := (Utf8.trim s).isEmpty

/-- Whether a table has a key, in exactly this case. -/
def defines (t : TomlTable) (key : Bytes) : Bool := (t.lookup key).isSome

/-- Whether a table within a table has a key, in exactly this case. -/
def definesIn (t : TomlTable) (name key : Bytes) : Bool :=
  match t.lookup name with
  | some (.table members) => defines members key
  | _ => false

/-- Whether a path of keys was taken over: a manifest may have it, and no later value took the
place of one that it passes through. -/
def isTaken (t : TomlTable) (path : TomlKey) : Bool :=
  isKnown path && ((TomlTable.at? t path.dropLast).bind (·.lookup (path.getLastD []))).isSome

/-- Read a manifest. -/
def read (data : Bytes) : Except ManifestError ManifestConfig := do
  let doc ← (TomlDocument.read data).mapError fun e => .unreadable e.message
  let some c := ofTable? doc.root | throw (.unreadable "a value has the wrong type")
  if let some key := doc.keys.find? (!isTaken doc.root ·) then throw (.unknownKey key)
  unless defines doc.root "package" do throw .missingPackage
  if !definesIn doc.root "package" "name" || isBlank c.name then throw .missingName
  if definesIn doc.root "build" "jobs" && c.jobs < 0 then throw .negativeJobs
  if c.inputs.any isBlank then throw .blankInput
  return c

end ManifestConfig

/-- A manifest and where it was found. -/
structure Manifest where
  /-- The directory that it stands in. -/
  root : Bytes
  config : ManifestConfig

namespace Manifest

/-- The name of the file. -/
def fileName : Bytes := "ilwasm.toml"

/-- The directories from one up to the root. -/
def ancestors (dir : Bytes) : List Bytes :=
  let names := Path.components dir
  (List.range (names.length + 1)).reverse.map fun n => Path.ofComponents true (names.take n)

/-- The path of the manifest in the first of some directories that has one. -/
def find? (d : Disk) : List Bytes → Except Bytes (Option Bytes)
  | [] => .ok none
  | dir :: dirs =>
    let path := Path.join [dir, fileName]
    match d.stat path with
    | .ok _ => .ok (some path)
    | .error e =>
      if e.cause = .noEntry then find? d dirs
      else .error ("failed to stat " ++ Quoted.text path ++ ": " ++ e.message)

/-- The manifest of the project that the working directory belongs to, if there is one. -/
def load (d : Disk) : Except Bytes (Option Manifest) := do
  match ← find? d (ancestors d.cwd) with
  | none => return none
  | some path =>
    let config := match d.readFile path with
      | .ok data => ManifestConfig.read data
      | .error e => .error (.unreadable e.message)
    match config with
    | .ok c => return some ⟨Path.dir path, c⟩
    | .error e => throw (path ++ ": " ++ e.message)

/-- A path of a manifest, seen from its directory. -/
def resolve (m : Manifest) (path : Bytes) : Bytes :=
  if path.isEmpty || Path.isAbsolute path then path else Path.join [m.root, path]

/-- What is built. -/
def inputs (m : Manifest) : List Bytes :=
  if m.config.inputs.isEmpty then [m.root] else m.config.inputs.map m.resolve

end Manifest

end WastForge
