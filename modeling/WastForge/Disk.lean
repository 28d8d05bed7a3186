import WastForge.Path

/-!
# Files and directories

A tree of files and directories as a value. Operations name what they work on by a path, which is
absolute or seen from the working directory, and fail the way the system does.
-/

namespace WastForge

/-- Why an operation on files failed. -/
inductive DiskCause where
  | noEntry
  | notDirectory
  | isDirectory
  | alreadyThere
  | invalidPath
  | nameTooLong
  deriving Repr, DecidableEq, Inhabited

/-- The text of a cause. -/
def DiskCause.text : DiskCause → Bytes
  | .noEntry => "no such file or directory"
  | .notDirectory => "not a directory"
  | .isDirectory => "is a directory"
  | .alreadyThere => "file exists"
  | .invalidPath => "invalid argument"
  | .nameTooLong => "file name too long"

/-- A failed operation: what was done to which path, and why it failed. -/
structure DiskError where
  operation : Bytes
  path : Bytes
  cause : DiskCause
  deriving Repr, DecidableEq, Inhabited

/-- The text of a failed operation. -/
def DiskError.message (e : DiskError) : Bytes :=
  e.operation ++ " " ++ e.path ++ ": " ++ e.cause.text

/-- What stands at a path. -/
inductive DiskEntry where
  | file (content : Bytes)
  | directory
  deriving Repr, DecidableEq, Inhabited

/-- Files and directories, by the names that lead to them from the root. -/
structure Disk where
  /-- The working directory. -/
  cwd : Bytes := "/"
  entries : List (List Bytes × DiskEntry) := []
  deriving Repr, Inhabited

namespace Disk

/-- What stands at the end of a chain of names; the root is a directory. -/
def entry? (d : Disk) (names : List Bytes) : Option DiskEntry :=
  if names.isEmpty then some .directory else d.entries.lookup names

/-- Put something at the end of a chain of names. -/
def setEntry (d : Disk) (names : List Bytes) (e : DiskEntry) : Disk :=
  { d with entries := d.entries.filter (·.1 != names) ++ [(names, e)] }

/-- Go on by one name, from a directory that is there. -/
def follow (d : Disk) (names : List Bytes) (name : Bytes) : Except DiskCause (List Bytes) :=
  match d.entry? names with
  | none => .error .noEntry
  | some (.file _) => .error .notDirectory
  | some .directory =>
    if name.isEmpty || name == "." then .ok names
    else if name == ".." then .ok names.dropLast
    else if 255 < name.length then .error .nameTooLong
    else .ok (names ++ [name])

/-- The chain of names that a path stands for. All but the last of them lead to directories. -/
def locate (d : Disk) (path : Bytes) : Except DiskCause (List Bytes) :=
  if path.isEmpty then .error .noEntry
  else if path.contains 0 then .error .invalidPath
  else if 4096 ≤ path.length then .error .nameTooLong
  else
    let start := if Path.isAbsolute path then [] else Path.components d.cwd
    (Bytes.splitOn Path.slash path).foldlM d.follow start

/-- What stands at a path, as far as it can be told. -/
def find (d : Disk) (path : Bytes) : Except DiskCause DiskEntry := do
  match d.entry? (← d.locate path) with
  | some e => return e
  | none => throw .noEntry

/-- What stands at a path. -/
def stat (d : Disk) (path : Bytes) : Except DiskError DiskEntry :=
  match d.find path with
  | .ok e => .ok e
  | .error cause => .error ⟨"stat", path, cause⟩

/-- The contents of a file. -/
def readFile (d : Disk) (path : Bytes) : Except DiskError Bytes :=
  match d.find path with
  | .ok (.file content) => .ok content
  | .ok .directory => .error ⟨"read", path, .isDirectory⟩
  | .error cause => .error ⟨"open", path, cause⟩

/-- Whether a path can only be one of a directory. -/
def endsInSlash (path : Bytes) : Bool := path.getLast? == some Path.slash

/-- A path without the separators at its end, unless it is the root. -/
def bare (path : Bytes) : Bytes :=
  if (Path.dropSlashes path).isEmpty then path else Path.dropSlashes path

/-- Where a file at a path can be written. It may be there already, and the last name has to be one
in a directory that is there. -/
def writable (d : Disk) (path : Bytes) : Except DiskCause (List Bytes) := do
  let names ← d.locate (bare path)
  let _ ← d.follow names.dropLast "."
  if endsInSlash path || d.entry? names == some .directory then throw .isDirectory
  return names

/-- The files below a directory, by the names that lead to them from there. -/
def filesBelow (d : Disk) (names : List Bytes) : List (List Bytes × Bytes) :=
  d.entries.filterMap fun (key, e) =>
    match e with
    | .file content =>
      if names.isPrefixOf key && names.length < key.length then
        some (key.drop names.length, content)
      else none
    | .directory => none

/-- Put directories wherever a chain of names leads, unless something stands there. -/
def makeWay (d : Disk) (names : List Bytes) : Disk :=
  ((List.range (names.length + 1)).map names.take).foldl
    (fun d p => if (d.entry? p).isSome then d else d.setEntry p .directory) d

/-- Put something at a path, and directories on the way there. -/
def place (d : Disk) (path : Bytes) (e : DiskEntry) : Disk :=
  let names := Path.components (Path.absolute d.cwd path)
  match e with
  | .directory => d.makeWay names
  | .file _ => (d.makeWay names.dropLast).setEntry names e

/-- The disk with the given files and directories, seen from a working directory. -/
def ofListing (cwd : Bytes) (listing : List (Bytes × DiskEntry)) : Disk :=
  listing.foldl (fun d (path, e) => d.place path e) (place { cwd := cwd } cwd .directory)

/-- The files below the working directory, by their paths. -/
def listing (d : Disk) : List (Bytes × Bytes) :=
  (d.filesBelow (Path.components d.cwd)).map fun (names, content) =>
    (Bytes.join [Path.slash] names, content)

/-- Remove all that stands below a directory, and the directory itself. -/
def removeAll (d : Disk) (names : List Bytes) : Disk :=
  { d with entries := d.entries.filter fun (key, _) => !names.isPrefixOf key }

end Disk

/-- Work on the disk. A failure keeps what was done before. -/
abbrev DiskM := ExceptT DiskError (StateM Disk)

namespace DiskM

/-- Write a file, which may be there already. -/
def writeFile (path content : Bytes) : DiskM Unit := do
  let d ← get
  match d.writable path with
  | .ok names => set (d.setEntry names (.file content))
  | .error cause => throw ⟨"open", path, cause⟩

/-- Make a directory, which may not be there. -/
def mkdir (path : Bytes) : DiskM Unit := do
  let d ← get
  match d.locate (Disk.bare path) with
  | .error cause => throw ⟨"mkdir", path, cause⟩
  | .ok names =>
    match d.entry? names with
    | some _ => throw ⟨"mkdir", path, .alreadyThere⟩
    | none => set (d.setEntry names .directory)

/-- The part of a path in front of its last name and the separator there. -/
def parentPart (path : Bytes) : Bytes :=
  ((Path.dropSlashes path).reverse.dropWhile (· != Path.slash)).tail.reverse

/-- Make a directory and those that lead to it; `fuel` bounds how many these are. -/
def mkdirFrom : Nat → Bytes → DiskM Unit
  | 0, path => mkdir path
  | fuel + 1, path => do
    match (← get).stat path with
    | .ok .directory => return
    | .ok (.file _) => throw ⟨"mkdir", path, .notDirectory⟩
    | .error _ =>
      let parent := parentPart path
      unless parent.isEmpty do mkdirFrom fuel parent
      -- The way there may have made it.
      unless (← get).find path matches .ok .directory do mkdir path

/-- Make a directory and those that lead to it. -/
def mkdirAll (path : Bytes) : DiskM Unit := mkdirFrom path.length path

end DiskM

end WastForge
