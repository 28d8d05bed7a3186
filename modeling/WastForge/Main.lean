import WastForge.CommandLine.Execute

/-!
# The program

The outer layer: it loads what the command line may look at into a disk, calls it, prints what it
says, and writes the changes back.
-/

namespace WastForge.Main

/-- The bytes of a loaded file. -/
def ofByteArray (data : ByteArray) : Bytes := data.data.toList

/-- The bytes as they are written. -/
def toByteArray (s : Bytes) : ByteArray := ⟨s.toArray⟩

/-- The string of a path. Paths that are not UTF-8 cannot be named. -/
def toPath (s : Bytes) : String := (String.fromUTF8? (toByteArray s)).getD ""

/-- An entry of a directory with all that stands below it. -/
partial def loadEntry (e : IO.FS.DirEntry) : IO (List (Bytes × DiskEntry)) := do
  let path : Bytes := e.path.toString
  try
    if ← e.path.isDir then
      let below ← (← e.path.readDir).toList.mapM loadEntry
      return (path, .directory) :: below.flatten
    else return [(path, .file (ofByteArray (← IO.FS.readBinFile e.path)))]
  catch _ => return []

/-- What stands at a path, seen from the working directory, with all below it. -/
def loadPath (s : String) : IO (List (Bytes × DiskEntry)) := do
  let path := (← IO.currentDir) / s
  let name : Bytes := path.toString
  if ← path.isDir then
    let below ← (← path.readDir).toList.mapM loadEntry
    return (name, .directory) :: below.flatten
  else if ← path.pathExists then
    return [(name, .file (ofByteArray (← IO.FS.readBinFile path)))]
  else return []

/-- Load what a call with some words may look at: the working directory, the manifests above it,
the cache, and the paths among the words. -/
def load (env : Environment) (words : List String) : IO Disk := do
  let cwd : Bytes := (← IO.currentDir).toString
  let manifests := (Manifest.ancestors cwd).map fun dir =>
    toPath (Path.join [dir, Manifest.fileName])
  let cache := (BuildCommand.cacheDir env).toOption.toList.map toPath
  let isOutside (w : String) : Bool := Path.isAbsolute w || (Bytes.after? ".." w).isSome
  let found ← ("." :: manifests ++ cache ++ words.filter isOutside).mapM loadPath
  return .ofListing cwd found.flatten

/-- Write back what has changed. -/
def save (before after : Disk) : IO Unit := do
  for (names, e) in after.entries do
    let path := toPath (Path.ofComponents true names)
    match before.entry? names, e with
    | none, .directory => IO.FS.createDirAll path
    | old, .file content =>
      if old != some e then IO.FS.writeBinFile path (toByteArray content)
    | some _, .directory => pure ()
  for (names, e) in before.entries do
    if (after.entry? names).isNone && e matches .file _ then
      IO.FS.removeFile (toPath (Path.ofComponents true names))

/-- The variables that the program looks at. -/
def variableNames : List String := ["NO_COLOR", "XDG_CACHE_HOME", "HOME"]

/-- What surrounds the program. -/
def environment : IO Environment := do
  let values ← variableNames.mapM fun name => do
    return ((name : Bytes), Bytes.ofString ((← IO.getEnv name).getD ""))
  return { values := values, terminal := ← (← IO.getStdout).isTty }

/-- Call the command line and do as it says. -/
def call (words : List String) : IO UInt32 := do
  let env ← environment
  let disk ← load env words
  let o := CommandLine.run env (words.map Bytes.ofString) disk
  save disk o.disk
  (← IO.getStdout).write (toByteArray o.stdout)
  (← IO.getStderr).write (toByteArray o.stderr)
  return UInt32.ofNat o.exit

end WastForge.Main

/-- The program. -/
def main (words : List String) : IO UInt32 := WastForge.Main.call words
