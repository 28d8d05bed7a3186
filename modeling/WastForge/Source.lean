import WastForge.Bytes
import WastForge.Path

/-!
# Places in source files

Positions in source files, and the files that positions are in.
-/

namespace WastForge

/-!
## Source positions
-/

/-- A position in a source file; file `0` is no file, line `0` and column `0` are unknown. -/
structure Span where
  file : UInt32 := 0
  line : UInt32 := 0
  col : UInt32 := 0
  deriving Repr, DecidableEq, Inhabited

namespace Span

/-- Whether nothing is known about the position. -/
def isZero (s : Span) : Bool := s.file == 0 && s.line == 0 && s.col == 0

/-- File, line and column, joined by colons. -/
def text (s : Span) : Bytes :=
  Bytes.ofNat s.file.toNat ++ ":" ++ Bytes.ofNat s.line.toNat ++ ":" ++ Bytes.ofNat s.col.toNat

/-- Whether `s` comes before `t`: by file, then by line, then by column. -/
def before (s t : Span) : Bool :=
  if s.file != t.file then s.file < t.file
  else if s.line != t.line then s.line < t.line
  else s.col < t.col

end Span

/-!
## File sets

The source files a program refers to. Files are numbered from one in the order in which their
paths are first added; two spellings of one path are one file.
-/

/-- How a path is shown. -/
inductive PathStyle where
  /-- As an absolute path. -/
  | absolute
  /-- Seen from the base directory, when the file lies below it. -/
  | relative
  /-- The last component only. -/
  | basename
  /-- As it was added. -/
  | asGiven
  deriving Repr, DecidableEq, Inhabited

/-- The path that a file is known by. The empty path stays empty. -/
def normalPath (p : Bytes) : Bytes := if p.isEmpty then p else Path.clean p

/-- The files of a program and the directory that paths are shown from. -/
structure FileSet where
  /-- The paths of the files, the first one being file number one. -/
  paths : List Bytes := []
  /-- The base directory; empty when it is the working directory. -/
  base : Bytes := []
  deriving Repr, DecidableEq, Inhabited

namespace FileSet

/-- The number of the file with a path. -/
def lookup? (fs : FileSet) (p : Bytes) : Option UInt32 :=
  (fs.paths.idxOf? (normalPath p)).map fun i => UInt32.ofNat (i + 1)

/-- Add a path; a path that is already there keeps its number. -/
def add (fs : FileSet) (p : Bytes) : FileSet × UInt32 :=
  match fs.lookup? p with
  | some id => (fs, id)
  | none => ({ fs with paths := fs.paths ++ [normalPath p] }, UInt32.ofNat (fs.paths.length + 1))

/-- Add several paths in order. -/
def addAll (fs : FileSet) (ps : List Bytes) : FileSet := ps.foldl (fun fs p => (fs.add p).1) fs

/-- The path of a file. -/
def get? (fs : FileSet) (id : UInt32) : Option Bytes :=
  match id.toNat with
  | 0 => none
  | i + 1 => fs.paths[i]?

/-- The directory that paths are shown from, in the working directory `cwd`. -/
def baseDir (fs : FileSet) (cwd : Bytes) : Bytes := if fs.base.isEmpty then cwd else fs.base

end FileSet

/-- Show a path. -/
def PathStyle.render (style : PathStyle) (cwd base p : Bytes) : Bytes :=
  match style with
  | .absolute => Path.absolute cwd p
  | .relative =>
    if base.isEmpty || !Path.isAbsolute p then p
    else
      match Path.relative? base p with
      | some rel => if (".." : Bytes).isPrefixOf rel then p else rel
      | none => p
  | .basename => Path.base p
  | .asGiven => p

end WastForge
