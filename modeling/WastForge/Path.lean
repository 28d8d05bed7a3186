import WastForge.Bytes

/-!
# Slash-separated paths

Lexical operations on paths: none of them looks at a file system.
-/

namespace WastForge.Path

/-- The separator. -/
def slash : UInt8 := 47

/-- Whether a path starts at the root. -/
def isAbsolute (p : Bytes) : Bool := p.head? == some slash

/-- The components between separators, empty ones left out. -/
def components (p : Bytes) : List Bytes := (Bytes.splitOn slash p).filter (!·.isEmpty)

/-- Add one component to the components read so far, which are kept in reverse: `.` is dropped and
`..` removes the component before it. At the root `..` is dropped too. -/
def step (rooted : Bool) (acc : List Bytes) (c : Bytes) : List Bytes :=
  if c == "." then acc
  else if c == ".." then
    match acc with
    | [] => if rooted then [] else [c]
    | d :: rest => if d == ".." then c :: acc else rest
  else c :: acc

/-- The components of a path without `.` and without `..` behind a name. -/
def cleanComponents (p : Bytes) : List Bytes :=
  ((components p).foldl (step (isAbsolute p)) []).reverse

/-- A path from its components. -/
def ofComponents (rooted : Bool) (cs : List Bytes) : Bytes :=
  let body := Bytes.join [slash] cs
  if rooted then slash :: body else if cs.isEmpty then "." else body

/-- The shortest path with the same meaning. The empty path is `.`. -/
def clean (p : Bytes) : Bytes := ofComponents (isAbsolute p) (cleanComponents p)

/-- The parts joined by separators and cleaned; empty parts are left out. -/
def join (parts : List Bytes) : Bytes :=
  match parts.filter (!·.isEmpty) with
  | [] => []
  | ps => clean (Bytes.join [slash] ps)

/-- Drop separators at the end. -/
def dropSlashes (p : Bytes) : Bytes := (p.reverse.dropWhile (· == slash)).reverse

/-- The last component. The empty path gives `.`, a path of separators only gives `/`. -/
def base (p : Bytes) : Bytes :=
  if p.isEmpty then "."
  else
    let q := dropSlashes p
    if q.isEmpty then [slash] else (q.reverse.takeWhile (· != slash)).reverse

/-- All but the last component, cleaned. -/
def dir (p : Bytes) : Bytes := clean ((p.reverse.dropWhile (· != slash)).reverse)

/-- The part of the last component from its last dot on, or nothing. -/
def extension (p : Bytes) : Bytes :=
  let tail := p.reverse.takeWhile (fun b => b != slash && b != 46)
  match p.reverse.drop tail.length with
  | 46 :: _ => 46 :: tail.reverse
  | _ => []

/-- Drop the components that both lists start with. -/
def dropShared : List Bytes → List Bytes → List Bytes × List Bytes
  | a :: as, b :: bs => if a == b then dropShared as bs else (a :: as, b :: bs)
  | as, bs => (as, bs)

/-- The path that leads from `start` to `target`, if both are absolute or both relative and the
way back from `start` is known. A target `.` below another start is spelt out. -/
def relative? (start target : Bytes) : Option Bytes :=
  if clean start == clean target then some "."
  else if isAbsolute start != isAbsolute target then none
  else
    let goal := if clean target == "." then [("." : Bytes)] else cleanComponents target
    let (up, down) := dropShared (cleanComponents start) goal
    if up.head? == some ".." && !down.isEmpty then none
    else some (ofComponents false (List.replicate up.length (".." : Bytes) ++ down))

/-- The absolute path of `p` seen from the directory `cwd`. -/
def absolute (cwd p : Bytes) : Bytes := if isAbsolute p then clean p else join [cwd, p]

end WastForge.Path
