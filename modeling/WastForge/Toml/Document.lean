import WastForge.Toml.Scalar

/-!
# Configurations

A configuration is read line by line: headers choose the table that the keys below them belong to,
and a key with dots leads into tables of its own. Tables that are only passed through are implicit,
and may be given a header of their own once.
-/

namespace WastForge

/-- A configuration that was read. -/
structure TomlDocument where
  root : TomlTable := []
  /-- The headers and the keys with a value, in the order of the text. -/
  keys : List TomlKey := []

/-- A configuration that is being read. -/
structure TomlDraft where
  /-- The text that is still to be read. -/
  rest : Bytes
  root : TomlTable := []
  /-- The headers and the keys with a value, the latest first. -/
  keys : List TomlKey := []
  /-- The table that keys belong to. -/
  context : TomlKey := []
  /-- Tables that were only passed through. -/
  implicit : List TomlKey := []
  /-- The keys whose latest value is an array; these may be given another one. -/
  arrays : List TomlKey := []

/-- Reading a configuration. -/
abbrev TomlM := StateT TomlDraft (Except TomlError)

namespace TomlM

open Toml

/-- The text that is still to be read. -/
def rest : TomlM Bytes := return (← get).rest

/-- Go on from a later place of the text. -/
def goto (s : Bytes) : TomlM Unit := modify fun d => { d with rest := s }

/-- Go on behind what a reader reads. -/
def take {α : Type} (r : Reading α) : TomlM α := do
  let (a, s) ← r
  goto s
  return a

/-- Read a fixed text. -/
def expect (s : Bytes) (e : TomlError) : TomlM Unit := do
  match Bytes.after? s (← rest) with
  | some t => goto t
  | none => throw e

/-- Mark a table as passed through. -/
def addImplicit (k : TomlKey) : TomlM Unit := modify fun d => { d with implicit := k :: d.implicit }

/-- Note that a table has a definition of its own. -/
def removeImplicit (k : TomlKey) : TomlM Unit :=
  modify fun d => { d with implicit := d.implicit.filter (· != k) }

/-- Note whether the value of a key of the current table is an array. No key stands for the table
itself. -/
def setKind (key : Bytes) (isArray : Bool) : TomlM Unit :=
  modify fun d =>
    let k := if key.isEmpty && !d.context.isEmpty then d.context else d.context ++ [key]
    let others := d.arrays.filter (· != k)
    { d with arrays := if isArray then k :: others else others }

/-- Store a value in the current table. -/
def store (key : Bytes) (v : TomlValue) : TomlM Unit := do
  let d ← get
  match TomlTable.setAt? d.root key v d.context with
  | some root => set { d with root := root }
  | none => throw (.redefined (d.context ++ [key]))

/-- Give a key of the current table a value, which it may not have already. The value of an array
may be replaced, and a table that was only passed through stays as it is. -/
def put (key : Bytes) (v : TomlValue) : TomlM Unit := do
  let d ← get
  let k := d.context ++ [key]
  match (TomlTable.at? d.root d.context).map (·.lookup key) with
  | none => throw (.redefined k)
  | some none => store key v
  | some (some _) =>
    if d.arrays.contains k then
      removeImplicit k
      store key v
    else if d.implicit.contains k then removeImplicit k
    else throw (.redefined k)

/-- Go into the table under a key of the current one, making it if it is missing. -/
def descend (key : Bytes) : TomlM Unit := do
  let d ← get
  let k := d.context ++ [key]
  match (TomlTable.at? d.root d.context).bind (·.lookup key) with
  | none =>
    addImplicit k
    store key (.table [])
  | some v => if v.current?.isNone then throw (.redefined k)
  modify fun d => { d with context := k }

/-- Add a table to those under a key of the current one. -/
def append (key : Bytes) : TomlM Unit := do
  let d ← get
  match (TomlTable.at? d.root d.context).bind (·.lookup key) with
  | none => store key (.tables [[]])
  | some (.tables l) => store key (.tables (l ++ [[]]))
  | some _ => throw (.redefined (d.context ++ [key]))

/-- Begin the table at the end of a path, or one more of the tables there. -/
def enter (path : TomlKey) (another : Bool) : TomlM Unit := do
  modify fun d => { d with context := [] }
  path.dropLast.forM descend
  let key := path.getLastD []
  if another then append key else put key (.table [])
  modify fun d => { d with context := path }

/-- Go into the tables that a key with dots passes through. -/
def passThrough (path : TomlKey) : TomlM Unit :=
  path.forM fun key => do
    let k := (← get).context ++ [key]
    addImplicit k
    enter k false

/-- List a header or a key. -/
def list (k : TomlKey) : TomlM Unit := modify fun d => { d with keys := k :: d.keys }

/-- A single key. -/
def keyPart : TomlM Bytes := do
  let s := skipBlanks (← rest)
  match shortText? s with
  | some r => take r
  | none =>
    let name := s.takeWhile TomlKey.isBare
    if name.isEmpty then throw .badKey
    goto (s.drop name.length)
    return name

/-- A path of keys with dots between them; there are at most `fuel` of them. -/
def keyPath : Nat → TomlM TomlKey
  | 0 => throw .badKey
  | fuel + 1 => do
    let name ← keyPart
    let s := skipBlanks (← rest)
    goto s
    match s with
    | 46 :: s =>
      goto s
      return name :: (← keyPath fuel)
    | _ => return [name]

/-- The text behind blanks, line breaks and remarks; the flag says that a remark has begun. -/
def skipLines : Bool → Bytes → Bytes
  | _, [] => []
  | remark, b :: rest =>
    if isBreak b then skipLines false rest
    else if remark || b == 35 then skipLines true rest
    else if isBlank b then skipLines false rest
    else b :: rest

/-- Go on behind blanks, line breaks and remarks. -/
def skip : TomlM Unit := do goto (skipLines false (← rest))

mutual

/-- The value of a key of the current table, with at most `fuel` parts. -/
def value : Nat → Bool → Bytes → TomlM TomlValue
  | 0, _, _ => throw .badValue
  | fuel + 1, inArray, key => do
    let s := skipBlanks (← rest)
    match s with
    | 91 :: s =>
      goto s
      setKind key true
      return .array (← arrayItems fuel key)
    | 123 :: s =>
      goto (skipBlanks s)
      let outer := (← get).context
      let context := outer ++ [key]
      addImplicit context
      enter context inArray
      let members ←
        match ← rest with
        | 125 :: s => do
          goto s
          pure []
        | _ => inlineMembers fuel context []
      modify fun d => { d with context := outer }
      return .table members
    | _ => take (scalar s)

/-- The items of an array up to its closing bracket. -/
def arrayItems : Nat → Bytes → TomlM (List TomlValue)
  | 0, _ => throw .badValue
  | fuel + 1, key => do
    skip
    match ← rest with
    | 93 :: s =>
      goto s
      return []
    | _ =>
      let v ← value fuel true key
      skip
      match ← rest with
      | 44 :: s =>
        goto s
        return v :: (← arrayItems fuel key)
      | _ =>
        expect "]" .badValue
        return [v]

/-- The members of a table on one line up to its closing brace, behind those in `acc`. Each is
listed under the last key of its path. -/
def inlineMembers : Nat → TomlKey → TomlTable → TomlM TomlTable
  | 0, _, _ => throw .badValue
  | fuel + 1, context, acc => do
    let (key, v) ← member fuel
    modify fun d => { d with context := context }
    let acc := TomlTable.set acc key v
    let s := skipBlanks (← rest)
    goto s
    match s with
    | 44 :: s =>
      goto s
      inlineMembers fuel context acc
    | _ =>
      expect "\x7d" .badValue
      return acc

/-- The last key of a path, and its value. -/
def member : Nat → TomlM (Bytes × TomlValue)
  | 0 => throw .badKey
  | fuel + 1 => do
    let path ← keyPath fuel
    expect "=" .badKey
    let key := path.getLastD []
    passThrough path.dropLast
    list ((← get).context ++ [key])
    let v ← value fuel false key
    put key v
    setKind key (v matches .array _)
    return (key, v)

end

/-- A header. -/
def header (fuel : Nat) : TomlM Unit := do
  expect "[" .badKey
  let another := (Bytes.after? "[" (← rest)).isSome
  if another then expect "[" .badKey
  let path ← keyPath fuel
  expect (if another then ("]]" : Bytes) else "]") .badKey
  enter path another
  setKind [] false
  list path

/-- The end of a line, which may hold a remark. -/
def lineEnd : TomlM Unit := do
  let s := skipBlanks (← rest)
  match s with
  | [] => goto s
  | b :: _ => if isBreak b || b == 35 then goto s else throw .badEnding

/-- The lines of a configuration; there are at most `fuel` of them. -/
def lines : Nat → TomlM Unit
  | 0 => return
  | fuel + 1 => do
    skip
    match ← rest with
    | [] => return
    | 91 :: _ =>
      header fuel
      lineEnd
      lines fuel
    | _ =>
      let outer := (← get).context
      let _ ← member fuel
      modify fun d => { d with context := outer }
      lineEnd
      lines fuel

end TomlM

namespace TomlDocument

/-- The text without a byte order mark. -/
def dropMark : Bytes → Bytes
  | 0xef :: 0xbb :: 0xbf :: s => s
  | 0xff :: 0xfe :: s => s
  | 0xfe :: 0xff :: s => s
  | s => s

/-- Whether a text holds no control characters but tabs and line breaks. A line break may have two
characters. -/
def isPlain : Bytes → Bool
  | [] => true
  | b :: rest =>
    (if b == 13 then rest.head? == some 10 else (32 ≤ b && b != 127) || b == 9 || b == 10)
      && isPlain rest

/-- Read a configuration. -/
def read (data : Bytes) : Except TomlError TomlDocument := do
  let s := dropMark data
  unless Utf8.isValid s && isPlain s do throw .badText
  let (_, d) ← (TomlM.lines (2 * s.length + 8)).run { rest := s }
  return { root := d.root, keys := d.keys.reverse }

end TomlDocument

end WastForge
