import WastForge.Diagnostic.Basic
import WastForge.Source

/-!
# Diagnostics as stable text

A listing for comparison with a recorded one: one line per diagnostic, ordered by path and
position.
-/

namespace WastForge.Golden

/-- One line of the listing, before it is written. -/
structure Entry where
  severity : Bytes
  code : Bytes
  path : Bytes
  line : UInt32
  col : UInt32
  member : Bytes
  message : Bytes
  deriving Repr, DecidableEq

/-- The word for a severity. -/
def label (s : Severity) : Bytes :=
  if s = .error then "error" else if s = .warning then "warning" else "info"

/-- A message on one line: line breaks become blanks, and blanks around it go. -/
def oneLine (message : Bytes) : Bytes :=
  Utf8.trim (Bytes.replace "\n" " " (Bytes.replace "\r" "\n" (Bytes.replace "\r\n" "\n" message)))

/-- The path of a place, seen from the base directory. -/
def pathOf (fs : FileSet) (cwd : Bytes) (s : Span) : Bytes :=
  match fs.get? s.file with
  | some p => PathStyle.render .relative cwd (fs.baseDir cwd) p
  | none => "<ir>"

/-- The entries of a diagnostic: its own and, if wanted, those of its notes. -/
def entries (fs : FileSet) (cwd : Bytes) (notes : Bool) (d : Diagnostic) : List Entry :=
  let own : Entry :=
    { severity := label d.severity, code := d.code.id, path := pathOf fs cwd d.span,
      line := d.span.line, col := d.span.col, member := d.member, message := oneLine d.message }
  let remarks := d.notes.map fun n =>
    { severity := "note", code := d.code.id, path := pathOf fs cwd n.span,
      line := n.span.line, col := n.span.col, member := [], message := oneLine n.message : Entry }
  own :: if notes then remarks else []

/-- Whether `a` is listed before `b`: by path, line, column, severity, code and message. -/
def precedes (a b : Entry) : Bool :=
  if a.path ≠ b.path then a.path < b.path
  else if a.line ≠ b.line then a.line < b.line
  else if a.col ≠ b.col then a.col < b.col
  else if a.severity ≠ b.severity then a.severity < b.severity
  else if a.code ≠ b.code then a.code < b.code
  else a.message < b.message

/-- An entry as a line. -/
def Entry.text (e : Entry) : Bytes :=
  let place := e.path ++ ":" ++ Bytes.ofNat e.line.toNat ++ ":" ++ Bytes.ofNat e.col.toNat
  let member : Bytes := if e.member.isEmpty then [] else " " ++ e.member ++ ":"
  e.severity ++ " " ++ e.code ++ " " ++ place ++ member ++ " " ++ e.message

/-- The listing of diagnostics. -/
def format (fs : FileSet) (cwd : Bytes) (notes : Bool) (ds : List Diagnostic) : Bytes :=
  let sorted := (ds.flatMap (entries fs cwd notes)).mergeSort fun a b => !precedes b a
  Bytes.join "\n" (sorted.map Entry.text)

end WastForge.Golden
