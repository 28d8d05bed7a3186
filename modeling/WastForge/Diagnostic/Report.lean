import WastForge.Diagnostic.Bag
import WastForge.Source
import WastForge.Text.Json

/-!
# Reports of diagnostics

The contents of a bag for people, one line per diagnostic and optionally in colour, and for other
programs, as JSON.
-/

namespace WastForge

/-- The path styles that can be chosen by name, the default first. -/
def PathStyle.named : List (PathStyle × Bytes) :=
  [(.asGiven, "auto"), (.absolute, "absolute"), (.relative, "relative"), (.basename, "basename")]

/-- The name of a path style. -/
def PathStyle.name (s : PathStyle) : Bytes := (PathStyle.named.lookup s).getD "auto"

/-- The path style with a name; no name chooses the default. -/
def PathStyle.ofName? (n : Bytes) : Option PathStyle :=
  if n.isEmpty then some .asGiven else (PathStyle.named.find? (·.2 == n)).map (·.1)

/-- The number of a path style, its position among the named ones. -/
def PathStyle.number (s : PathStyle) : Nat := PathStyle.named.findIdx (·.1 = s)

/-- The path style with a number; other numbers stand for the default. -/
def PathStyle.ofNumber (n : Nat) : PathStyle := ((PathStyle.named[n]?).map (·.1)).getD .asGiven

/-- The path of a file in a style; empty for an unknown file. -/
def FileSet.shownPath (fs : FileSet) (cwd : Bytes) (style : PathStyle) (id : UInt32) : Bytes :=
  match fs.get? id with
  | some p => style.render cwd (fs.baseDir cwd) p
  | none => []

namespace Report

/-- A place: path, line and column, as far as they are known. -/
def location (fs : FileSet) (cwd : Bytes) (style : PathStyle) (s : Span) : Bytes :=
  let shown := FileSet.shownPath fs cwd style s.file
  let path : Bytes := if shown.isEmpty then "<program>" else shown
  if s.line = 0 then path
  else if s.col = 0 then path ++ ":" ++ Bytes.ofNat s.line.toNat
  else path ++ ":" ++ Bytes.ofNat s.line.toNat ++ ":" ++ Bytes.ofNat s.col.toNat

/-- A text between two terminal sequences, when colours are wanted. -/
def paint (colour : Bool) (start stop : Bytes) (s : Bytes) : Bytes :=
  if colour then "\x1b[" ++ start ++ "m" ++ s ++ "\x1b[" ++ stop ++ "m" else s

/-- The terminal sequences of a severity. -/
def severityPaint (s : Severity) : Bytes × Bytes :=
  if s = .error then ("31;1", "0;22") else if s = .warning then ("33;1", "0;22") else ("36", "0")

/-- How diagnostics are listed for people. -/
structure Style where
  colour : Bool := false
  paths : PathStyle := .asGiven
  notes : Bool := false
  /-- At most this many diagnostics, if positive. -/
  limit : Int := 0
  /-- Whether a line with totals follows. -/
  summary : Bool := false

/-- The items shown under a limit. -/
def shown (limit : Int) (items : List Diagnostic) : List Diagnostic :=
  if 0 < limit then items.take limit.toNat else items

/-- A diagnostic as lines. -/
def lines (style : Style) (fs : FileSet) (cwd : Bytes) (d : Diagnostic) : Bytes :=
  let (start, stop) := severityPaint d.severity
  let member : Bytes := if d.member.isEmpty then [] else " [" ++ d.member ++ "]"
  let own :=
    paint style.colour "1" "22" (location fs cwd style.paths d.span) ++ ": "
      ++ paint style.colour start stop d.severity.name.lower ++ " "
      ++ paint style.colour "2" "22" d.code.id ++ ": " ++ d.message ++ member ++ "\n"
  let note (n : Note) : Bytes :=
    "  " ++ paint style.colour "34" "0" "note:" ++ " " ++ location fs cwd style.paths n.span
      ++ ": " ++ n.message ++ "\n"
  own ++ if style.notes then d.notes.flatMap note else []

/-- A count and its noun. -/
def plural (n : Nat) (word : Bytes) : Bytes :=
  if n = 1 then "1 " ++ word else Bytes.ofNat n ++ " " ++ word ++ "s"

/-- The totals of a bag. -/
def summary (b : Bag) : Bytes :=
  let count (s : Severity) := (b.items.filter (·.severity = s)).length
  let more : Bytes :=
    if b.dropped = 0 then [] else " (" ++ Bytes.ofNat b.dropped ++ " more not shown)"
  plural (count .error) "error" ++ ", " ++ plural (count .warning) "warning" ++ more

/-- The listing of a bag. -/
def pretty (style : Style) (fs : FileSet) (cwd : Bytes) (b : Bag) : Bytes :=
  (shown style.limit b.items).flatMap (lines style fs cwd)
    ++ if style.summary then summary b ++ "\n" else []

/-- What a JSON report holds. -/
structure JsonStyle where
  positions : Bool := false
  paths : PathStyle := .asGiven
  limit : Int := 0
  notes : Bool := false

/-- Members that are left out when they are empty. -/
def unlessEmpty (k v : Bytes) : List (Bytes × Json) := if v.isEmpty then [] else [(k, .str v)]

/-- Members that are left out when they are zero. -/
def unlessZero (k : Bytes) (n : Nat) : List (Bytes × Json) := if n = 0 then [] else [(k, .num n)]

/-- A place as JSON. -/
def locationJson (style : JsonStyle) (fs : FileSet) (cwd : Bytes) (s : Span) : Json :=
  let position :=
    if style.positions then unlessZero "line" s.line.toNat ++ unlessZero "col" s.col.toNat else []
  .ofGroups [[("file", .str (FileSet.shownPath fs cwd style.paths s.file))], position]

/-- A diagnostic as JSON. -/
def diagnosticJson (style : JsonStyle) (fs : FileSet) (cwd : Bytes) (d : Diagnostic) : Json :=
  let note (n : Note) : Json :=
    .obj [("message", .str n.message), ("location", locationJson style fs cwd n.span)]
  let notes : List (Bytes × Json) :=
    if style.notes && !d.notes.isEmpty then [("notes", .arr (d.notes.map note))] else []
  .ofGroups [
    [("severity", .str d.severity.name), ("code", .str d.code.id), ("title", .str d.code.title),
     ("message", .str d.message)],
    unlessEmpty "member" d.member,
    [("location", locationJson style fs cwd d.span)],
    notes]

/-- A bag as JSON, for the named input if there is one. -/
def json (style : JsonStyle) (fs : FileSet) (cwd : Bytes) (input : Bytes) (b : Bag) : Json :=
  let items := shown style.limit b.items
  .ofGroups [
    unlessEmpty "input" input,
    [("diagnostics", .arr (items.map (diagnosticJson style fs cwd))), ("count", .num items.length)],
    unlessZero "dropped" (b.dropped + (b.items.length - items.length))]

end Report

end WastForge
