import WastForge.Diagnostic.Basic

/-!
# Bags of diagnostics

A bag collects diagnostics up to a limit and counts the rest. A filter in front of a bag lets
each complaint about a member through once.
-/

namespace WastForge

/-- Collected diagnostics, in the order in which they came. -/
structure Bag where
  items : List Diagnostic := []
  /-- The most diagnostics that are kept. -/
  capacity : Nat := 100
  /-- How many were turned away. -/
  dropped : Nat := 0
  deriving Repr, DecidableEq, Inhabited

namespace Bag

/-- An empty bag; a limit that is not positive stands for one hundred. -/
def ofLimit (limit : Int) : Bag := { capacity := if limit ≤ 0 then 100 else limit.toNat }

/-- Whether there is room for another diagnostic. -/
def hasRoom (b : Bag) : Bool := b.items.length < b.capacity

/-- Add a diagnostic, or count it as dropped. -/
def add (b : Bag) (d : Diagnostic) : Bag :=
  if b.hasRoom then { b with items := b.items ++ [d] } else { b with dropped := b.dropped + 1 }

/-- Whether a diagnostic of at least a severity was kept. -/
def hasAtLeast (b : Bag) (s : Severity) : Bool := b.items.any fun d => s.rank ≤ d.severity.rank

/-- Whether an error was kept. -/
def hasErrors (b : Bag) : Bool := b.hasAtLeast .error

/-- Whether a warning or an error was kept. -/
def hasWarnings (b : Bag) : Bool := b.hasAtLeast .warning

/-- Take over the diagnostics of another bag; the limit grows as far as needed. -/
def merge (b : Bag) (items : List Diagnostic) : Bag :=
  { b with items := b.items ++ items, capacity := max b.capacity (b.items.length + items.length) }

/-- Whether `d` is listed before `e`: by place, then by severity, then by code. -/
def precedes (d e : Diagnostic) : Bool :=
  if d.span ≠ e.span then d.span.before e.span
  else if d.severity ≠ e.severity then e.severity.rank < d.severity.rank
  else d.code.number < e.code.number

/-- List the diagnostics by place; those that come out equal keep their order. -/
def sort (b : Bag) : Bag :=
  { b with items := b.items.mergeSort fun d e => !precedes e d }

/-- The text by which repeated diagnostics are recognised. -/
def key (d : Diagnostic) : Bytes :=
  Bytes.ofNat d.code.number.toNat ++ "|" ++ d.member ++ "|" ++ d.span.text ++ "|" ++ d.message

/-- Keep the first diagnostic of every key that is not among `seen`. -/
def firstOfKey (seen : List Bytes) : List Diagnostic → List Diagnostic
  | [] => []
  | d :: rest =>
    if seen.contains (key d) then firstOfKey seen rest
    else d :: firstOfKey (key d :: seen) rest

/-- Drop repeated diagnostics. -/
def dedup (b : Bag) : Bag := { b with items := firstOfKey [] b.items }

end Bag

/-- What a filter remembers of a complaint. -/
structure Complaint where
  code : Code
  severity : Severity
  member : Bytes
  message : Bytes
  deriving Repr, DecidableEq

/-- The complaint of a diagnostic. Without a member, only repetitions at the same place count. -/
def Complaint.of (d : Diagnostic) : Complaint where
  code := d.code
  severity := d.severity
  member := d.member
  message := if d.member.isEmpty then d.span.text ++ "|" ++ d.message else d.message

/-- A bag behind a filter that lets every complaint through once. -/
structure FilteredBag where
  bag : Bag
  seen : List Complaint := []

namespace FilteredBag

/-- Report a diagnostic. -/
def report (fb : FilteredBag) (d : Diagnostic) : FilteredBag :=
  if fb.seen.contains (Complaint.of d) then fb
  else { bag := fb.bag.add d, seen := Complaint.of d :: fb.seen }

/-- Report several diagnostics in order. -/
def reportAll (fb : FilteredBag) (ds : List Diagnostic) : FilteredBag := ds.foldl report fb

end FilteredBag

end WastForge
