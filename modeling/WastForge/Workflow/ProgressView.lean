import WastForge.Text.Width
import WastForge.Workflow.Progress

/-!
# The progress view

While files are worked on, a screen shows how far each of them has come: a title, a line for every
file, and a bar. The view changes with events, with ticks of a spinner and with the size of the
window.
-/

namespace WastForge

/-- A line of the view. -/
structure ProgressItem where
  path : Bytes
  label : Bytes := "queued"
  /-- The first line of the error, if there was one. -/
  error : Bytes := []
  deriving Repr, DecidableEq, Inhabited

/-- What is shown. -/
structure ProgressView where
  title : Bytes
  items : List ProgressItem
  /-- What is being done with the files as a whole. -/
  stageLabel : Bytes := []
  width : Nat := 80
  barWidth : Nat := 76
  /-- How often the spinner has ticked. -/
  ticks : Nat := 0
  isDone : Bool := false
  deriving Repr, DecidableEq, Inhabited

/-- What may change the view. -/
inductive ViewInput where
  | event (file : Bytes) (stage : Stage) (status : Status) (error : Option Bytes)
  | key (name : Bytes)
  | tick
  | resize (width : Int)
  /-- All work is finished. -/
  | close
  deriving Repr, DecidableEq, Inhabited

namespace ProgressView

/-- The view before anything has happened. -/
def ofFiles (title : Bytes) (files : List Bytes) : ProgressView :=
  { title := title, items := files.map fun f => { path := f } }

/-- What a stage is called while it is going on. -/
def stageWord (s : Stage) : Bytes :=
  if s = .decode then "decoding"
  else if s = .emit then "emitting"
  else if s = .write then "writing"
  else if s = .run then "running"
  else []

/-- The label for a stage and a status; nothing if these are not known. -/
def labelOf (stage : Stage) (status : Status) : Bytes :=
  if status = .queued || status = .done || status = .error then status.name
  else if status = .working then stageWord stage
  else []

/-- The first line of a text. -/
def firstLine (s : Bytes) : Bytes := s.takeWhile (· != 10)

/-- The item of a file after an event. -/
def applyTo (label : Bytes) (status : Status) (error : Option Bytes) (i : ProgressItem) :
    ProgressItem :=
  let i := if label.isEmpty then i else { i with label := label }
  match error with
  | some e => if status = .error then { i with error := firstLine e } else i
  | none => i

/-- Change the last item with a path. -/
def modifyLast (path : Bytes) (f : ProgressItem → ProgressItem) (items : List ProgressItem) :
    List ProgressItem :=
  match items.reverse.findIdx? (·.path = path) with
  | some k => items.modify (items.length - 1 - k) f
  | none => items

/-- The view after something has happened, and whether it is to be closed. -/
def update (v : ProgressView) : ViewInput → ProgressView × Bool
  | .event file stage status error =>
    let label := labelOf stage status
    if file.isEmpty then (if label.isEmpty then v else { v with stageLabel := label }, false)
    else ({ v with items := modifyLast file (applyTo label status error) v.items }, false)
  | .key name => (v, name == "ctrl+c")
  | .tick => (if v.isDone then v else { v with ticks := v.ticks + 1 }, false)
  | .resize width =>
    if width ≤ 0 then (v, false)
    else ({ v with width := width.toNat, barWidth := max (width.toNat - 4) 10 }, false)
  | .close => ({ v with isDone := true }, true)

/-- The pictures of the spinner. -/
def frames : List Bytes := ["⣾ ", "⣽ ", "⣻ ", "⢿ ", "⡿ ", "⣟ ", "⣯ ", "⣷ "]

/-- Text as it is shown: tabs are spelt out, and the lines of a text are made equally wide. -/
def shown (s : Bytes) : Bytes :=
  let plain := Bytes.replace "\r\n" "\n" (Bytes.replace "\t" "    " s)
  let lines := Bytes.splitOn 10 plain
  let widest := (lines.map Width.ofText).foldl max 0
  if lines.length ≤ 1 then plain
  else
    Bytes.join [10] (lines.map fun l => l ++ List.replicate (widest - Width.ofText l) 32)

/-- The title with the numbers of finished and failed files. -/
def header (v : ProgressView) : Bytes :=
  let failed := v.items.countP (·.label = Status.error.name)
  let finished := failed + v.items.countP (·.label = Status.done.name)
  let stage : Bytes := if v.stageLabel.isEmpty then [] else " (" ++ v.stageLabel ++ ")"
  let failures : Bytes := if failed = 0 then [] else ", " ++ Bytes.ofNat failed ++ " failed"
  let spinner : Bytes := (frames[v.ticks % frames.length]?).getD []
  let lead : Bytes := if v.isDone then "done: " else spinner ++ " "
  lead ++ v.title ++ stage ++ " [" ++ Bytes.ofNat finished
    ++ "/" ++ Bytes.ofNat v.items.length ++ failures ++ "]"

/-- The lines of a file. -/
def itemLines (nameWidth : Nat) (i : ProgressItem) : Bytes :=
  let error : Bytes :=
    if i.error.isEmpty then []
    else Bytes.padLeft 15 32 [] ++ shown (Width.truncate i.error nameWidth) ++ "\n"
  "  " ++ Bytes.padLeft 12 32 i.label ++ " " ++ Width.truncate i.path nameWidth ++ "\n" ++ error

/-- The bar, empty until everything is finished. -/
def bar (v : ProgressView) : Bytes :=
  let cell : Bytes := if v.isDone then "█" else "░"
  (List.replicate (v.barWidth - 5) cell).flatten ++ (if v.isDone then " 100%" else "   0%")

/-- What the screen shows. -/
def render (v : ProgressView) : Bytes :=
  if v.items.isEmpty then []
  else
    shown v.header ++ "\n\n" ++ v.items.flatMap (itemLines (max (v.width - 16) 20)) ++ "\n" ++ v.bar
      ++ "\n"

end ProgressView

end WastForge
