import WastForge.Diagnostic.Basic
import WastForge.Form.Basic
import WastForge.Script.Token
import WastForge.Text.Quoted

/-!
# Reading module text

The forms of a text, each with the line that it starts on.
-/

namespace WastForge

/-- A form of a text and the line that it starts on. -/
inductive SourceForm where
  | atom (line : UInt32) (word : Bytes)
  | text (line : UInt32) (content : Bytes)
  | list (line : UInt32) (items : List SourceForm)
  deriving Repr, Inhabited

namespace SourceForm

/-- The line that a form starts on. -/
def line : SourceForm → UInt32
  | .atom l _ | .text l _ | .list l _ => l

/-- The word that a form is; nothing if it is none. -/
def word : SourceForm → Bytes
  | .atom _ w => w
  | _ => []

/-- The text that a form is. -/
def text? : SourceForm → Option Bytes
  | .text _ t => some t
  | _ => none

/-- Whether a form is in parentheses. -/
def isList : SourceForm → Bool
  | .list .. => true
  | _ => false

/-- The word that a list starts with; nothing if it starts with none. -/
def head : SourceForm → Bytes
  | .list _ (first :: _) => first.word
  | _ => []

/-- What a list holds behind its first form. -/
def args : SourceForm → List SourceForm
  | .list _ (_ :: rest) => rest
  | _ => []

mutual

/-- The form without its lines. -/
def form : SourceForm → Form
  | .atom _ w => .atom w
  | .text _ t => .text t
  | .list _ items => .list (forms items)

/-- Several forms without their lines. -/
def forms : List SourceForm → List Form
  | [] => []
  | f :: rest => f.form :: forms rest

end

mutual

/-- How messages show a form. -/
def shown : SourceForm → Bytes
  | .atom _ w => w
  | .text _ t => Quoted.text t
  | .list _ items => "(" ++ Bytes.join " " (shownAll items) ++ ")"

/-- How messages show several forms. -/
def shownAll : List SourceForm → List Bytes
  | [] => []
  | f :: rest => f.shown :: shownAll rest

end

end SourceForm

namespace Script

/-- Stop at a line. -/
def malformed {α : Type} (line : UInt32) (message : Bytes) : Result α :=
  Result.problem .scriptSyntax { line := line } message

/-- A list that is not closed yet: its line and its forms so far, in reverse. -/
structure OpenList where
  line : UInt32
  rev : List SourceForm

/-- Put a form into the innermost open list, or among the finished forms. -/
def push (f : SourceForm) : List OpenList → List SourceForm → List OpenList × List SourceForm
  | [], done => ([], f :: done)
  | o :: outer, done => ({ o with rev := f :: o.rev } :: outer, done)

/-- Build forms from tokens, given the open lists from the innermost on and the finished forms in
reverse. -/
def readFrom : List OpenList → List SourceForm → List Token → Result (List SourceForm)
  | _, done, [] => .ok done.reverse
  | lists, done, t :: rest =>
    match t.kind with
    | .opening => readFrom (⟨t.line, []⟩ :: lists) done rest
    | .closing =>
      match lists with
      | [] => malformed t.line "unexpected ')'"
      | o :: outer =>
        let (lists, done) := push (.list o.line o.rev.reverse) outer done
        readFrom lists done rest
    | .word w =>
      let (lists, done) := push (.atom t.line w) lists done
      readFrom lists done rest
    | .text c =>
      let (lists, done) := push (.text t.line c) lists done
      readFrom lists done rest
    | .finish =>
      match lists with
      | [] => .ok done.reverse
      | o :: _ =>
        malformed t.line ("unterminated list opened on line " ++ Bytes.ofNat o.line.toNat)
    | .bad message => malformed t.line message

/-- Read the forms of a text. -/
def read (s : Bytes) : Result (List SourceForm) := readFrom [] [] (Token.scan s)

end Script

end WastForge
