import WastForge.Bytes

/-!
# Forms

Module text is made of forms: words, quoted texts, and lists of forms in parentheses. A long form
is laid out over several lines; what stands on which line does not change what the form is.
-/

namespace WastForge

/-- A piece of module text. -/
inductive Form where
  /-- A word. -/
  | atom (word : Bytes)
  /-- A text in quotation marks. -/
  | text (content : Bytes)
  /-- Forms in parentheses. -/
  | list (items : List Form)
  deriving Repr, Inhabited

namespace Form

/-- A byte of a quoted text. Printable ASCII is kept; any other byte, and the two that have a
meaning of their own, are written as two hexadecimal digits behind a backslash. -/
def quoteByte (b : UInt8) : Bytes :=
  if 32 ≤ b && b < 127 && b != 34 && b != 92 then [b] else 92 :: Bytes.hexByte b

/-- A text in quotation marks. -/
def quote (content : Bytes) : Bytes := 34 :: content.flatMap quoteByte ++ [34]

mutual

/-- A form on one line. -/
def render : Form → Bytes
  | .atom word => word
  | .text content => quote content
  | .list items => 40 :: Bytes.join " " (renderAll items) ++ [41]

/-- Several forms, each on one line. -/
def renderAll : List Form → List Bytes
  | [] => []
  | f :: rest => f.render :: renderAll rest

end

/-- A form with a head word; arguments that left nothing behind are passed over. -/
def app (head : Bytes) (args : List (Option Form)) : Form :=
  .list (.atom head :: args.filterMap id)

/-- A form of words only. -/
def words (l : List Bytes) : Form := .list (l.map .atom)

end Form

/-- Lines of module text. -/
inductive Line where
  /-- An empty line. -/
  | blank
  /-- A remark for the reader. -/
  | comment (text : Bytes)
  /-- A form on a line of its own. -/
  | form (f : Form)
  /-- A form over several lines. The first forms stand on the line that opens it; a missing one
  leaves only the blank in front of it. -/
  | group (head : List (Option Form)) (body : List Line)
  deriving Inhabited

namespace Line

/-- The blanks at the start of a line. -/
def indent (depth : Nat) : Bytes := List.replicate (2 * depth) 32

/-- The forms that open a group. -/
def renderHead (head : List (Option Form)) : Bytes :=
  Bytes.join " " (head.map fun
    | some f => f.render
    | none => [])

mutual

/-- Lines at a depth of indentation. -/
def render (depth : Nat) : Line → Bytes
  | .blank => [10]
  | .comment text => indent depth ++ (";; " : Bytes) ++ text ++ [10]
  | .form f => indent depth ++ f.render ++ [10]
  | .group head body =>
    indent depth ++ 40 :: renderHead head ++ [10] ++ renderAll (depth + 1) body
      ++ indent depth ++ [41, 10]

/-- Several lines at a depth of indentation. -/
def renderAll (depth : Nat) : List Line → Bytes
  | [] => []
  | l :: rest => l.render depth ++ renderAll depth rest

end

mutual

/-- The forms that lines stand for. -/
def forms : Line → List Form
  | .blank | .comment _ => []
  | .form f => [f]
  | .group head body => [.list (head.filterMap id ++ formsAll body)]

/-- The forms that several lines stand for. -/
def formsAll : List Line → List Form
  | [] => []
  | l :: rest => l.forms ++ formsAll rest

end

end Line

end WastForge
