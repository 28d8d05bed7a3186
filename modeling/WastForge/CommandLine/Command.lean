import WastForge.CommandLine.Flag
import WastForge.Text.Case
import WastForge.Text.EditDistance

/-!
# Commands

The first word that is no flag, and no value of one, chooses the command. Flags of the program
itself may stand before and behind it; those of a command stand behind it.
-/

namespace WastForge

/-- What the program can be asked to do. -/
inductive Command where
  /-- Nothing in particular. -/
  | root
  | build
  | run
  | sample
  | dump
  | version
  | help
  | completion
  deriving Repr, DecidableEq, Inhabited

namespace Command

/-- The name of the program. -/
def program : Bytes := "ilwasm"

/-- The name of a command. -/
def name : Command → Bytes
  | .root => program
  | .build => "build"
  | .run => "run"
  | .sample => "example"
  | .dump => "dump"
  | .version => "version"
  | .help => "help"
  | .completion => "completion"

/-- The commands that can be chosen by name. -/
def all : List Command := [.build, .run, .sample, .dump, .version, .help, .completion]

/-- The command with a name. -/
def ofName? (word : Bytes) : Option Command := all.find? (·.name == word)

/-- The flags that every command has. -/
def commonFlags : List Flag :=
  [{ name := "color", default := "auto" },
   { name := "quiet", kind := .switch },
   { name := "timings", kind := .switch },
   { name := "max-diagnostics", kind := .integer, default := "100" },
   { name := "diagnostics-format", default := "pretty" },
   { name := "path-mode", default := "relative" },
   { name := "trace" },
   { name := "trace-level", default := "off" },
   { name := "trace-mode", default := "stream" },
   { name := "trace-ring-size", kind := .integer, default := "4096" },
   { name := "trace-heartbeat", kind := .duration, default := "0" },
   { name := "cpuprofile" },
   { name := "memprofile" },
   { name := "runtime-trace" }]

/-- The flags that only one command has. -/
def ownFlags : Command → List Flag
  | .build =>
    [{ name := "out-dir", letter := some 111 },
     { name := "jobs", letter := some 106, kind := .integer, default := "0" },
     { name := "no-cache", kind := .switch },
     { name := "clear-cache", kind := .switch },
     { name := "ui", default := "auto" }]
  | .run =>
    [{ name := "example", letter := some 101 },
     { name := "stdout-dir" },
     { name := "dir" },
     { name := "max-steps", kind := .integer, default := "0" }]
  | .sample =>
    [{ name := "out-dir", letter := some 111, default := "." },
     { name := "list", letter := some 108, kind := .switch }]
  | .dump =>
    [{ name := "example", letter := some 101 },
     { name := "module", kind := .switch }]
  | .version =>
    [{ name := "hash", kind := .switch },
     { name := "message", kind := .switch },
     { name := "date", kind := .switch },
     { name := "full", kind := .switch },
     { name := "format", default := "pretty" }]
  | _ => []

/-- The flag that asks for help. -/
def helpFlag : Flag := { name := "help", letter := some 104, kind := .switch }

/-- The flag of the program that asks for its version. -/
def versionFlag : Flag := { name := "version", letter := some 118, kind := .switch }

/-- All flags of a command. -/
def flags (c : Command) : List Flag :=
  c.ownFlags ++ commonFlags ++ [helpFlag] ++ if c = .root then [versionFlag] else []

/-- Whether the word behind a flag is its value, as long as the command is not known. Flags that
are not known either are taken to have a value. -/
def takesNext (word : Bytes) : Bool :=
  match word with
  | 45 :: 45 :: name =>
    !word.contains 61 && ((Flag.named? commonFlags name).map (·.takesWord)).getD true
  | [45, c] => c != 61 && ((Flag.lettered? commonFlags c).map (·.takesWord)).getD true
  | _ => false

/-- Whether a word is a flag. -/
def isFlag (word : Bytes) : Bool := word.head? == some 45

/-- The words that are no flags and no values of flags. A flag that is followed by its value only,
or by nothing, ends them. -/
def plainWords (skip : Bool) : List Bytes → List Bytes
  | [] => []
  | word :: words =>
    if skip then plainWords false words
    else if word == "--" then []
    else if takesNext word then
      match words with
      | _ :: _ :: _ => plainWords true words
      | _ => []
    else if word.isEmpty || isFlag word then plainWords false words
    else word :: plainWords false words

/-- The words without the first one that is no flag and no value of a flag and equals `name`. -/
def without (name : Bytes) (skip : Bool) : List Bytes → List Bytes
  | [] => []
  | word :: words =>
    if skip then word :: without name false words
    else if word == "--" then word :: words
    else if takesNext word then word :: without name true words
    else if word == name then words
    else word :: without name false words

/-- Whether a command is worth suggesting for a word: it is alike, or the word is its beginning. -/
def isAlike (word : Bytes) (c : Command) : Bool :=
  EditDistance.between (Case.lower word) c.name ≤ 2 || (Case.lower word).isPrefixOf c.name

/-- The commands that may have been meant by a word. -/
def suggestions (word : Bytes) : List Command :=
  (all.filter (· ≠ .help)).filter (isAlike word)

/-- What is wrong with a word that is no command. -/
def unknown (word : Bytes) : Bytes :=
  let line (c : Command) : Bytes := "\t" ++ c.name ++ "\n"
  let lines := (suggestions word).flatMap line
  let meant : Bytes := if lines.isEmpty then [] else "\n\nDid you mean this?\n" ++ lines
  "unknown command " ++ Quoted.text word ++ " for " ++ Quoted.text program ++ meant

/-- The command that some words choose, and its own words. -/
def choose (words : List Bytes) : Except Bytes (Command × List Bytes) :=
  match plainWords false words with
  | [] => .ok (.root, words)
  | word :: _ =>
    match ofName? word with
    | some c => .ok (c, without word false words)
    | none => .error (unknown word)

/-- What is wrong with the number of words that a command is given, if anything is. -/
def wrongArgs? (c : Command) (w : CommandWords) : Option Bytes :=
  let n := w.args.length
  match c with
  | .run | .dump =>
    if n ≤ 1 then none
    else some ("accepts at most 1 arg(s), received " ++ Bytes.ofNat n)
  | .sample =>
    if w.isOn "list" then
      w.args.head?.map fun word =>
        "unknown command " ++ Quoted.text word ++ " for " ++ Quoted.text (program ++ " " ++ c.name)
    else if n = 1 then none
    else some ("accepts 1 arg(s), received " ++ Bytes.ofNat n)
  | _ => none

end Command

end WastForge
