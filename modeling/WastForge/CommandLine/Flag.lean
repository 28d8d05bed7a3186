import WastForge.Number.Duration
import WastForge.Text.Quoted

/-!
# Flags

A command is called with words. Those that start with a hyphen are flags: `--name value`,
`--name=value`, or a letter as in `-o value`, `-ovalue` and `-o=value`. Switches need no value, and
several letters may stand behind one hyphen. Flags and other words may come in any order, and after
`--` no word is a flag.
-/

namespace WastForge

/-- What values a flag takes. -/
inductive FlagKind where
  | text
  | switch
  | integer
  | duration
  deriving Repr, DecidableEq, Inhabited

/-- A flag that a command has. -/
structure Flag where
  name : Bytes
  letter : Option UInt8 := none
  kind : FlagKind := .text
  /-- The value of a flag that is not given. -/
  default : Bytes := []
  deriving Repr, DecidableEq, Inhabited

namespace Flag

/-- The truth value of a text. -/
def truth? (s : Bytes) : Option Bool :=
  let yes : List Bytes := ["1", "t", "T", "TRUE", "true", "True"]
  let no : List Bytes := ["0", "f", "F", "FALSE", "false", "False"]
  if yes.contains s then some true else if no.contains s then some false else none

/-- What is wrong with a value of a kind, if anything is. -/
def wrong? (kind : FlagKind) (value : Bytes) : Option Bytes :=
  match kind with
  | .text => none
  | .switch =>
    if (truth? value).isSome then none
    else some ("strconv.ParseBool: parsing " ++ Quoted.text value ++ ": invalid syntax")
  | .integer =>
    if (Radix.int64? value).isSome then none
    else
      let why : Bytes := if Radix.isTooLarge value then "value out of range" else "invalid syntax"
      some ("strconv.ParseInt: parsing " ++ Quoted.text value ++ ": " ++ why)
  | .duration =>
    match Duration.read value with
    | .ok _ => none
    | .error e => some (e.message value)

/-- How a flag is named in messages. -/
def shown (f : Flag) : Bytes :=
  match f.letter with
  | some c => "-" ++ [c] ++ ", --" ++ f.name
  | none => "--" ++ f.name

/-- Whether the next word is the value of a flag that stands alone. -/
def takesWord (f : Flag) : Bool := f.kind ≠ .switch

/-- The flag with a name. -/
def named? (flags : List Flag) (name : Bytes) : Option Flag := flags.find? (·.name == name)

/-- The flag with a letter. -/
def lettered? (flags : List Flag) (c : UInt8) : Option Flag := flags.find? (·.letter == some c)

end Flag

/-- What is wrong with the words of a command. -/
inductive FlagError where
  | malformed (word : Bytes)
  | unknown (name : Bytes)
  | unknownLetter (letters : Bytes)
  | needsValue (name : Bytes)
  | letterNeedsValue (letters : Bytes)
  | badValue (flag : Flag) (value : Bytes) (why : Bytes)
  deriving Repr, DecidableEq, Inhabited

namespace FlagError

/-- The first of some letters as a character. A byte outside of ASCII stands for the character of
that number, of which the first byte is shown. -/
def letter (letters : Bytes) : Bytes :=
  Quoted.char ((Utf8.encode (letters.headD 0).toNat).headD 0).toNat

/-- The text of an error. -/
def message : FlagError → Bytes
  | .malformed word => "bad flag syntax: " ++ word
  | .unknown name => "unknown flag: --" ++ name
  | .unknownLetter letters => "unknown shorthand flag: " ++ letter letters ++ " in -" ++ letters
  | .needsValue name => "flag needs an argument: --" ++ name
  | .letterNeedsValue letters =>
    "flag needs an argument: " ++ letter letters ++ " in -" ++ letters
  | .badValue flag value why =>
    "invalid argument " ++ Quoted.text value ++ " for " ++ Quoted.text flag.shown ++ " flag: "
      ++ why

end FlagError

/-- The words of a command after its flags were read. -/
structure CommandWords where
  /-- The flags that the command has. -/
  flags : List Flag
  /-- The flags that were given with their values, the latest first. -/
  given : List (Bytes × Bytes) := []
  /-- The words that are no flags. -/
  args : List Bytes := []
  deriving Repr, Inhabited

namespace CommandWords

/-- Whether a flag was given. -/
def has (w : CommandWords) (name : Bytes) : Bool := (w.given.lookup name).isSome

/-- The value of a flag. -/
def text (w : CommandWords) (name : Bytes) : Bytes :=
  (w.given.lookup name).getD (((Flag.named? w.flags name).map (·.default)).getD [])

/-- Whether a switch is on. -/
def isOn (w : CommandWords) (name : Bytes) : Bool := Flag.truth? (w.text name) == some true

/-- The value of a flag as a number. -/
def int (w : CommandWords) (name : Bytes) : Int := (Radix.int64? (w.text name)).getD 0

/-- Take a flag and its value in. -/
def give (w : CommandWords) (f : Flag) (value : Bytes) : Except FlagError CommandWords :=
  match Flag.wrong? f.kind value with
  | some why => .error (.badValue f value why)
  | none => .ok { w with given := (f.name, value) :: w.given }

/-- What was read of a flag, and how many of the following words belong to it. -/
abbrev Step := Except FlagError (CommandWords × Nat)

/-- Take a flag in whose value is the next word. -/
def giveNext (w : CommandWords) (f : Flag) (words : List Bytes) (missing : FlagError) : Step :=
  match words with
  | value :: _ => (w.give f value).map (·, 1)
  | [] => .error missing

/-- Read a flag that is named, behind its hyphens. -/
def readNamed (w : CommandWords) (body : Bytes) (words : List Bytes) : Step :=
  let (name, value?) :=
    match Bytes.cut? 61 body with
    | some (name, value) => (name, some value)
    | none => (body, none)
  match Flag.named? w.flags name, value? with
  | none, _ => .error (.unknown name)
  | some f, some value => (w.give f value).map (·, 0)
  | some f, none =>
    if f.takesWord then w.giveNext f words (.needsValue name) else (w.give f "true").map (·, 0)

/-- Read flags by their letters, behind the hyphen. -/
def readLetters (w : CommandWords) (letters : Bytes) (words : List Bytes) : Step :=
  match letters with
  | [] => .ok (w, 0)
  | c :: rest =>
    if (Bytes.after? "test." letters).isSome then .ok (w, 0)
    else
      match Flag.lettered? w.flags c with
      | none => .error (.unknownLetter letters)
      | some f =>
        match rest with
        | 61 :: b :: value => (w.give f (b :: value)).map (·, 0)
        | _ =>
          if !f.takesWord then
            match w.give f "true" with
            | .ok w => w.readLetters rest words
            | .error e => .error e
          else if rest.isEmpty then w.giveNext f words (.letterNeedsValue letters)
          else (w.give f rest).map (·, 0)

/-- Read words, the first `skip` of which belong to a flag that was read. -/
def readFrom (w : CommandWords) : Nat → List Bytes → Except FlagError CommandWords
  | _, [] => .ok w
  | skip + 1, _ :: words => w.readFrom skip words
  | 0, word :: words =>
    match word with
    | 45 :: 45 :: [] => .ok { w with args := w.args ++ words }
    | 45 :: 45 :: b :: body =>
      if b == 45 || b == 61 then .error (.malformed word)
      else
        match w.readNamed (b :: body) words with
        | .ok (w, used) => w.readFrom used words
        | .error e => .error e
    | 45 :: b :: body =>
      match w.readLetters (b :: body) words with
      | .ok (w, used) => w.readFrom used words
      | .error e => .error e
    | _ => { w with args := w.args ++ [word] }.readFrom 0 words

/-- Read the words of a command that has some flags. -/
def read (flags : List Flag) (words : List Bytes) : Except FlagError CommandWords :=
  readFrom { flags := flags } 0 words

end CommandWords

end WastForge
