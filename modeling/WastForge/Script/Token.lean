import WastForge.Number.Radix

/-!
# Tokens of module text

Text is cut into parentheses, words and quoted texts, each with the line that it starts on. Blanks
and remarks, which run from two semicolons to the end of the line, stand between them. Cutting
stops at the first mistake.
-/

namespace WastForge

/-- What a piece of text is. -/
inductive TokenKind where
  | opening
  | closing
  | word (bytes : Bytes)
  | text (content : Bytes)
  /-- The end of the text. -/
  | finish
  /-- The text goes on in a way that has no meaning. -/
  | bad (message : Bytes)
  deriving Repr, DecidableEq

/-- A piece of text and the line it starts on; the end and a mistake have the line where they were
met. -/
structure Token where
  kind : TokenKind
  line : UInt32
  deriving Repr, DecidableEq

namespace Token

/-- Blanks within a line. -/
def isBlank (b : UInt8) : Bool := b == 32 || b == 9 || b == 13

/-- Whether a byte ends a word. -/
def endsWord (b : UInt8) : Bool := b == 40 || b == 41 || b == 34 || b == 10 || isBlank b

/-- Whether a text starts with the end of a word. -/
def atWordEnd (s : Bytes) : Bool := s.head?.all endsWord

/-- What the next byte belongs to. -/
inductive Mode where
  /-- Nothing is begun. -/
  | between
  /-- A remark. -/
  | remark
  /-- A word, with the bytes read so far in reverse. -/
  | word (rev : Bytes)
  /-- A quoted text, with the line it starts on and the bytes read so far in reverse. -/
  | text (line : UInt32) (rev : Bytes)

/-- The byte that a letter behind a backslash stands for. -/
def escaped? (b : UInt8) : Option UInt8 :=
  if b == 110 then some 10
  else if b == 116 then some 9
  else if b == 34 || b == 92 || b == 39 then some b
  else none

/-- Cut a text into tokens, from a line on. -/
def scanFrom : Mode → UInt32 → Bytes → List Token
  | .between, line, [] | .remark, line, [] => [⟨.finish, line⟩]
  | .word _, line, [] => [⟨.finish, line⟩]
  | .text _ _, line, [] => [⟨.bad "unterminated string literal", line⟩]
  | .between, line, b :: rest =>
    if b == 10 then scanFrom .between (line + 1) rest
    else if isBlank b then scanFrom .between line rest
    else if b == 59 && rest.head? == some 59 then scanFrom .remark line rest
    else if b == 40 then ⟨.opening, line⟩ :: scanFrom .between line rest
    else if b == 41 then ⟨.closing, line⟩ :: scanFrom .between line rest
    else if b == 34 then scanFrom (.text line []) line rest
    else if atWordEnd rest then ⟨.word [b], line⟩ :: scanFrom .between line rest
    else scanFrom (.word [b]) line rest
  | .remark, line, b :: rest =>
    if b == 10 then scanFrom .between (line + 1) rest else scanFrom .remark line rest
  | .word rev, line, b :: rest =>
    if atWordEnd rest then
      ⟨.word (b :: rev).reverse, line⟩ :: scanFrom .between line rest
    else scanFrom (.word (b :: rev)) line rest
  | .text start rev, line, 34 :: rest =>
    ⟨.text rev.reverse, start⟩ :: scanFrom .between line rest
  | .text _ _, line, 10 :: _ => [⟨.bad "newline in string literal", line⟩]
  | .text _ _, line, [92] => [⟨.bad "unterminated escape", line⟩]
  | .text start rev, line, 92 :: a :: rest =>
    match escaped? a with
    | some b => scanFrom (.text start (b :: rev)) line rest
    | none =>
      match rest with
      | [] => [⟨.bad "truncated escape", line⟩]
      | c :: rest =>
        match Radix.natIn? 16 255 [a, c] with
        | some n => scanFrom (.text start (UInt8.ofNat n :: rev)) line rest
        | none => [⟨.bad ("bad escape \\" ++ [a, c]), line⟩]
  | .text start rev, line, b :: rest => scanFrom (.text start (b :: rev)) line rest

/-- Cut a text into tokens. -/
def scan (s : Bytes) : List Token := scanFrom .between 1 s

end Token

end WastForge
