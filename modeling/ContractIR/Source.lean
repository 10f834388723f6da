import ContractIR.Location

/-!
# Source texts

The front end names places by byte offset; messages and locations name them by line and column.
A source text is kept as its list of lines, each with the terminator that ends it, so that an
offset is translated by finding its line and counting characters in that line alone.

A line ends at a line feed, at a carriage return, or at a carriage return followed by a line feed,
which is one terminator.  What follows the last terminator is the last line, which may be empty.

## Main definitions

* `ContractIR.Line`, `ContractIR.splitLines` — lines, and the lines of a text.
* `ContractIR.Source` — a text with its lines, `ContractIR.Source.ofText` — its construction,
  within limits on size and number of lines.
* `ContractIR.Source.position` — the line and column of a byte offset.
-/

set_option autoImplicit false

namespace ContractIR

/-! ## Lines -/

/-- One line of a text, with the characters of the terminator that ends it. -/
structure Line where
  /-- Byte offset of the line's first character. -/
  start : Nat
  body : List Char
  ending : List Char
deriving DecidableEq, Inhabited

/-- Every character of a line, its terminator included. -/
def Line.chars (l : Line) : List Char := l.body ++ l.ending

/-- Splits characters into lines.  `start` is the offset at which the current line starts, `here`
the offset of the next character, `body` holds the current line's characters, last one first, and
`done` the finished lines. -/
def splitLinesFrom (start here : Nat) (body : List Char) (done : Array Line) :
    List Char → Array Line
  | [] => done.push ⟨start, body.reverse, []⟩
  | '\r' :: '\n' :: cs =>
    splitLinesFrom (here + 2) (here + 2) [] (done.push ⟨start, body.reverse, ['\r', '\n']⟩) cs
  | c :: cs =>
    if c = '\r' ∨ c = '\n' then
      splitLinesFrom (here + 1) (here + 1) [] (done.push ⟨start, body.reverse, [c]⟩) cs
    else
      splitLinesFrom start (here + c.utf8Size) (c :: body) done cs

/-- The lines of a text, at least one. -/
def splitLines (text : List Char) : Array Line := splitLinesFrom 0 0 [] #[] text

/-- The number of characters of `cs` that end at or before byte `offset`, added to `count`. -/
def charsBefore (count : Nat) : List Char → Nat → Nat
  | [], _ => count
  | c :: cs, offset =>
    if c.utf8Size ≤ offset then charsBefore (count + 1) cs (offset - c.utf8Size) else count

/-! ## Sources -/

/-- Why a text is no source, or an offset no place in it. -/
inductive SourceError where
  | tooManyLines (lines : Nat)
  | tooLarge (bytes : Nat)
  | outOfRange (offset length : Nat)
deriving DecidableEq, Inhabited

/-- The wording of a source error. -/
def SourceError.message : SourceError → String
  | .tooManyLines lines => "File exceeds maximum line count: " ++ toString lines ++ " lines"
  | .tooLarge bytes => "File exceeds maximum size: " ++ toString bytes ++ " bytes"
  | .outOfRange offset length =>
    "Offset " ++ toString offset ++ " is past the end of a " ++ toString length ++ " byte buffer"

/-- A named source text, split into lines. -/
structure Source where
  name : String
  /-- Length of the text in bytes. -/
  bytes : Nat
  lines : Array Line
deriving Inhabited

namespace Source

/-- The greatest number of lines that may be followed by more text. -/
def maxLines : Nat := 1000000

/-- The greatest length of a text in bytes. -/
def maxBytes : Nat := 4294967295

/-- Whether text stands in or after line number `maxLines`. -/
def overflows (lines : Array Line) (bytes : Nat) : Bool :=
  match lines[maxLines - 1]? with
  | some line => decide (line.start < bytes)
  | none => false

/-- A text as a source.  The limit on lines is met as soon as text stands in line number
`maxLines`: only an empty line may have that number. -/
def ofText (name text : String) : Except SourceError Source :=
  let bytes := text.utf8ByteSize
  if maxBytes < bytes then .error (.tooLarge bytes)
  else
    let lines := splitLines text.toList
    if overflows lines bytes then .error (.tooManyLines maxLines)
    else .ok ⟨name, bytes, lines⟩

/-- The number of lines. -/
def lineCount (s : Source) : Nat := s.lines.size

/-- The text of a line, counted from one, without its terminator. -/
def line? (s : Source) (number : Nat) : Option String :=
  match number with
  | 0 => none
  | i + 1 => (s.lines[i]?).map fun l => String.ofList l.body

/-- The number of lines that start at or before `offset`. -/
def linesUpTo (s : Source) (offset : Nat) : Nat :=
  s.lines.foldl (fun n l => if l.start ≤ offset then n + 1 else n) 0

/-- The line and column of a byte offset, both counted from one.  A column counts characters, and
an offset inside a character has the place of that character. -/
def position (s : Source) (offset : Nat) : Except SourceError (Nat × Nat) :=
  if s.bytes < offset then .error (.outOfRange offset s.bytes)
  else
    let number := s.linesUpTo offset
    let line := s.lines.getD (number - 1) default
    .ok (number, charsBefore 0 line.chars (offset - line.start) + 1)

/-- The location of a byte offset. -/
def location (s : Source) (offset : Nat) : Except SourceError Location :=
  (s.position offset).map fun p => .known s.name p.1 p.2

end Source

end ContractIR
