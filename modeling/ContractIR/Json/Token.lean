import ContractIR.Json.Lexeme

/-!
# Tokens of JSON text

A text is cut into tokens character by character.  Between two tokens only blanks, tabs, line feeds
and carriage returns may stand.

## Main definitions

* `ContractIR.Json.Token` — tokens, with their texts.
* `ContractIR.Json.Mode`, `ContractIR.Json.readChar` — what is being read, and one character more.
* `ContractIR.Json.tokens?` — the tokens of a text.
-/

set_option autoImplicit false

namespace ContractIR.Json

open Text (backslash)

/-- A token. -/
inductive Token where
  | openArray | closeArray | openObject | closeObject | comma | colon | null
  | bool (value : Bool)
  | number (lexeme : String)
  | string (lexeme : String)
deriving DecidableEq, Inhabited

/-- The text of a token. -/
def Token.text : Token → String
  | .openArray => "["
  | .closeArray => "]"
  | .openObject => "\x7b"
  | .closeObject => "\x7d"
  | .comma => ","
  | .colon => ":"
  | .null => "null"
  | .bool true => "true"
  | .bool false => "false"
  | .number lexeme => lexeme
  | .string lexeme => "\x22" ++ lexeme ++ "\x22"

/-- What is being read.  Characters that were read are held with the last one first. -/
inductive Mode where
  | between
  | text (read : List Char)
  /-- Behind a backslash. -/
  | escape (read : List Char)
  /-- Inside an escape by code unit, with some digits to come. -/
  | hex (left : Nat) (read : List Char)
  | number (read : List Char)
  | word (read : List Char)
deriving DecidableEq, Inhabited

/-- The token that a word is. -/
def wordToken? (word : String) : Option Token :=
  if word = "null" then some .null
  else if word = "true" then some (.bool true)
  else if word = "false" then some (.bool false)
  else none

/-- The tokens that end where a text ends or a new token starts. -/
def finish? : Mode → Option (List Token)
  | .between => some []
  | .number read =>
    let lexeme := String.ofList read.reverse
    (numeral? lexeme).map fun _ => [.number lexeme]
  | .word read => (wordToken? (String.ofList read.reverse)).map fun t => [t]
  | .text _ | .escape _ | .hex _ _ => none

/-- Whether a character may stand between tokens. -/
def isSpace (c : Char) : Bool := c == ' ' || c == '\t' || c == '\n' || c == '\r'

/-- The token that a single character is. -/
def mark? (c : Char) : Option Token :=
  if c = '[' then some .openArray
  else if c = ']' then some .closeArray
  else if c = '\x7b' then some .openObject
  else if c = '\x7d' then some .closeObject
  else if c = ',' then some .comma
  else if c = ':' then some .colon
  else none

/-- Whether a character may belong to a number. -/
def isNumberChar (c : Char) : Bool :=
  c.isDigit || c == '-' || c == '+' || c == '.' || c == 'e' || c == 'E'

/-- Reads a character between tokens: the tokens that it ends, and what is read next. -/
def startToken (c : Char) : Option (List Token × Mode) :=
  if isSpace c then some ([], .between)
  else
    match mark? c with
    | some t => some ([t], .between)
    | none =>
      if c = '\x22' then some ([], .text [])
      else if c.isDigit || c == '-' then some ([], .number [c])
      else if c.isLower then some ([], .word [c])
      else none

/-- Reads a character that ends what was read before it. -/
def restart (mode : Mode) (c : Char) : Option (List Token × Mode) := do
  let ended ← finish? mode
  let (tokens, next) ← startToken c
  return (ended ++ tokens, next)

/-- Reads one character: the tokens that it ends, and what is read next. -/
def readChar (mode : Mode) (c : Char) : Option (List Token × Mode) :=
  match mode with
  | .between => startToken c
  | .text read =>
    if c = '\x22' then some ([.string (String.ofList read.reverse)], .between)
    else if c = backslash then some ([], .escape (c :: read))
    else if c.toNat < 0x20 then none
    else some ([], .text (c :: read))
  | .escape read =>
    if c = 'u' then some ([], .hex 4 (c :: read))
    else if (shortEscape? c).isSome then some ([], .text (c :: read))
    else none
  | .hex left read =>
    if (hexValue? c).isSome then
      some ([], if left ≤ 1 then .text (c :: read) else .hex (left - 1) (c :: read))
    else none
  | .number read => if isNumberChar c then some ([], .number (c :: read)) else restart mode c
  | .word read => if c.isLower then some ([], .word (c :: read)) else restart mode c

/-- Reads characters one after the other; `done` holds the tokens so far, last one first. -/
def readChars (done : List Token) (mode : Mode) : List Char → Option (List Token)
  | [] => (finish? mode).map fun ended => (ended.reverse ++ done).reverse
  | c :: cs =>
    match readChar mode c with
    | none => none
    | some (ended, next) => readChars (ended.reverse ++ done) next cs

/-- The tokens of a text. -/
def tokens? (text : String) : Option (List Token) := readChars [] .between text.toList

end ContractIR.Json
