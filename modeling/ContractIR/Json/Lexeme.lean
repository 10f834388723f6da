import ContractIR.Text.Decimal
import ContractIR.Text.Escape

/-!
# Lexemes of JSON strings and numbers

A string is kept as the characters between its quotes and a number as its characters; both get a
meaning only when someone asks for it.  A string whose escapes name half of a surrogate pair means
no text.

## Main definitions

* `ContractIR.Json.unescape?`, `ContractIR.Json.escaped` — from lexemes to texts and back.
* `ContractIR.Json.Numeral` — the parts of a number, `ContractIR.Json.numeral?` — its grammar.
* `ContractIR.Json.Numeral.nat?`, `ContractIR.Json.Numeral.int?` — what numbers mean.
-/

set_option autoImplicit false

namespace ContractIR.Json

open Text (backslash digitsValue)

/-! ## Strings -/

/-- The value of a hexadecimal digit. -/
def hexValue? (c : Char) : Option Nat :=
  let n := c.toNat
  if 48 ≤ n ∧ n ≤ 57 then some (n - 48)
  else if 97 ≤ n ∧ n ≤ 102 then some (n - 87)
  else if 65 ≤ n ∧ n ≤ 70 then some (n - 55)
  else none

/-- The value of four hexadecimal digits. -/
def hexUnit? (a b c d : Char) : Option Nat := do
  return 4096 * (← hexValue? a) + 256 * (← hexValue? b) + 16 * (← hexValue? c) + (← hexValue? d)

/-- Whether a code unit is the first half of a surrogate pair. -/
def isHighSurrogate (n : Nat) : Bool := decide (0xd800 ≤ n ∧ n ≤ 0xdbff)

/-- Whether a code unit is the second half of a surrogate pair. -/
def isLowSurrogate (n : Nat) : Bool := decide (0xdc00 ≤ n ∧ n ≤ 0xdfff)

/-- The character of a surrogate pair. -/
def surrogatePair (high low : Nat) : Char :=
  Char.ofNat (0x10000 + 1024 * (high - 0xd800) + (low - 0xdc00))

/-- The character behind an escape of one letter. -/
def shortEscape? (c : Char) : Option Char :=
  if c = '\x22' ∨ c = backslash ∨ c = '/' then some c
  else if c = 'b' then some '\x08'
  else if c = 'f' then some '\x0c'
  else if c = 'n' then some '\n'
  else if c = 'r' then some '\r'
  else if c = 't' then some '\t'
  else none

/-- Reads the escapes of a lexeme.  `done` holds the characters read so far, last one first, and
`high` the first half of a surrogate pair whose second half must come next. -/
def unescapeFrom (done : List Char) (high : Option Nat) : List Char → Option (List Char)
  | [] => if high.isSome then none else some done.reverse
  | '\x5c' :: 'u' :: a :: b :: c :: d :: rest =>
    match hexUnit? a b c d, high with
    | none, _ => none
    | some unit, some first =>
      if isLowSurrogate unit then unescapeFrom (surrogatePair first unit :: done) none rest
      else none
    | some unit, none =>
      if isHighSurrogate unit then unescapeFrom done (some unit) rest
      else if isLowSurrogate unit then none
      else unescapeFrom (Char.ofNat unit :: done) none rest
  | '\x5c' :: c :: rest =>
    match shortEscape? c, high with
    | some x, none => unescapeFrom (x :: done) none rest
    | _, _ => none
  | c :: rest => if high.isSome then none else unescapeFrom (c :: done) none rest

/-- The text that a string lexeme means. -/
def unescape? (lexeme : String) : Option String :=
  (unescapeFrom [] none lexeme.toList).map String.ofList

/-- A hexadecimal digit. -/
def hexDigit (n : Nat) : Char := Nat.digitChar n

/-- The letter that stands behind the backslash for a control character, if there is one. -/
def escapeLetter? (c : Char) : Option Char :=
  if c = '\x08' then some 'b'
  else if c = '\x0c' then some 'f'
  else if c = '\n' then some 'n'
  else if c = '\r' then some 'r'
  else if c = '\t' then some 't'
  else none

/-- The lexeme of a character: quotes, backslashes and control characters are escaped. -/
def escapedChar (c : Char) : List Char :=
  if c = '\x22' ∨ c = backslash then [backslash, c]
  else
    match escapeLetter? c with
    | some letter => [backslash, letter]
    | none =>
      if c.toNat < 0x20 then
        [backslash, 'u', '0', '0', hexDigit (c.toNat / 16), hexDigit (c.toNat % 16)]
      else [c]

/-- The lexeme of a text. -/
def escaped (s : String) : String := String.ofList (s.toList.flatMap escapedChar)

/-! ## Numbers -/

/-- The parts of a number. -/
structure Numeral where
  negative : Bool
  whole : List Char
  /-- The digits behind the point, if there is one. -/
  fraction : Option (List Char)
  /-- Whether the exponent is negative, and its digits, if there is one. -/
  exponent : Option (Bool × List Char)
deriving DecidableEq, Inhabited

/-- Reads an exponent, which ends a number. -/
def exponent? (cs : List Char) : Option (Bool × List Char) :=
  let (negative, digits) :=
    match cs with
    | '-' :: rest => (true, rest)
    | '+' :: rest => (false, rest)
    | rest => (false, rest)
  if !digits.isEmpty && digits.all Char.isDigit then some (negative, digits) else none

/-- Reads what follows the whole part and the fraction of a number. -/
def numeralTail? (negative : Bool) (whole : List Char) (fraction : Option (List Char)) :
    List Char → Option Numeral
  | [] => some ⟨negative, whole, fraction, none⟩
  | c :: cs =>
    if c = 'e' ∨ c = 'E' then (exponent? cs).map fun e => ⟨negative, whole, fraction, some e⟩
    else none

/-- Reads a number behind its sign: no leading zeros, and digits on both sides of a point. -/
def unsigned? (negative : Bool) (cs : List Char) : Option Numeral :=
  let whole := cs.takeWhile Char.isDigit
  if whole = [] ∨ (1 < whole.length ∧ whole.head? = some '0') then none
  else
    match cs.dropWhile Char.isDigit with
    | '.' :: rest =>
      let fraction := rest.takeWhile Char.isDigit
      if fraction.isEmpty then none
      else numeralTail? negative whole (some fraction) (rest.dropWhile Char.isDigit)
    | rest => numeralTail? negative whole none rest

/-- The parts of a number lexeme. -/
def numeral? (lexeme : String) : Option Numeral :=
  match lexeme.toList with
  | '-' :: cs => unsigned? true cs
  | cs => unsigned? false cs

namespace Numeral

/-- The natural number behind a numeral without sign, point and exponent. -/
def nat? (n : Numeral) : Option Nat :=
  if n.negative then none
  else
    match n.fraction, n.exponent with
    | none, none => some (digitsValue n.whole)
    | _, _ => none

/-- The integer behind a numeral without point and exponent. -/
def int? (n : Numeral) : Option Int :=
  match n.fraction, n.exponent with
  | none, none =>
    some (if n.negative then -(digitsValue n.whole : Int) else (digitsValue n.whole : Int))
  | _, _ => none

end Numeral

end ContractIR.Json
