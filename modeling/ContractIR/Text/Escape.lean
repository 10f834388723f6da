/-!
# Escaped text

Attribute strings are printed between quotes.  Printable ASCII stands for itself, except for the
two quotes and the backslash, which are escaped; so are tab, line feed and carriage return.  Every
other character is written as its code point in braces.

## Main definitions

* `ContractIR.Text.escapeChar` — the written form of one character.
* `ContractIR.Text.escape` — the written form of a text.
* `ContractIR.Text.quoted` — the written form between double quotes.
-/

set_option autoImplicit false

namespace ContractIR.Text

/-- A backslash. -/
def backslash : Char := '\x5c'

/-- The written form of a character inside a quoted attribute string. -/
def escapeChar (c : Char) : List Char :=
  if c = '\t' then [backslash, 't']
  else if c = '\r' then [backslash, 'r']
  else if c = '\n' then [backslash, 'n']
  else if c = '\x22' ∨ c = '\x27' ∨ c = backslash then [backslash, c]
  else if 0x20 ≤ c.toNat ∧ c.toNat ≤ 0x7e then [c]
  else [backslash, 'u', '\x7b'] ++ Nat.toDigits 16 c.toNat ++ ['\x7d']

/-- The written form of a text, character by character. -/
def escape (s : String) : String := String.ofList (s.toList.flatMap escapeChar)

/-- The written form of a text, between double quotes. -/
def quoted (s : String) : String := "\x22" ++ escape s ++ "\x22"

end ContractIR.Text
