import ContractIR.Text.Blank

/-!
# Decimal integers

Integers of any size travel as decimal text.  White space around the text is ignored; then comes
at most one sign, then a digit, then digits and underscores, of which the underscores mean nothing.

## Main definitions

* `ContractIR.Text.digitsValue` — the number that decimal digits write.
* `ContractIR.Text.readInt?` — the integer that a text writes.
-/

set_option autoImplicit false

namespace ContractIR.Text

/-- The value of a decimal digit. -/
def digitValue (c : Char) : Nat := c.toNat - 48

/-- The number that decimal digits write, the most significant one first. -/
def digitsValue (cs : List Char) : Nat := cs.foldl (fun n c => 10 * n + digitValue c) 0

/-- The number that a digit followed by digits and underscores writes. -/
def readNat? (cs : List Char) : Option Nat :=
  match cs with
  | [] => none
  | c :: rest =>
    if c.isDigit && rest.all fun d => d.isDigit || d == '_' then
      some (digitsValue (cs.filter Char.isDigit))
    else none

/-- The integer that a text writes. -/
def readInt? (s : String) : Option Int :=
  match trim s.toList with
  | '-' :: cs => (readNat? cs).map fun n => -(n : Int)
  | '+' :: cs => (readNat? cs).map fun n => (n : Int)
  | cs => (readNat? cs).map fun n => (n : Int)

end ContractIR.Text
