import ContractIR.Text.Join

/-!
# Colored text

A terminal colors what stands between a code that opens a style and the code that resets it.  A
text may itself hold reset codes; the style is opened again behind each of them, so that the whole
text has it.

## Main definitions

* `ContractIR.Text.reset` — the code that ends every style.
* `ContractIR.Text.paint` — a text in a style.
-/

set_option autoImplicit false

namespace ContractIR.Text

/-- The code that ends every style. -/
def reset : String := "\x1b[0m"

/-- The code that opens a style with a number or numbers, divided by semicolons. -/
def styleCode (numbers : String) : String := "\x1b[" ++ numbers ++ "m"

/-- A text in a style. -/
def paint (numbers text : String) : String :=
  styleCode numbers ++ joinWith (reset ++ styleCode numbers) (text.splitOn reset) ++ reset

end ContractIR.Text
