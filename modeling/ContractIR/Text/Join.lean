/-!
# Lists of words as one text

Printed operations, types and error messages all list words with the same separator between two
neighbours and none at the ends.

## Main definitions

* `ContractIR.Text.joinWith` — words with a separator between neighbours.
* `ContractIR.Text.commas` — the separator used by every printed list.
-/

set_option autoImplicit false

namespace ContractIR.Text

/-- The words of a list, with `sep` between neighbours. -/
def joinWith (sep : String) : List String → String
  | [] => ""
  | [w] => w
  | w :: ws => w ++ sep ++ joinWith sep ws

/-- Words separated by a comma and a blank. -/
def commas (ws : List String) : String := joinWith ", " ws

@[simp] theorem commas_nil : commas [] = "" := rfl

@[simp] theorem commas_singleton (w : String) : commas [w] = w := rfl

@[simp] theorem commas_cons_cons (w v : String) (ws : List String) :
    commas (w :: v :: ws) = w ++ ", " ++ commas (v :: ws) := rfl

end ContractIR.Text
