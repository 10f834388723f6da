import ContractIR.Ast.Basic
import ContractIR.Module.Basic

/-!
# Cells of variables

While a function is lowered, each of its parameters lives in a memory cell.  Cells are found by the
declaration that they belong to.

## Main definitions

* `ContractIR.Cell`, `ContractIR.Cells` — a cell, and the cells of a function.
* `ContractIR.Cells.bind`, `ContractIR.Cells.lookup?` — the last binding of a declaration wins.
-/

set_option autoImplicit false

namespace ContractIR

/-- The cell of a variable, and the variable's type. -/
structure Cell where
  address : ValueId
  ty : SemanticType
deriving DecidableEq, Inhabited

/-- The cells of a function's variables, by declaration. -/
structure Cells where
  entries : List (UInt64 × Cell) := []
deriving DecidableEq, Inhabited

namespace Cells

/-- Binds a declaration to a cell, in place of the cell that it was bound to. -/
def bind (cells : Cells) (declaration : UInt64) (cell : Cell) : Cells :=
  ⟨(declaration, cell) :: cells.entries.filter fun e => decide (e.1 ≠ declaration)⟩

/-- The cell of a declaration. -/
def lookup? (cells : Cells) (declaration : UInt64) : Option Cell :=
  (cells.entries.find? fun e => decide (e.1 = declaration)).map Prod.snd

/-- The number of bound declarations. -/
def size (cells : Cells) : Nat := cells.entries.length

/-- Whether nothing is bound. -/
def isEmpty (cells : Cells) : Bool := cells.entries.isEmpty

/-- A declaration is found in the cell that it was last bound to. -/
theorem lookup?_bind (cells : Cells) (d e : UInt64) (cell : Cell) :
    (cells.bind d cell).lookup? e = if e = d then some cell else cells.lookup? e := by
  by_cases h : e = d
  · subst h
    simp [bind, lookup?]
  · have hd : d ≠ e := fun h' => h h'.symm
    simp only [bind, lookup?, List.find?_cons, hd, decide_false, List.find?_filter, h, if_false]
    congr 2
    funext x
    by_cases hx : x.1 = e <;> simp [hx, h]

end Cells

end ContractIR
