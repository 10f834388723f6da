import ContractIR.Module.Basic

/-!
# Numbers of printed values and blocks

Printed values and blocks are numbered from zero in the order in which they are first mentioned.  A
numbering is the list of what was mentioned so far: the number of a thing is its place there.

## Main definitions

* `ContractIR.Print.Numbering` — the values and blocks mentioned so far.
* `ContractIR.Print.Numbering.value`, `block` — a number, new at the first mention.
* `ContractIR.Print.valueText`, `valuesText`, `blockText`, `blockHeader` — printed forms.
-/

set_option autoImplicit false

namespace ContractIR.Print

/-- The values and blocks that were mentioned, in order. -/
structure Numbering where
  values : List ValueId := []
  blocks : List BlockId := []
deriving DecidableEq, Inhabited

/-- The place of `a` in a list, at the end of which it is put if it is missing. -/
def placeIn {α : Type} [DecidableEq α] (a : α) (seen : List α) : Nat × List α :=
  if a ∈ seen then (seen.idxOf a, seen) else (seen.length, seen ++ [a])

namespace Numbering

/-- The number of a value. -/
def value (v : ValueId) : StateM Numbering Nat := fun n =>
  let p := placeIn v n.values
  (p.1, { n with values := p.2 })

/-- The number of a block. -/
def block (b : BlockId) : StateM Numbering Nat := fun n =>
  let p := placeIn b n.blocks
  (p.1, { n with blocks := p.2 })

end Numbering

/-- The printed form of a value. -/
def valueText (v : ValueId) : StateM Numbering String := do
  return "%" ++ toString (← Numbering.value v)

/-- The printed form of a block's label. -/
def blockText (b : BlockId) : StateM Numbering String := do
  return "^bb" ++ toString (← Numbering.block b)

/-- The printed forms of some values. -/
def valuesText (vs : List ValueId) : StateM Numbering String := do
  return Text.commas (← vs.mapM valueText)

/-- The printed form of a block argument with its type. -/
def argText (m : Module) (v : ValueId) : StateM Numbering String := do
  return (← valueText v) ++ ": " ++ (m.typeOf v).text

/-- The header of a block: its label, then its arguments if it has any. -/
def blockHeader (m : Module) (b : BlockId) : StateM Numbering String := do
  let label ← blockText b
  let args := (m.block b).args
  if args.isEmpty then return label ++ ":"
  else return label ++ "(" ++ Text.commas (← args.mapM (argText m)) ++ "):"

end ContractIR.Print
