import ContractIR.EraVM.Patterns
import ContractIR.Lowering.Contract
import ContractIR.Pipeline

/-!
# Legalization

Legalization brings a module into the form that the machine's code generator takes: containers are
split and dropped, and every operation is a low-level one.

## Main definitions

* `ContractIR.EraVM.legalize` — the whole of it, ending with a check of the result.
* `ContractIR.EraVM.legalizePass` — legalization as a pass.
-/

set_option autoImplicit false

namespace ContractIR.EraVM

open Conversion

/-- The target of legalization: the low-level dialect alone may stay. -/
def lowLevelTarget : Target := ({} : Target).allowDialect .llvm

/-- Legalizes a module and verifies the result. -/
def legalize : Transform Stats := do
  lowerContainers
  let contexts := classify (← get)
  let _ ← hoist
  let stats ← convert lowLevelTarget (patterns contexts)
  verified
  return stats

/-- Legalization as a pass. -/
def legalizePass : Pass where
  name := "eravm-legalize"
  description := "Lowers sol, func, arith and memref ops to the llvm dialect for EraVM"
  run := fun m =>
    match legalize m with
    | .ok stats n => .ok (some stats) n
    | .error e n => .error (.compile e) n

end ContractIR.EraVM
