import ContractIR.Lowering.Function
import ContractIR.Verifier

/-!
# Lowering contracts

A contract becomes a `sol.contract` with its functions inside, in order.

## Main definitions

* `ContractIR.lowerContract` — one contract, at the end of a module.
* `ContractIR.lowerContracts` — a new module from a list of contracts, verified.
-/

set_option autoImplicit false

namespace ContractIR

/-- The first function of a list whose name an earlier one has. -/
def overloaded? (seen : List String) : List Function → Option Function
  | [] => none
  | f :: fs => if seen.contains f.name then some f else overloaded? (f.name :: seen) fs

/-- Lowers some functions to the end of a block. -/
def lowerFunctions (source : Source) (body : BlockId) : List Function → Transform Unit
  | [] => return ()
  | f :: fs => do
    let _ ← Transform.build (fun m => Builder.atEnd m body) (lowerFunction source f)
    lowerFunctions source body fs

/-- Lowers a contract to the end of a module. -/
def lowerContract (source : Source) (c : Contract) : Transform OpId := do
  let location ← Transform.ofExcept (locate source c.src)
  match overloaded? [] c.functions with
  | some f =>
    let place ← Transform.ofExcept (locate source f.src)
    Transform.unsupported (.overloaded f.name c.name) place
  | none =>
    Transform.needBody
    let (contract, body) ← Transform.build Builder.new do
      Build.setLocation location
      Build.container .contract c.name
    lowerFunctions source body c.functions
    return contract

/-- Lowers some contracts to the end of a module. -/
def lowerEach (source : Source) : List Contract → Transform Unit
  | [] => return ()
  | c :: cs => do
    let _ ← lowerContract source c
    lowerEach source cs

/-- Fails if the module is not accepted by the verifier. -/
def verified : Transform Unit := do
  match (← get).verify with
  | .ok _ => return ()
  | .error e => throw (.verification e)

/-- Lowers contracts into a new module and verifies it. -/
def lowerContracts (source : Source) (contracts : List Contract) : Except CompileError Module := do
  let location ← locate source {}
  match (do lowerEach source contracts; verified : Transform Unit) (Module.new location) with
  | .ok _ m => return m
  | .error e _ => throw e

end ContractIR
