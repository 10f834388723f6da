import ContractIR.Builder.Ops
import ContractIR.CompileError

/-!
# Steps of compilation

Compilation changes a module step by step.  A step may fail; the module that it leaves behind is
kept either way.

## Main definitions

* `ContractIR.Transform` — steps on a module, `ContractIR.Lower` — steps that use a builder.
* `ContractIR.Transform.build` — runs a step that uses a builder on a module.
-/

set_option autoImplicit false

namespace ContractIR

/-- A step of compilation on a module. -/
abbrev Transform := EStateM CompileError Module

/-- A step of compilation that uses a builder. -/
abbrev Lower := EStateM CompileError Builder

/-- Rewrites are steps of compilation. -/
instance : MonadLift Rewrite Transform where
  monadLift step := fun m =>
    match step m with
    | .ok a n => .ok a n
    | .error e n => .error (.ir e) n

/-- Building is a step of compilation. -/
instance : MonadLift Build Lower where
  monadLift step := fun b =>
    match step b with
    | .ok a c => .ok a c
    | .error e c => .error (.ir e) c

namespace Transform

/-- The outcome of a computation without state as a step. -/
def ofExcept {σ α : Type} (result : Except CompileError α) : EStateM CompileError σ α :=
  match result with
  | .ok a => pure a
  | .error e => throw e

/-- Fails because of something that is not supported. -/
def unsupported {σ α : Type} (what : Unsupported) (location : Location) :
    EStateM CompileError σ α :=
  throw (.unsupported what location)

/-- What is there, or else a failure because an assumption does not hold. -/
def expect {σ α : Type} (found : Option α) (otherwise : Invariant) : EStateM CompileError σ α :=
  match found with
  | some a => pure a
  | none => throw (.invariant otherwise)

/-- Fails unless the body has a block to work in. -/
def needBody : Transform Unit := do
  if !(← get).hasBody then throw (.ir .noBody)

/-- Runs a step with a builder over the module and keeps the module that the builder leaves. -/
def build {α : Type} (start : Module → Builder) (step : Lower α) : Transform α := fun m =>
  match step (start m) with
  | .ok a b => .ok a b.ir
  | .error e b => .error e b.ir

end Transform

end ContractIR
