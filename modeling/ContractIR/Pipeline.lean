import ContractIR.Conversion
import ContractIR.Verifier

/-!
# Pipelines of passes

A pipeline runs passes over a module one after the other and stops at the first failure.

## Main definitions

* `ContractIR.Pass` — a named step over a whole module.
* `ContractIR.PassFailure` — which pass failed, and why.
* `ContractIR.Pipeline`, `ContractIR.Pipeline.run` — passes and how they are run.
-/

set_option autoImplicit false

namespace ContractIR

/-- Why a pass failed. -/
inductive PassCause where
  | compile (error : CompileError)
  | note (text : String)
deriving DecidableEq, Inhabited

/-- The wording of a cause, then that of the cause behind it. -/
def PassCause.chain : PassCause → List String
  | .compile error => error.chain
  | .note text => [text]

/-- A named step over a whole module, with statistics if it is a conversion. -/
structure Pass where
  name : String
  description : String := "No description provided"
  /-- Whether the pass may change the module. -/
  modifies : Bool := true
  run : EStateM PassCause Module (Option Conversion.Stats)

/-- The failure of a pass. -/
inductive PassFailure where
  | failed (pass : String) (cause : PassCause)
  | invalid (pass : String) (error : VerifyError)
deriving DecidableEq, Inhabited

namespace PassFailure

/-- The error of compilation behind a failure. -/
def compileError? : PassFailure → Option CompileError
  | .failed _ (.compile error) => some error
  | _ => none

/-- What failed, then every cause behind it. -/
def chain : PassFailure → List String
  | .failed pass cause => ("pass '" ++ pass ++ "' failed") :: cause.chain
  | .invalid pass error => ["module invalid after pass '" ++ pass ++ "'", error.message]

/-- The wording of a failure. -/
def message (f : PassFailure) : String := Text.joinWith ": " f.chain

end PassFailure

/-- Passes, and how they are run. -/
structure Pipeline where
  passes : List Pass := []
  /-- Whether the module is verified behind every pass that may change it. -/
  verifyEach : Bool := false
  /-- Whether finished passes are recorded. -/
  timing : Bool := false

namespace Pipeline

/-- A module on its way through a pipeline. -/
structure Progress where
  ir : Module
  /-- The statistics of the passes that have run, in order. -/
  stats : List (Option Conversion.Stats) := []
  /-- The recorded names of finished passes, in order. -/
  finished : List String := []
deriving DecidableEq, Inhabited

/-- Runs one pass, and the checks and records behind it. -/
def runPass (pipeline : Pipeline) (pass : Pass) : EStateM PassFailure Progress Unit := do
  let p ← get
  match pass.run p.ir with
  | .error cause m =>
    set { p with ir := m }
    throw (.failed pass.name cause)
  | .ok stats m =>
    set { p with ir := m, stats := p.stats ++ [stats] }
    if pipeline.verifyEach && pass.modifies then
      match m.verify with
      | .ok _ => pure ()
      | .error e => throw (.invalid pass.name e)
    if pipeline.timing then
      modify fun q => { q with finished := q.finished ++ [pass.name] }

/-- Runs some passes one after the other. -/
def runFrom (pipeline : Pipeline) : List Pass → EStateM PassFailure Progress Unit
  | [] => pure ()
  | pass :: passes => do
    pipeline.runPass pass
    runFrom pipeline passes

/-- Runs every pass. -/
def run (pipeline : Pipeline) : EStateM PassFailure Progress Unit :=
  pipeline.runFrom pipeline.passes

/-- The names of the passes. -/
def names (pipeline : Pipeline) : List String := pipeline.passes.map Pass.name

end Pipeline

end ContractIR
