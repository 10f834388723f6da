import ContractIR.EraVM.Legalize
import ContractIR.Options
import ContractIR.Print.Printer

/-!
# Compilation jobs

A job lowers contracts, verifies the module, legalizes it if the action asks for that, and prints
the result if the action asks for that.

## Main definitions

* `ContractIR.Action`, `ContractIR.Target` — what to do, and for which machine.
* `ContractIR.JobError`, `ContractIR.JobResult` — the two ways a job ends.
* `ContractIR.runJob` — runs a job.
-/

set_option autoImplicit false

namespace ContractIR

/-- What to do with the module. -/
inductive Action where
  /-- Print it as it was lowered. -/
  | printHighLevel
  /-- Legalize and print it. -/
  | printLowLevel
  /-- Legalize it and print nothing. -/
  | verifyOnly
deriving DecidableEq, Inhabited

namespace Action

/-- Whether the module is legalized. -/
def legalizes : Action → Bool
  | .printHighLevel => false
  | _ => true

/-- Whether the module is printed. -/
def prints : Action → Bool
  | .verifyOnly => false
  | _ => true

/-- The action of a name. -/
def ofName? (s : String) : Option Action :=
  if s = "init" then some .printHighLevel
  else if s = "low-level" then some .printLowLevel
  else if s = "verify" then some .verifyOnly
  else none

end Action

/-- The machines that modules are legalized for. -/
inductive Target where
  | eravm
deriving DecidableEq, Inhabited

namespace Target

/-- The name of a machine. -/
def name : Target → String
  | .eravm => "eravm"

/-- The machine of a name. -/
def ofName? (s : String) : Option Target := if s = "eravm" then some .eravm else none

/-- The passes that legalize for a machine. -/
def passes : Target → List Pass
  | .eravm => [EraVM.legalizePass]

end Target

/-- What a job does. -/
structure Job where
  action : Action := .printHighLevel
  target : Target := .eravm
deriving DecidableEq, Inhabited

/-- Why a job failed. -/
inductive JobError where
  | options (error : OptionError)
  | lowering (error : CompileError)
  | pass (failure : PassFailure)
deriving DecidableEq, Inhabited

/-- What went wrong, then every cause behind it. -/
def JobError.chain : JobError → List String
  | .options error => ["Configuration error: " ++ error.message]
  | .lowering error => error.chain
  | .pass failure => [failure.message]

/-- What a finished job leaves. -/
structure JobResult where
  ir : Module
  text : Option String
  /-- The names of the finished passes, if they were to be recorded. -/
  finished : List String
deriving Inhabited

/-- Legalizes a module for a machine. -/
def legalizeFor (target : Target) (options : Options) (m : Module) :
    Except JobError Pipeline.Progress :=
  let pipeline : Pipeline :=
    { passes := target.passes, verifyEach := options.verifyEach, timing := options.timing }
  match pipeline.run { ir := m } with
  | .ok _ progress => .ok progress
  | .error failure _ => .error (.pass failure)

/-- Runs a job on contracts, with printing options as arguments. -/
def runJob (source : Source) (contracts : List Contract) (job : Job) (args : List String) :
    Except JobError JobResult := do
  let options ← (Options.parse args).mapError .options
  let high ← (lowerContracts source contracts).mapError .lowering
  let progress : Pipeline.Progress ←
    if job.action.legalizes then legalizeFor job.target options high else pure { ir := high }
  return {
    ir := progress.ir
    text := if job.action.prints then some (progress.ir.print options.style) else none
    finished := progress.finished }

end ContractIR
