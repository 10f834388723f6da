import ContractIR.CommandLine
import ContractIR.CommandLine.Disk

/-!
# Sessions

A session is one run of the program in a directory: its exit code, what it prints and says, and
the directory that it leaves.

## Main definitions

* `ContractIR.CommandLine.Session` — the outcome of a run.
* `ContractIR.CommandLine.run` — runs the program with arguments in a directory.
-/

set_option autoImplicit false

namespace ContractIR.CommandLine

/-- The outcome of a run. -/
structure Session where
  exitCode : Nat
  printed : String := ""
  /-- Why the run failed. -/
  failure : Option Failure := none
  disk : Disk

/-- A run that failed. -/
def Session.failed (disk : Disk) (f : Failure) : Session :=
  { exitCode := 1, failure := some f, disk := disk }

/-- A run that was successful up to its effect. -/
def Session.perform (colors : Bool) (disk : Disk) : Effect → Session
  | .print text => { exitCode := 0, printed := text, disk := disk }
  | .valid => { exitCode := 0, printed := validLine colors, disk := disk }
  | .write path text =>
    match disk.write path text with
    | .ok (disk, printed) => { exitCode := 0, printed := printed, disk := disk }
    | .error reason => .failed disk (.cannotWrite path reason)

/-- Runs the program with arguments in a directory; nobody watches the output on a terminal. -/
def run (colors : Bool) (disk : Disk) (args : List String) : Session :=
  match parse args with
  | .error .usage => { exitCode := 2, disk := disk }
  | .error _ => { exitCode := 0, disk := disk }
  | .ok inv =>
    match (execute (fun path => (pure (disk.read path) : Id _)) false inv).run with
    | .ok effect => .perform colors disk effect
    | .error f => .failed disk f

end ContractIR.CommandLine
