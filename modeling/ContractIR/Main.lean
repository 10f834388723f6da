import ContractIR.CommandLine
import ContractIR.CommandLine.Disk

/-!
# The program

Reads files, runs the command line and prints what it asks for.
-/

set_option autoImplicit false

namespace ContractIR.CommandLine

/-- Whether a code reported by the system has a number; codes come with either sign. -/
def hasNumber (code number : UInt32) : Bool := code == number || code == 0 - number

/-- The reason behind an error of the file system. -/
def reasonOf : IO.Error → String
  | .noFileOrDirectory .. => Disk.noEntry
  | .inappropriateType _ code details =>
    if hasNumber code 20 then Disk.notDirectory
    else if hasNumber code 21 then Disk.isDirectory
    else details
  | .invalidArgument _ code details => if hasNumber code 36 then Disk.nameTooLong else details
  | .resourceExhausted _ code details => if hasNumber code 28 then Disk.noSpace else details
  | e => e.toString

/-- The text of a file, or the reason why there is none. -/
def readTextFile (path : String) : IO (Except String String) := do
  try
    let bytes ← IO.FS.readBinFile path
    match String.fromUTF8? bytes with
    | some text => return .ok text
    | none => return .error Disk.notText
  catch e => return .error (reasonOf e)

/-- Prints or writes what an invocation asks for. -/
def perform (colors : Bool) : Effect → IO UInt32
  | .print text => do
    IO.print text
    return 0
  | .valid => do
    IO.print (validLine colors)
    return 0
  | .write path text => do
    try
      IO.FS.writeFile path text
      return 0
    catch e =>
      IO.eprint (errorLine colors (.cannotWrite path (reasonOf e)))
      return 1

/-- The short help text. -/
def usageText : String :=
  "Usage: contract-ir [--source FILE] [--action init|low-level|verify] [--target eravm]\n" ++
    "                   [--mlir-opts OPTIONS] [-o FILE] [-v]... INPUT\n"

end ContractIR.CommandLine

open ContractIR CommandLine

/-- The program. -/
def main (args : List String) : IO UInt32 := do
  match parse args with
  | .error .help =>
    IO.print usageText
    return 0
  | .error .version =>
    IO.println "contract-ir 0.1.0"
    return 0
  | .error .usage =>
    IO.eprint usageText
    return 2
  | .ok inv =>
    let terminal ← (← IO.getStdout).isTty
    let colors := colorsMessages (← IO.getEnv "CLICOLOR_FORCE") (← IO.getEnv "NO_COLOR")
      (← IO.getEnv "CLICOLOR") terminal
    match ← execute readTextFile (terminal && colors) inv with
    | .ok effect => perform colors effect
    | .error f =>
      IO.eprint (errorLine colors f)
      return 1
