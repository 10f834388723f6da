import ContractIR.Ast.Decode
import ContractIR.Job
import ContractIR.Text.Paint

/-!
# The command line

The program takes a file with checked contracts, finds the source text that belongs to it, runs a
job and prints or writes the result.  Files are read through a function that is passed in, so that
everything but reading and writing itself is decided here.

## Main definitions

* `ContractIR.CommandLine.Invocation` — what the arguments ask for.
* `ContractIR.CommandLine.parse` — the invocation in a list of arguments.
* `ContractIR.CommandLine.execute` — what an invocation prints or writes.
-/

set_option autoImplicit false

namespace ContractIR.CommandLine

/-! ## Invocations -/

/-- What the arguments ask for. -/
structure Invocation where
  input : String
  source : Option String := none
  action : Action := .printHighLevel
  target : Target := .eravm
  options : String := ""
  output : Option String := none
  verbosity : Nat := 0
deriving DecidableEq, Inhabited

/-- Why there is no invocation: help or the version is asked for, or the arguments are wrong. -/
inductive Refusal where
  | help | version | usage
deriving DecidableEq, Inhabited

/-- The options that take a value. -/
inductive Slot where
  | source | action | target | options | output
deriving DecidableEq, Inhabited

/-- Values that were given, by place or by option. -/
structure Given where
  input : Option String := none
  slots : List (Slot × String) := []
  verbosity : Nat := 0
deriving DecidableEq, Inhabited

namespace Slot

/-- The option of a long name. -/
def ofLong? (name : String) : Option Slot :=
  if name = "--source" then some .source
  else if name = "--action" then some .action
  else if name = "--target" then some .target
  else if name = "--mlir-opts" then some .options
  else if name = "--output" then some .output
  else none

/-- Whether a value is one that the option takes: paths are not empty, and actions and targets
have names. -/
def accepts : Slot → String → Bool
  | .source, v => v != ""
  | .output, v => v != ""
  | .action, v => (Action.ofName? v).isSome
  | .target, v => (Target.ofName? v).isSome
  | .options, _ => true

end Slot

namespace Given

/-- The value of an option. -/
def get? (g : Given) (slot : Slot) : Option String :=
  (g.slots.find? fun e => decide (e.1 = slot)).map Prod.snd

/-- Gives an option a value, which it may have once. -/
def set (g : Given) (slot : Slot) (value : String) : Except Refusal Given :=
  if (g.get? slot).isSome || !slot.accepts value then .error .usage
  else .ok { g with slots := (slot, value) :: g.slots }

/-- Gives the input, of which there is one. -/
def setInput (g : Given) (path : String) : Except Refusal Given :=
  if g.input.isSome || path == "" then .error .usage else .ok { g with input := some path }

/-- Counts a request for more messages. -/
def louder (g : Given) : Given := { g with verbosity := g.verbosity + 1 }

/-- The invocation behind the values that were given. -/
def invocation (g : Given) : Except Refusal Invocation :=
  match g.input with
  | none => .error .usage
  | some input => .ok {
      input := input
      source := g.get? .source
      action := ((g.get? .action).bind Action.ofName?).getD .printHighLevel
      target := ((g.get? .target).bind Target.ofName?).getD .eravm
      options := (g.get? .options).getD ""
      output := g.get? .output
      verbosity := g.verbosity }

end Given

/-! ## Reading arguments -/

/-- Reads the letters behind a dash.  The answer names the option that waits for a value. -/
def readCluster : List Char → Given → Except Refusal (Given × Option Slot)
  | [], g => .ok (g, none)
  | 'v' :: rest, g => readCluster rest g.louder
  | 'h' :: _, _ => .error .help
  | 'V' :: _, _ => .error .version
  | 'o' :: rest, g =>
    match rest with
    | [] => .ok (g, some .output)
    | '=' :: value => do return (← g.set .output (String.ofList value), none)
    | value => do return (← g.set .output (String.ofList value), none)
  | _ :: _, _ => .error .usage

/-- Reads a long option.  The answer names the option that waits for a value. -/
def readLong (name : String) (value : Option String) (g : Given) :
    Except Refusal (Given × Option Slot) :=
  match Slot.ofLong? name, value with
  | some slot, some v => do return (← g.set slot v, none)
  | some slot, none => .ok (g, some slot)
  | none, some _ => .error .usage
  | none, none =>
    if name = "--verbose" then .ok (g.louder, none)
    else if name = "--help" then .error .help
    else if name = "--version" then .error .version
    else .error .usage

/-- Reads arguments that are no options. -/
def readPlain : List String → Given → Except Refusal Given
  | [], g => .ok g
  | arg :: rest, g => do readPlain rest (← g.setInput arg)

/-- Reads arguments one after the other.  An option that waits for a value takes the next argument,
but not one that looks like an option unless it is the one for printing options. -/
def readArgs : Option Slot → List String → Given → Except Refusal Given
  | none, [], g => .ok g
  | some _, [], _ => .error .usage
  | some .options, arg :: rest, g => do readArgs none rest (← g.set .options arg)
  | waiting, arg :: rest, g =>
    match waiting, ArgShape.of arg with
    | some slot, .plain => do readArgs none rest (← g.set slot arg)
    | some _, _ => .error .usage
    | none, .plain => do readArgs none rest (← g.setInput arg)
    | none, .endOfOptions => readPlain rest g
    | none, .short first letters => do
      let (g, waiting) ← readCluster (first :: letters) g
      readArgs waiting rest g
    | none, .long name value => do
      let (g, waiting) ← readLong name value g
      readArgs waiting rest g

/-- The invocation in a list of arguments. -/
def parse (args : List String) : Except Refusal Invocation := do
  (← readArgs none args {}).invocation

/-! ## Paths -/

/-- The characters of a path up to and including its last slash, and those behind it. -/
def splitPath (path : String) : List Char × List Char :=
  let name := (path.toList.reverse.takeWhile fun c => c != '/').reverse
  (path.toList.take (path.toList.length - name.length), name)

/-- A file name without its extension; a dot at the start opens no extension. -/
def stem (name : List Char) : List Char :=
  match name.reverse.dropWhile fun c => c != '.' with
  | [] => name
  | [_] => name
  | _ :: before => before.reverse

/-- The path of the source text that belongs to an input: the extension becomes `sol`.  Where the
name without its extension is a dot, that dot and the one before the extension stand for the parent
directory, which has no extension. -/
def defaultSource (input : String) : String :=
  let (directory, name) := splitPath input
  if stem name = ['.'] ∧ name ≠ ['.'] then String.ofList directory ++ ".."
  else String.ofList (directory ++ stem name) ++ ".sol"

/-- The last part of a path. -/
def fileName (path : String) : String := String.ofList (splitPath path).2

/-! ## Execution -/

/-- Why an invocation failed. -/
inductive Failure where
  | cannotRead (path reason : String)
  | cannotWrite (path reason : String)
  | invalidAst (path : String) (error : ReadError)
  | source (error : SourceError)
  | job (error : JobError)
deriving DecidableEq, Inhabited

/-- What went wrong, then every cause behind it. -/
def Failure.chain : Failure → List String
  | .cannotRead path reason => ["failed to read " ++ path, reason]
  | .cannotWrite path reason => ["failed to write " ++ path, reason]
  | .invalidAst path error => ["invalid AST in " ++ path, error.message]
  | .source error => [error.message]
  | .job error => error.chain

/-- The wording of a failure. -/
def Failure.message (f : Failure) : String := Text.joinWith ": " f.chain

/-- What an invocation asks the outside world to do. -/
inductive Effect where
  | print (text : String)
  | write (path text : String)
  /-- Say that the module is valid. -/
  | valid
deriving DecidableEq, Inhabited

/-- Whether colors are left out of printed modules: in files, and where output is no terminal. -/
def leavesOutColors (inv : Invocation) (isTerminal : Bool) : Bool :=
  inv.output.isSome || !isTerminal

/-- Runs the job of an invocation on texts that were read. -/
def compile (inv : Invocation) (isTerminal : Bool) (contracts : List Contract)
    (source : Source) : Except Failure Effect := do
  let args :=
    Text.words inv.options ++ if leavesOutColors inv isTerminal then ["--no-color"] else []
  let result ← (runJob source contracts ⟨inv.action, inv.target⟩ args).mapError .job
  match result.text, inv.output with
  | some text, some path => return .write path text
  | some text, none => return .print text
  | none, _ => return .valid

/-- Runs an invocation; `read` gives the text of a file or the reason why there is none. -/
def execute {μ : Type → Type} [Monad μ] (read : String → μ (Except String String))
    (isTerminal : Bool) (inv : Invocation) : μ (Except Failure Effect) := do
  match ← read inv.input with
  | .error reason => return .error (.cannotRead inv.input reason)
  | .ok json =>
    match readContracts json with
    | .error e => return .error (.invalidAst inv.input e)
    | .ok contracts =>
      let path := inv.source.getD (defaultSource inv.input)
      match ← read path with
      | .error reason => return .error (.cannotRead path reason)
      | .ok text =>
        match Source.ofText (fileName path) text with
        | .error e => return .error (.source e)
        | .ok source => return compile inv isTerminal contracts source

/-! ## Messages -/

/-- Whether a variable of the environment is set to a value that means yes. -/
def meansYes (value : Option String) : Option Bool := value.map fun v => v != "0"

/-- Whether messages are colored: always if the environment forces it, never if it forbids it, and
else where output is a terminal and the environment does not object. -/
def colorsMessages (force forbid allow : Option String) (isTerminal : Bool) : Bool :=
  if meansYes force = some true then true
  else if meansYes forbid = some true then false
  else (meansYes allow).getD true && isTerminal

/-- The line that says that a module is valid, green where colors are on. -/
def validLine (colors : Bool) : String :=
  (if colors then Text.paint "1;92" "VALID" else "VALID") ++ "\n"

/-- The line that reports a failure, red where colors are on. -/
def errorLine (colors : Bool) (f : Failure) : String :=
  if colors then Text.paint "1;91" "error:" ++ " " ++ Text.paint "31" f.message ++ "\n"
  else "error: " ++ f.message ++ "\n"

end ContractIR.CommandLine
