import ContractIR.Print.Page

/-!
# Printing options

Printing and verification are controlled by flags that arrive as a list of arguments.  Arguments
are read from left to right and the first one that is not a flag decides the error.

## Main definitions

* `ContractIR.Options` — which flags were given, `ContractIR.Options.style` — how to print.
* `ContractIR.OptionError` — why arguments are rejected.
* `ContractIR.Options.parse` — the flags in a list of arguments.
-/

set_option autoImplicit false

namespace ContractIR

/-- The flags that were given. -/
structure Options where
  printDebugInfo : Bool := false
  verifyEach : Bool := false
  noColor : Bool := false
  printOpGeneric : Bool := false
  printEntryBlockHeaders : Bool := false
  timing : Bool := false
deriving DecidableEq, Inhabited

namespace Options

/-- A flag, with the name that messages call it by. -/
structure Flag where
  name : String
  set : Options → Options

/-- The flag of an argument; two of them have a second name. -/
def flag? (arg : String) : Option Flag :=
  if arg = "--print-debuginfo" ∨ arg = "--mlir-print-debuginfo" then
    some ⟨"--print-debuginfo", fun o => { o with printDebugInfo := true }⟩
  else if arg = "--verify-each" ∨ arg = "--mlir-verify-each" then
    some ⟨"--verify-each", fun o => { o with verifyEach := true }⟩
  else if arg = "--no-color" then some ⟨arg, fun o => { o with noColor := true }⟩
  else if arg = "--mlir-print-op-generic" then
    some ⟨arg, fun o => { o with printOpGeneric := true }⟩
  else if arg = "--print-entry-block-headers" then
    some ⟨arg, fun o => { o with printEntryBlockHeaders := true }⟩
  else if arg = "--mlir-timing" then some ⟨arg, fun o => { o with timing := true }⟩
  else none

/-- How modules are printed under some options. -/
def style (o : Options) : Print.Style where
  colors := !o.noColor
  locations := o.printDebugInfo
  entryHeaders := o.printEntryBlockHeaders

end Options

/-- Why arguments are rejected. -/
inductive OptionError where
  | helpAsked
  | tooManyValues (flag : String)
  | unknownArgument (arg : String)
deriving DecidableEq, Inhabited

/-- The wording of an error. -/
def OptionError.message : OptionError → String
  | .helpAsked => "help is asked for"
  | .tooManyValues flag => "unexpected value for '" ++ flag ++ "'"
  | .unknownArgument arg => "unexpected argument '" ++ arg ++ "'"

/-! ## The shape of arguments -/

/-- What an argument looks like. -/
inductive ArgShape where
  /-- Two dashes alone: what follows is no option. -/
  | endOfOptions
  /-- Two dashes and a name, and a value if there is an equals sign. -/
  | long (name : String) (value : Option String)
  /-- One dash and at least one letter. -/
  | short (first : Char) (rest : List Char)
  | plain
deriving DecidableEq, Inhabited

/-- The shape of an argument. -/
def ArgShape.of (arg : String) : ArgShape :=
  match arg.toList with
  | ['-', '-'] => .endOfOptions
  | '-' :: '-' :: cs =>
    let name := String.ofList ('-' :: '-' :: cs.takeWhile fun c => c != '=')
    match cs.dropWhile fun c => c != '=' with
    | [] => .long name none
    | _ :: value => .long name (some (String.ofList value))
  | '-' :: c :: cs => .short c cs
  | _ => .plain

namespace Options

/-! ## Reading arguments -/

/-- Reads one argument. -/
def readArg (arg : String) (o : Options) : Except OptionError Options :=
  match ArgShape.of arg with
  | .endOfOptions => .ok o
  | .plain => .error (.unknownArgument arg)
  | .short first _ =>
    if first = 'h' then .error .helpAsked
    else .error (.unknownArgument (String.ofList ['-', first]))
  | .long name value =>
    if name = "--help" then
      if value.isSome then .error (.tooManyValues name) else .error .helpAsked
    else
      match flag? name with
      | none => .error (.unknownArgument name)
      | some flag => if value.isSome then .error (.tooManyValues flag.name) else .ok (flag.set o)

/-- Reads arguments one after the other; two dashes may only come last. -/
def readArgs : List String → Options → Except OptionError Options
  | [], o => .ok o
  | arg :: rest, o =>
    if arg = "--" then
      match rest with
      | [] => .ok o
      | stray :: _ => .error (.unknownArgument stray)
    else
      match readArg arg o with
      | .ok o => readArgs rest o
      | .error e => .error e

/-- The flags in a list of arguments. -/
def parse (args : List String) : Except OptionError Options := readArgs args {}

end Options

end ContractIR
