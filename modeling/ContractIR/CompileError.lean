import ContractIR.Ast.Basic
import ContractIR.Module.Error
import ContractIR.Source
import ContractIR.Verifier.Error

/-!
# Errors of compilation

Why contracts cannot be lowered, or a module not be legalized.  Each cause is a constructor; its
wording is given by `ContractIR.CompileError.message`, and what stands behind it by `chain`.
-/

set_option autoImplicit false

namespace ContractIR

/-- Input outside of the subset that is compiled. -/
inductive Unsupported where
  | overloaded (function contract : String)
  | manyReturns (function : String) (count : Nat)
  | afterReturn (kind function : String)
  | returnsValue (function : String)
  | returnsNothing (function : String)
  | statement (kind function : String)
  | missingReturn (function : String)
  | literal (text : String) (ty : SemanticType)
  | notParameter (name : String)
  | operator (o : BinaryOperator)
  | cast (source target : SemanticType)
  | narrowing (source target : SemanticType)
  | integerWidth (ty : SemanticType)
  | fractional (ty : SemanticType)
  | tooWide (ty : SemanticType)
  | type (ty : SemanticType)
  | secondDeployable (container : String)
  | nestedContainer (container suffix : String)
  | sharedContext
  | reservedName (function : String)
  | nameClash (function : String)
deriving DecidableEq, Inhabited

/-- The wording of what is not supported. -/
def Unsupported.message : Unsupported → String
  | .overloaded function contract =>
    "overloaded function '" ++ function ++ "' in contract '" ++ contract ++ "'"
  | .manyReturns function count =>
    "function '" ++ function ++ "' returns " ++ toString count ++ " values"
  | .afterReturn kind function => kind ++ " after return in '" ++ function ++ "'"
  | .returnsValue function =>
    "returning a value from '" ++ function ++ "' which declares no return value"
  | .returnsNothing function => "return without a value in '" ++ function ++ "'"
  | .statement kind function => kind ++ " in '" ++ function ++ "'"
  | .missingReturn function =>
    "'" ++ function ++ "' can reach its end without returning a value"
  | .literal text ty => "literal '" ++ text ++ "' of type '" ++ ty.text ++ "'"
  | .notParameter name =>
    "reference to '" ++ name ++ "' which is not a parameter of this function"
  | .operator o => "binary operator '" ++ o.symbol ++ "'"
  | .cast source target => "cast from '" ++ source.text ++ "' to '" ++ target.text ++ "'"
  | .narrowing source target =>
    "narrowing cast from '" ++ source.text ++ "' to '" ++ target.text ++ "'"
  | .integerWidth ty => "integer width of '" ++ ty.text ++ "'"
  | .fractional ty => "fractional number type '" ++ ty.text ++ "'"
  | .tooWide ty => "number literal '" ++ ty.text ++ "' does not fit in 256 bits"
  | .type ty => "type '" ++ ty.text ++ "'"
  | .secondDeployable container => "a second deployable container '" ++ container ++ "'"
  | .nestedContainer container suffix =>
    "nested container '" ++ container ++ "' without the '" ++ suffix ++ "' suffix"
  | .sharedContext => "code for the same context defined by more than one container"
  | .reservedName function => "function name '" ++ function ++ "' is reserved by the EraVM ABI"
  | .nameClash function => "function '" ++ function ++ "' clashes with a module-level symbol"

/-- An assumption of the compiler itself that does not hold. -/
inductive Invariant where
  | containerBody (name : String)
  | objectBody
  | unnamed (op : OpId)
  | functionBody (name : String)
  | createdWithoutBody (name : String)
  | returnContext (location : Location)
  | returnOperands (location : Location)
  /-- The complaint of a pattern that was handed in. -/
  | complaint (text : String)
deriving DecidableEq, Inhabited

/-- The wording of a broken assumption. -/
def Invariant.message : Invariant → String
  | .containerBody name => "container @" ++ name ++ " has no body"
  | .objectBody => "runtime object has no body"
  | .unnamed op => op.text ++ " has no symbol name"
  | .functionBody name => "@" ++ name ++ " has no body"
  | .createdWithoutBody name => "@" ++ name ++ " was created without a body"
  | .returnContext location =>
    "sol.return at " ++ location.text ++ " is neither in deploy nor in runtime code"
  | .returnOperands location =>
    "sol.return at " ++ location.text ++ " does not have two operands"
  | .complaint text => text

/-- Why compilation failed. -/
inductive CompileError where
  | unsupported (what : Unsupported) (location : Location)
  | verification (error : VerifyError)
  | invariant (what : Invariant)
  | ir (error : IrError)
  | source (error : SourceError)
deriving DecidableEq, Inhabited

namespace CompileError

/-- The wording of an error. -/
def message : CompileError → String
  | .unsupported what location => "Unsupported: " ++ what.message ++ " at " ++ location.text
  | .verification error => "Module verification failed: " ++ error.message
  | .invariant what => "Internal invariant violated: " ++ what.message
  | .ir error => "IR error: " ++ error.message
  | .source error => "Invalid source position: " ++ error.message

/-- The wording of an error, then that of the error behind it. -/
def chain (e : CompileError) : List String :=
  match e with
  | .unsupported .. | .invariant _ => [e.message]
  | .verification error => [e.message, error.message]
  | .ir error => [e.message, error.message]
  | .source error => [e.message, error.message]

end CompileError

end ContractIR
