import ContractIR.Module.Basic

/-!
# Verification errors

What is wrong with a module that the verifier rejects.  Each cause is a constructor; its wording is
given by `ContractIR.VerifyError.message` and nowhere else.
-/

set_option autoImplicit false

namespace ContractIR

/-- What is wrong with a single operation. -/
inductive OpFault where
  | operandCount (expected actual : Nat)
  | resultCount (expected actual : Nat)
  | regionCount (expected actual : Nat)
  | operandNotWord (ty : Ty)
  | constantType (value result : Ty)
  | constantValue
  | binaryTypes (lhs rhs result : Ty)
  | comparison (lhs rhs : Ty)
  | comparisonResult
  | noPredicate
  | notWidening (source target : Ty)
  | cellResult
  | cellLoad (elem cell : Ty)
  | cellStore (value cell : Ty)
  | noGlobalType
  | noSymbolName
  | initializer (value : Attr) (ty : Ty)
  | resultNotPointer
  | noGlobalName
  | noElemType
  | resultNotInteger
  | notIntToPtr
  | elementShape
  | elementResult
  | elementIndices
  | condition
  | operandNotPointer (index : Nat) (ty : Ty)
  | bodyBlocks
  | noFunctionType
  | noBody (name : String)
  | entryArguments (name : String)
  | notNestedIn (kind : OpKind)
  | returnTypes (signature : Signature)
  | noCallee
  | callTypes (signature : Signature) (callee : String)
  | successorCount (expected : Nat)
  | successorRegion (block : BlockId)
deriving DecidableEq, Inhabited

/-- The wording of a fault. -/
def OpFault.message : OpFault → String
  | .operandCount expected actual =>
    "expected " ++ toString expected ++ " operands, got " ++ toString actual
  | .resultCount expected actual =>
    "expected " ++ toString expected ++ " results, got " ++ toString actual
  | .regionCount expected actual =>
    "expected " ++ toString expected ++ " regions, got " ++ toString actual
  | .operandNotWord ty => "operands must be i256, got " ++ ty.text
  | .constantType value result =>
    "value type " ++ value.text ++ " does not match result type " ++ result.text
  | .constantValue => "requires an integer 'value' attribute"
  | .binaryTypes lhs rhs result =>
    "operand and result types differ: " ++ lhs.text ++ ", " ++ rhs.text ++ " -> " ++ result.text
  | .comparison lhs rhs => "cannot compare " ++ lhs.text ++ " with " ++ rhs.text
  | .comparisonResult => "result must be i1"
  | .noPredicate => "missing or unknown predicate"
  | .notWidening source target => "must widen, got " ++ source.text ++ " to " ++ target.text
  | .cellResult => "result must be a memref"
  | .cellLoad elem cell => "cannot load " ++ elem.text ++ " from " ++ cell.text
  | .cellStore value cell => "cannot store " ++ value.text ++ " into " ++ cell.text
  | .noGlobalType => "requires a 'global_type' attribute"
  | .noSymbolName => "requires a symbol name"
  | .initializer value ty =>
    "initializer " ++ value.text ++ " does not match global type " ++ ty.text
  | .resultNotPointer => "result must be a pointer"
  | .noGlobalName => "requires a 'global_name' attribute"
  | .noElemType => "requires an 'elem_type' attribute"
  | .resultNotInteger => "result must be an integer"
  | .notIntToPtr => "converts an integer to a pointer"
  | .elementShape => "expects a base pointer and one result"
  | .elementResult => "result must have the base pointer type"
  | .elementIndices => "indices must be integers"
  | .condition => "condition must be i1"
  | .operandNotPointer index ty =>
    "operand #" ++ toString index ++ " must be a pointer, got " ++ ty.text
  | .bodyBlocks => "body must contain exactly one block"
  | .noFunctionType => "requires a 'function_type' attribute"
  | .noBody name => "@" ++ name ++ " has no body"
  | .entryArguments name => "entry block arguments of @" ++ name ++ " do not match its signature"
  | .notNestedIn kind => "must be directly nested in '" ++ kind.name ++ "'"
  | .returnTypes signature => "returned values do not match result types " ++ signature.text
  | .noCallee => "requires a 'callee' attribute"
  | .callTypes signature callee =>
    "call does not match the signature " ++ signature.text ++ " of @" ++ callee
  | .successorCount expected => "expected " ++ toString expected ++ " successors"
  | .successorRegion block => "successor " ++ block.text ++ " is in another region"

/-- Why a module is rejected. -/
inductive VerifyError where
  | invalidOp (kind : OpKind) (location : Location) (fault : OpFault)
  | misplacedTerminator (kind : OpKind) (location : Location)
  | missingTerminator (kind : OpKind) (name : String) (block : BlockId)
  | dominance (kind : OpKind) (location : Location) (index : Nat)
  | duplicateSymbol (name : String)
  | undefinedSymbol (kind : OpKind) (location : Location) (name : String)
deriving DecidableEq, Inhabited

/-- An operation as errors name it. -/
def VerifyError.subject (kind : OpKind) (location : Location) : String :=
  "'" ++ kind.name ++ "' " ++ location.text

/-- The wording of an error. -/
def VerifyError.message : VerifyError → String
  | .invalidOp kind location fault => subject kind location ++ ": " ++ fault.message
  | .misplacedTerminator kind location =>
    subject kind location ++ ": terminator is not the last operation in its block"
  | .missingTerminator kind name block =>
    "block " ++ block.text ++ " in '" ++ kind.name ++ " @" ++ name ++
      "' does not end with a terminator"
  | .dominance kind location index =>
    subject kind location ++ ": operand #" ++ toString index ++ " does not dominate this use"
  | .duplicateSymbol name => "redefinition of symbol '@" ++ name ++ "'"
  | .undefinedSymbol kind location name =>
    subject kind location ++ ": reference to undefined symbol '@" ++ name ++ "'"

end ContractIR
