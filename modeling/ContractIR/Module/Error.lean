import ContractIR.Module.Basic

/-!
# Errors of building and rewriting

Why an operation cannot be built, a rewrite not be made, or a conversion not be finished.  Each
cause is a constructor; its wording is given by `ContractIR.IrError.message` and nowhere else.
-/

set_option autoImplicit false

namespace ContractIR

/-- A value of the wrong type. -/
inductive TypeFault where
  | notSameInteger (kind : OpKind) (lhs rhs : Ty)
  | notWidening (kind : OpKind) (source target : Ty)
  | constant (ty : Ty)
  | cellLoad (ty : Ty)
  | cellStore (value cell : Ty)
  | load (ty : Ty)
  | store (ty : Ty)
  | ptrToInt (source target : Ty)
  | intToPtr (source target : Ty)
  | elementOf (ty : Ty)
  | condition (ty : Ty)
deriving DecidableEq, Inhabited

/-- The wording of a type fault. -/
def TypeFault.message : TypeFault → String
  | .notSameInteger kind lhs rhs =>
    kind.name ++ " expects two integers of the same width, got " ++ lhs.text ++ " and " ++ rhs.text
  | .notWidening kind source target =>
    kind.name ++ " must widen an integer, got " ++ source.text ++ " to " ++ target.text
  | .constant ty => "constant of non-integer type " ++ ty.text
  | .cellLoad ty => "memref.load from non-memref " ++ ty.text
  | .cellStore value cell => "memref.store of " ++ value.text ++ " into " ++ cell.text
  | .load ty => "llvm.load from non-pointer " ++ ty.text
  | .store ty => "llvm.store to non-pointer " ++ ty.text
  | .ptrToInt source target => "llvm.ptrtoint from " ++ source.text ++ " to " ++ target.text
  | .intToPtr source target => "llvm.inttoptr from " ++ source.text ++ " to " ++ target.text
  | .elementOf ty => "llvm.getelementptr on non-pointer " ++ ty.text
  | .condition ty => "llvm.cond_br condition must be i1, got " ++ ty.text

/-- An operation that cannot be what was asked for, or cannot be rewritten as asked. -/
inductive InstructionFault where
  | notContainer (kind : OpKind)
  | notBinary (kind : OpKind)
  | notExtension (kind : OpKind)
  | stillUsed (kind : OpKind) (value : ValueId) (user : OpKind)
  | resultCount (kind : OpKind) (results values : Nat)
  | detachedAnchor (anchor : OpId)
deriving DecidableEq, Inhabited

/-- The wording of an instruction fault. -/
def InstructionFault.message : InstructionFault → String
  | .notContainer kind => kind.name ++ " is not a container"
  | .notBinary kind => kind.name ++ " is not a binary op"
  | .notExtension kind => kind.name ++ " is not an extension"
  | .stillUsed kind value user =>
    "cannot erase " ++ kind.name ++ ": result " ++ value.text ++ " is still used by " ++ user.name
  | .resultCount kind results values =>
    kind.name ++ " has " ++ toString results ++ " results, replaced with " ++ toString values ++
      " values"
  | .detachedAnchor anchor => "anchor " ++ anchor.text ++ " is not attached"

/-- A builder that stands at no place, or is sent to one that does not exist. -/
inductive PlaceFault where
  | noInsertionPoint
  | unplaced (kind : OpKind)
  | detached (op : OpId)
  | notListed (op : OpId) (block : BlockId)
  | noRegion (kind : OpKind) (index : Nat)
deriving DecidableEq, Inhabited

/-- The wording of a place fault. -/
def PlaceFault.message : PlaceFault → String
  | .noInsertionPoint => "no insertion point set"
  | .unplaced kind => "cannot build " ++ kind.name ++ " without an insertion point"
  | .detached op => op.text ++ " is not attached to a block"
  | .notListed op block => op.text ++ " not found in " ++ block.text
  | .noRegion kind index => kind.name ++ " has no region #" ++ toString index

/-- Why building, rewriting or converting failed. -/
inductive IrError where
  | type (fault : TypeFault)
  | instruction (fault : InstructionFault)
  | place (fault : PlaceFault)
  /-- An operation was to be put into a block while it still stands in one. -/
  | alreadyPlaced (op : OpId)
  /-- The body has no block to work in. -/
  | noBody
  | conversionLimit (sweeps : Nat)
  | illegalOps (ops : List (OpKind × Location))
deriving DecidableEq, Inhabited

/-- The wording of an error. -/
def IrError.message : IrError → String
  | .type fault => "Type error: " ++ fault.message
  | .instruction fault => "Invalid instruction: " ++ fault.message
  | .place fault => "Builder error: " ++ fault.message
  | .alreadyPlaced op => op.text ++ " is already attached"
  | .noBody => "the module body has no block"
  | .conversionLimit sweeps =>
    "Conversion did not converge after " ++ toString sweeps ++ " iterations"
  | .illegalOps ops =>
    "Failed to legalize operations: " ++
      Text.commas (ops.map fun o => o.1.name ++ " at " ++ o.2.text)

end ContractIR
