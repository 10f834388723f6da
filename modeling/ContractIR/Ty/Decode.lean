import ContractIR.Json.Reader
import ContractIR.Ty

/-!
# Reading types from JSON

A type is an object with one member: its name says which type it is, its value holds the parts.
-/

set_option autoImplicit false

namespace ContractIR

/-- A type in a value that may be nested `depth` deep. -/
def Ty.ofJson : Nat → Json → Read Ty
  | 0, _ => throw .invalid
  | depth + 1, .object [(name, j)] => do
    match name with
    | "Int" => return .int (← Read.natBelow UInt16.size j)
    | "Ptr" => return .ptr (← Read.natBelow UInt32.size j)
    | "MemRef" => return .memref (← ofJson depth j)
    | "Array" =>
      match j with
      | .array [elem, length] =>
        return .array (← ofJson depth elem) (← Read.natBelow UInt64.size length)
      | _ => throw .invalid
    | "Function" =>
      let types : Json → Read (List Ty) := fun
        | .array items => items.mapM (ofJson depth)
        | _ => throw .invalid
      let f ← Fields.ofJson ["inputs", "results"] j
      return .func (← f.required "inputs" types) (← f.required "results" types)
    | other => throw (.unknownVariant other)
  | _ + 1, _ => throw .invalid

end ContractIR
