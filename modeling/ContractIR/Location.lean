/-!
# Locations

Every operation carries the place of the source text that it comes from.
-/

set_option autoImplicit false

namespace ContractIR

/-- A place in a source file; lines and columns count from one. -/
inductive Location where
  | unknown
  | known (file : String) (line column : Nat)
deriving DecidableEq, Inhabited

namespace Location

/-- Whether the place is known. -/
def isKnown : Location → Bool
  | .unknown => false
  | .known .. => true

/-- The printed form of a location. -/
def text : Location → String
  | .unknown => "loc(unknown)"
  | .known file line column =>
    "loc(\x22" ++ file ++ "\x22:" ++ toString line ++ ":" ++ toString column ++ ")"

end Location

end ContractIR
