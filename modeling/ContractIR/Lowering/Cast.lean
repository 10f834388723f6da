import ContractIR.Transform

/-!
# Conversions between types

An integer type keeps its width and loses its sign when it is lowered; a number literal is lowered
as the smallest integer type that holds it.  Values are only ever widened: with copies of the sign
bit if the target is signed, with zeros if it is not.

## Main definitions

* `ContractIR.lowerType` — the type of the intermediate representation for a source type.
* `ContractIR.isIdentityCast`, `ContractIR.cast` — the conversion of a value.
-/

set_option autoImplicit false

namespace ContractIR

/-- Whether integers of this width are compiled. -/
def isSupportedWidth (bits : UInt16) : Bool :=
  decide (0 < bits.toNat ∧ bits.toNat ≤ wordBits ∧ bits.toNat % 8 = 0)

/-- The lowered form of a type. -/
def lowerType (ty : SemanticType) (location : Location) : Except CompileError Ty :=
  match ty with
  | .integer t =>
    if isSupportedWidth t.bits then .ok (.int t.bits.toNat)
    else .error (.unsupported (.integerWidth ty) location)
  | .rational .. =>
    if ty.isFractional then .error (.unsupported (.fractional ty) location)
    else
      match ty.interpretation? with
      | some t => .ok (.int t.bits.toNat)
      | none => .error (.unsupported (.tooWide ty) location)
  | .bool | .address => .error (.unsupported (.type ty) location)

/-- Whether values of a type already are values of another one: the types are equal, or the first
is a whole number whose smallest integer type is the second. -/
def isIdentityCast (source target : SemanticType) : Bool :=
  if source = target then true
  else
    match target with
    | .integer t =>
      source.isRational && !source.isFractional && decide (source.interpretation? = some t)
    | _ => false

/-- Converts a value between types, at the builder's place and location. -/
def cast (v : ValueId) (source target : SemanticType) : Lower ValueId := do
  if isIdentityCast source target then return v
  else
    let location := (← get).location
    match source.interpretation?, target.interpretation? with
    | some s, some t =>
      if t.bits.toNat ≤ s.bits.toNat then
        Transform.unsupported (.narrowing source target) location
      else
        let ty ← Transform.ofExcept (lowerType target location)
        if t.signed then Build.extsi v ty else Build.extui v ty
    | _, _ => Transform.unsupported (.cast source target) location

end ContractIR
