import ContractIR.Ty

/-!
# Types of the source language

The type checker gives every declaration and expression a type: an integer type with a sign and a
width, the exact value of a number literal, or one of the types that are not compiled.

## Main definitions

* `ContractIR.IntegerType` — width and sign, `ContractIR.IntegerType.holds` — its range.
* `ContractIR.SemanticType` — the types of the source language.
* `ContractIR.SemanticType.wholeValue?` — the value of a literal that is a whole number.
* `ContractIR.SemanticType.interpretation?` — the integer type that a type is compiled as.
-/

set_option autoImplicit false

namespace ContractIR

/-- Two to a power. -/
def twoPow (n : Nat) : Nat := Nat.pow 2 n

/-- The number of binary digits of a number; zero has none. -/
def bitLength (n : Nat) : Nat := if n = 0 then 0 else n.log2 + 1

/-! ## Integer types -/

/-- An integer type of the source language. -/
structure IntegerType where
  bits : UInt16
  signed : Bool
deriving DecidableEq, Inhabited

namespace IntegerType

/-- The name of an integer type. -/
def text (t : IntegerType) : String := (if t.signed then "int" else "uint") ++ toString t.bits.toNat

/-- Whether a number is in the range of an integer type; a type without bits has no numbers. -/
def holds (t : IntegerType) (v : Int) : Bool :=
  if t.bits.toNat = 0 then false
  else if t.signed then
    decide (-(twoPow (t.bits.toNat - 1) : Int) ≤ v ∧ v < (twoPow (t.bits.toNat - 1) : Int))
  else decide (0 ≤ v ∧ v < (twoPow t.bits.toNat : Int))

end IntegerType

/-! ## Semantic types -/

/-- A type of the source language. -/
inductive SemanticType where
  | integer (ty : IntegerType)
  /-- A number literal, by its exact value as a fraction, which need not be reduced. -/
  | rational (numerator denominator : Int)
  | bool
  | address
deriving DecidableEq, Inhabited

namespace SemanticType

/-- The name of a type. -/
def text : SemanticType → String
  | .integer ty => ty.text
  | .rational numerator denominator =>
    if denominator = 1 then "int_const " ++ toString numerator
    else "rational_const " ++ toString numerator ++ " / " ++ toString denominator
  | .bool => "bool"
  | .address => "address"

/-- Whether the type is that of a number literal. -/
def isRational : SemanticType → Bool
  | .rational .. => true
  | _ => false

/-- Whether the type is that of a number literal which is no whole number. -/
def isFractional : SemanticType → Bool
  | .rational numerator denominator =>
    decide (denominator = 0) || decide (Int.tmod numerator denominator ≠ 0)
  | _ => false

/-- The value of a number literal which is a whole number. -/
def wholeValue? (t : SemanticType) : Option Int :=
  match t with
  | .rational numerator denominator =>
    if t.isFractional then none else some (Int.tdiv numerator denominator)
  | _ => none

/-- The binary digits that a whole number takes: one more than those of `-v - 1` if `v` is
negative, for the sign. -/
def digitsOf (v : Int) : Nat :=
  if v < 0 then bitLength (2 * (-v - 1).toNat) else bitLength v.toNat

/-- The smallest integer type of a whole number of bytes, signed if the number is negative, that
holds a number of at most `wordBits` binary digits. -/
def smallest? (v : Int) : Option IntegerType :=
  if wordBits < digitsOf v then none
  else
    let bytes := (digitsOf v + 7) / 8
    some ⟨UInt16.ofNat (8 * (if bytes = 0 then 1 else bytes)), decide (v < 0)⟩

/-- The integer type that values of a type are compiled as. -/
def interpretation? (t : SemanticType) : Option IntegerType :=
  match t with
  | .integer ty => some ty
  | .rational .. => t.wholeValue?.bind smallest?
  | .bool | .address => none

/-- Whether a number is in the range of a type; only integer types have one. -/
def holds : SemanticType → Int → Bool
  | .integer ty, v => ty.holds v
  | _, _ => false

end SemanticType

end ContractIR
