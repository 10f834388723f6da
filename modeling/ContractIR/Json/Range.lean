import ContractIR.Json.Lexeme

/-!
# The range of JSON numbers

A number is taken as a significand of at most 64 bits and a power of ten.  Digits go into the
significand from the left for as long as it stays below `2 ^ 64`; a digit of the whole part that no
longer fits counts as a power of ten, and one behind the point counts for nothing.  The two factors
are rounded to double precision before they are multiplied, so the range ends where the product of
the rounded factors leaves it: a number just inside the range of double precision may be outside.

## Main definitions

* `ContractIR.Json.nearestDouble` — the number of double precision that is nearest to a natural one.
* `ContractIR.Json.Numeral.factors` — the significand and the power of ten of a number.
* `ContractIR.Json.Numeral.isFinite` — whether a number is in range.

## Main results

* `ContractIR.Json.nearestDouble_of_lt` — numbers of at most 53 bits are not rounded.
-/

set_option autoImplicit false

namespace ContractIR.Json

open Text (digitValue digitsValue)

/-! ## Double precision -/

/-- The bits of a significand in double precision. -/
def doubleBits : Nat := 53

/-- The number of double precision nearest to a natural number, with an even significand if two are
equally near.  Numbers beyond the range are rounded as if exponents had no bound. -/
def nearestDouble (n : Nat) : Nat :=
  let unit := Nat.pow 2 (n.log2 + 1 - doubleBits)
  let kept := n / unit
  let lost := n % unit
  if unit < 2 * lost ∨ (unit = 2 * lost ∧ kept % 2 = 1) then (kept + 1) * unit else kept * unit

/-- A number of at most 53 bits is one of double precision. -/
theorem nearestDouble_of_lt (n : Nat) (h : n < Nat.pow 2 doubleBits) : nearestDouble n = n := by
  have hbits : n.log2 + 1 - doubleBits = 0 := by
    by_cases hn : n = 0
    · subst hn
      rfl
    · have := (Nat.log2_lt hn).2 h
      omega
  have hunit : Nat.pow 2 (n.log2 + 1 - doubleBits) = 1 := by rw [hbits]
  have hlost : n % 1 = 0 := Nat.mod_one n
  unfold nearestDouble
  rw [hunit]
  simp [hlost]

/-- The least number that double precision rounds to infinity. -/
def doubleLimit : Nat := Nat.pow 2 1024 - Nat.pow 2 970

/-- The largest power of ten in the range of double precision. -/
def maxPowerOfTen : Int := 308

/-! ## Numbers -/

/-- Appends digits to a significand for as long as it has at most 64 bits.  The answer also has the
digits that are left. -/
def absorb (significand : Nat) : List Char → Nat × List Char
  | [] => (significand, [])
  | c :: cs =>
    if 10 * significand + digitValue c < UInt64.size then
      absorb (10 * significand + digitValue c) cs
    else (significand, c :: cs)

namespace Numeral

/-- The exponent that a numeral writes. -/
def writtenExponent (n : Numeral) : Int :=
  match n.exponent with
  | none => 0
  | some (true, digits) => -(digitsValue digits : Int)
  | some (false, digits) => (digitsValue digits : Int)

/-- The significand of a numeral and the power of ten that it is multiplied with. -/
def factors (n : Numeral) : Nat × Int :=
  let fraction := n.fraction.getD []
  let (whole, tens) := absorb 0 n.whole
  let (significand, left) := absorb whole fraction
  (significand, n.writtenExponent + tens.length + left.length - fraction.length)

/-- Whether a numeral is in range.  Division by a power of ten never leaves the range. -/
def isFinite (n : Numeral) : Bool :=
  let (significand, power) := n.factors
  if significand = 0 ∨ power < 0 then true
  else if maxPowerOfTen < power then false
  else decide (nearestDouble significand * nearestDouble (Nat.pow 10 power.toNat) < doubleLimit)

end Numeral

end ContractIR.Json
