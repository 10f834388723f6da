import ContractIR.Proofs.Lowering.Literals

/-!
# The integer type of a fraction

A number literal has its exact value as its type, as a fraction that need not be reduced and whose
denominator may be zero or negative.  It is compiled as an integer only if it is a whole number.
Whether it is one, and which, is found by division, which zero does not admit: the denominator is
looked at first.  The integer type is the smallest one: no type of fewer bytes and the same sign
holds the number.

## Main definitions

* `ContractIR.SemanticType.interpretationChecked?` — the interpretation of a fraction, with division
  that fails by zero.
* `ContractIR.IntegerType.IsSmallest` — the smallest type that holds a number.

## Main results

* `ContractIR.SemanticType.wholeValue?_rational` — which fractions are whole numbers.
* `ContractIR.SemanticType.isSome_smallest?_iff` — which numbers have a smallest type.
* `ContractIR.SemanticType.interpretation_isSmallest` — the interpretation of a fraction.
-/

set_option autoImplicit false

namespace ContractIR

/-- The smallest type that holds a number: it is signed if the number is negative, it has one to 32
bytes, and no type of fewer bytes and the same sign holds the number. -/
structure IntegerType.IsSmallest (t : IntegerType) (v : Int) : Prop where
  signed_iff : t.signed = true ↔ v < 0
  dvd_bits : 8 ∣ t.bits.toNat
  le_bits : 8 ≤ t.bits.toNat
  bits_le : t.bits.toNat ≤ 256
  holds : (SemanticType.integer t).holds v = true
  not_holds : ∀ u : IntegerType, u.signed = t.signed → 8 ∣ u.bits.toNat →
    u.bits.toNat < t.bits.toNat → (SemanticType.integer u).holds v = false

namespace SemanticType

variable {n d v : Int}

/-! ## Division -/

/-- The quotient of two numbers, rounded towards zero; there is none by zero. -/
def quotient? (n d : Int) : Option Int := if d = 0 then none else some (Int.tdiv n d)

/-- What is left by a division, with the sign of the dividend; there is nothing by zero. -/
def remainder? (n d : Int) : Option Int := if d = 0 then none else some (Int.tmod n d)

/-- Whether a fraction is no whole number; fails if zero divides. -/
def fractionalChecked? (n d : Int) : Option Bool :=
  if d = 0 then some true else (remainder? n d).map fun r => decide (r ≠ 0)

/-- The value of a fraction which is a whole number; fails if zero divides. -/
def wholeValueChecked? (n d : Int) : Option (Option Int) := do
  if ← fractionalChecked? n d then return none
  return some (← quotient? n d)

/-- The integer type that a fraction is compiled as; fails if zero divides. -/
def interpretationChecked? (n d : Int) : Option (Option IntegerType) := do
  let v ← wholeValueChecked? n d
  return v.bind smallest?

/-- Zero never divides. -/
theorem interpretationChecked?_eq (n d : Int) :
    interpretationChecked? n d = some (interpretation? (.rational n d)) := by
  have hwhole : wholeValueChecked? n d = some (wholeValue? (.rational n d)) := by
    by_cases hd : d = 0
    · simp [wholeValueChecked?, fractionalChecked?, wholeValue?, isFractional, hd]
    · by_cases hr : Int.tmod n d = 0 <;>
        simp [wholeValueChecked?, fractionalChecked?, quotient?, remainder?, wholeValue?,
          isFractional, hd, hr]
  rw [interpretationChecked?, hwhole]
  rfl

/-- A fraction is a whole number if the denominator is not zero and divides the numerator. -/
theorem wholeValue?_rational (n d : Int) :
    wholeValue? (.rational n d) = if d ≠ 0 ∧ d ∣ n then some (n / d) else none := by
  by_cases hd : d = 0
  · simp [wholeValue?, isFractional, hd]
  · by_cases hdvd : d ∣ n
    · have hmod : Int.tmod n d = 0 := Int.dvd_iff_tmod_eq_zero.1 hdvd
      simp [wholeValue?, isFractional, hd, hdvd, hmod, Int.tdiv_eq_ediv_of_dvd hdvd]
    · have hmod : ¬Int.tmod n d = 0 := fun h => hdvd (Int.dvd_iff_tmod_eq_zero.2 h)
      simp [wholeValue?, isFractional, hd, hdvd, hmod]

/-! ## Smallest types -/

/-- The numbers that have a smallest type are those that some type of 256 digits holds.

**Proof sketch.** A number has a smallest type exactly if it needs at most 256 digits, signed if
it is negative; `digitsOf_le_iff` makes that a range, one for each sign. -/
theorem isSome_smallest?_iff :
    (smallest? v).isSome = true ↔ -(twoPow 255 : Int) ≤ v ∧ v ≤ twoPow 256 - 1 := by
  have hword : (smallest? v).isSome = true ↔ digitsOf v ≤ 256 := by
    unfold smallest?
    split
    · rename_i hlt
      exact iff_of_false Bool.false_ne_true (Nat.not_le.2 hlt)
    · rename_i hle
      exact iff_of_true rfl (Nat.not_lt.1 hle)
  have hbits : (256 : UInt16).toNat = 256 := rfl
  have hhalf : twoPow 255 = 2 ^ 255 := rfl
  have hfull : twoPow 256 = 2 ^ 256 := rfl
  have hdigits := digitsOf_le_iff (v := v) (t := ⟨256, decide (v < 0)⟩) (Nat.succ_pos 255) rfl
  rw [IntegerType.holds_iff, hbits] at hdigits
  rw [hword, hdigits, hhalf, hfull]
  by_cases hv : v < 0
  · simp only [hv, decide_true, ↓reduceIte]
    omega
  · simp only [hv, decide_false, Bool.false_eq_true, ↓reduceIte]
    omega

/-- What is called the smallest type of a number is the smallest type that holds it. -/
theorem isSmallest_of_smallest? {t : IntegerType} (h : smallest? v = some t) : t.IsSmallest v := by
  obtain ⟨hsigned, hpos, -⟩ := smallest?_eq_some h
  obtain ⟨-, hle, hbytes⟩ := isSupportedWidth_iff.1 (isSupportedWidth_of_smallest? h)
  have hdvd : 8 ∣ t.bits.toNat := Nat.dvd_of_mod_eq_zero hbytes
  refine ⟨by rw [hsigned, decide_eq_true_iff], hdvd, Nat.le_of_dvd hpos hdvd, hle,
    smallest?_holds h, fun u hu hudvd hlt => ?_⟩
  -- A narrower type that holds the number would be at least as wide as the smallest one.
  rw [← Bool.not_eq_true]
  intro hholds
  have hupos := ((u.holds_iff v).1 hholds).1
  have hwidth : isSupportedWidth u.bits = true :=
    isSupportedWidth_iff.2 ⟨hupos, by omega, Nat.mod_eq_zero_of_dvd hudvd⟩
  obtain ⟨s, hs, hsle⟩ := exists_smallest? hwidth (hu.trans hsigned) hholds
  obtain rfl := Option.some.inj (hs.symm.trans h)
  omega

/-! ## Interpretations -/

/-- The integer type that a fraction is compiled as is found without a division by zero.  There is
one exactly if the fraction is a whole number between `-2 ^ 255` and `2 ^ 256 - 1`, and then it is
the smallest type that holds this number.

**Proof sketch.** A fraction that is whole is interpreted as its quotient, any other has no type;
the range is `isSome_smallest?_iff`, and that the type is the smallest is
`isSmallest_of_smallest?`. -/
theorem interpretation_isSmallest (n d : Int) :
    interpretationChecked? n d = some (interpretation? (.rational n d)) ∧
      ((interpretation? (.rational n d)).isSome = true ↔
        d ≠ 0 ∧ d ∣ n ∧ -(twoPow 255 : Int) ≤ n / d ∧ n / d ≤ twoPow 256 - 1) ∧
      ∀ t, interpretation? (.rational n d) = some t → t.IsSmallest (n / d) := by
  have hint : interpretation? (.rational n d) =
      if d ≠ 0 ∧ d ∣ n then smallest? (n / d) else none := by
    rw [interpretation?, wholeValue?_rational]
    split <;> rfl
  refine ⟨interpretationChecked?_eq n d, ?_, fun t ht => ?_⟩
  · rw [hint]
    split
    · rename_i hwhole
      rw [isSome_smallest?_iff]
      exact ⟨fun h => ⟨hwhole.1, hwhole.2, h⟩, fun h => h.2.2⟩
    · rename_i hwhole
      exact iff_of_false Bool.false_ne_true fun h => hwhole ⟨h.1, h.2.1⟩
  · rw [hint] at ht
    split at ht
    · exact isSmallest_of_smallest? ht
    · cases ht

/-- A fraction with a negative denominator, whose value is the least that 16 bytes hold. -/
theorem interpretation_leastWord :
    interpretation? (.rational (twoPow 128) (-2)) = some ⟨128, true⟩ ∧
      IntegerType.IsSmallest ⟨128, true⟩ (twoPow 128 / -2) := by
  have h : interpretation? (.rational (twoPow 128) (-2)) = some ⟨128, true⟩ := by decide +kernel
  exact ⟨h, (interpretation_isSmallest (twoPow 128) (-2)).2.2 _ h⟩

end SemanticType

end ContractIR
