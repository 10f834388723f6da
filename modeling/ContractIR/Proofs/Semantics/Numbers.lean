import ContractIR.Ast.SemanticType
import ContractIR.Proofs.Semantics.Machine
import Mathlib.Algebra.Group.Nat.Defs

/-!
# Numbers and words

A word is read as a number of an integer type, and a number is written as a word.  Reading back what
was written gives the number of the type's range that has the same last digits; a number in the
range is read back as it was.

## Main definitions

* `ContractIR.Arithmetic.eval` — arithmetic on numbers.
* `ContractIR.IntegerType.wrap` — the number of a type's range with the same last digits.
* `ContractIR.IntegerType.read` — the number that a word is, read in a type.

## Main results

* `ContractIR.Word.apply_ofInt`, `ContractIR.Word.extend_ofInt` — words compute with numbers.
* `ContractIR.IntegerType.read_ofInt` — reading back a number wraps it.
* `ContractIR.IntegerType.wrap_of_holds` — numbers in the range of a type are not changed.
-/

set_option autoImplicit false

namespace ContractIR

/-- Arithmetic on numbers. -/
def Arithmetic.eval : Arithmetic → Int → Int → Int
  | .add, a, b => a + b
  | .mul, a, b => a * b

namespace IntegerType

/-- The number in the range of a type that has the same last binary digits. -/
def wrap (t : IntegerType) (n : Int) : Int :=
  if t.signed then n.bmod (2 ^ t.bits.toNat) else n % (2 ^ t.bits.toNat : Nat)

/-- The number that a word is, if it is read in a type. -/
def read (t : IntegerType) (w : Word) : Int :=
  if t.signed then w.bits.toInt else w.bits.toNat

/-- Reading back a number wraps it. -/
theorem read_ofInt (t : IntegerType) (n : Int) :
    t.read (.ofInt t.bits.toNat n) = t.wrap n := by
  have hpos : ((2 ^ t.bits.toNat : Nat) : Int) ≠ 0 :=
    Int.ofNat_ne_zero.2 (Nat.ne_of_gt (Nat.two_pow_pos _))
  unfold read wrap Word.ofInt
  split
  · exact BitVec.toInt_ofInt n
  · rw [BitVec.toNat_ofInt]
    exact Int.toNat_of_nonneg (Int.emod_nonneg _ hpos)

/-- Two numbers wrap to the same number exactly if they have the same last digits. -/
theorem wrap_eq_wrap_iff (t : IntegerType) (a b : Int) :
    t.wrap a = t.wrap b ↔ ((2 ^ t.bits.toNat : Nat) : Int) ∣ a - b := by
  unfold wrap
  split
  · rw [Int.bmod_eq_bmod_iff_bmod_sub_eq_zero, Int.dvd_iff_bmod_eq_zero]
  · rw [Int.emod_eq_emod_iff_emod_sub_eq_zero, Int.dvd_iff_emod_eq_zero]

/-- A number has the same last digits as what it wraps to. -/
theorem dvd_wrap_sub (t : IntegerType) (n : Int) :
    ((2 ^ t.bits.toNat : Nat) : Int) ∣ t.wrap n - n := by
  unfold wrap
  split
  · exact Int.dvd_bmod_sub_self
  · exact Int.dvd_sub_self_of_emod_eq rfl

/-- Wrapping twice is wrapping once. -/
@[simp] theorem wrap_wrap (t : IntegerType) (n : Int) : t.wrap (t.wrap n) = t.wrap n :=
  (t.wrap_eq_wrap_iff _ _).2 (t.dvd_wrap_sub n)

/-- Operands may be wrapped before arithmetic. -/
theorem wrap_eval (t : IntegerType) (op : Arithmetic) (a b : Int) :
    t.wrap (op.eval (t.wrap a) (t.wrap b)) = t.wrap (op.eval a b) := by
  unfold wrap
  split
  · cases op with
    | add => exact (Int.add_bmod a b _).symm
    | mul => exact (Int.mul_bmod a b _).symm
  · cases op with
    | add => exact (Int.add_emod a b _).symm
    | mul => exact (Int.mul_emod a b _).symm

/-- The range of a type. -/
theorem holds_iff (t : IntegerType) (n : Int) :
    t.holds n = true ↔ 0 < t.bits.toNat ∧
      if t.signed then
        -((2 ^ (t.bits.toNat - 1) : Nat) : Int) ≤ n ∧ n < ((2 ^ (t.bits.toNat - 1) : Nat) : Int)
      else 0 ≤ n ∧ n < ((2 ^ t.bits.toNat : Nat) : Int) := by
  unfold holds twoPow
  by_cases hzero : t.bits.toNat = 0
  · simp [hzero]
  · have hpos : 0 < t.bits.toNat := Nat.pos_of_ne_zero hzero
    cases t.signed <;> simp [hzero, hpos]

/-- Half of the numbers that a signed type has are not negative. -/
theorem two_pow_eq_half_add_half {w : Nat} (h : 0 < w) : 2 ^ w = 2 ^ (w - 1) + 2 ^ (w - 1) := by
  obtain ⟨v, rfl⟩ : ∃ v, w = v + 1 := ⟨w - 1, by omega⟩
  rw [Nat.add_sub_cancel, Nat.pow_succ]
  omega

/-- A number in the range of a type is not changed. -/
theorem wrap_of_holds {t : IntegerType} {n : Int} (h : t.holds n = true) : t.wrap n = n := by
  obtain ⟨hpos, hrange⟩ := (t.holds_iff n).1 h
  unfold wrap
  split at hrange
  · rename_i hsigned
    rw [if_pos hsigned]
    have hhalf := two_pow_eq_half_add_half hpos
    exact Int.bmod_eq_of_le (by omega) (by omega)
  · rename_i hsigned
    rw [if_neg hsigned]
    exact Int.emod_eq_of_lt hrange.1 hrange.2

/-- What a number wraps to is in the range of the type. -/
theorem holds_wrap {t : IntegerType} (hpos : 0 < t.bits.toNat) (n : Int) :
    t.holds (t.wrap n) = true := by
  refine (t.holds_iff _).2 ⟨hpos, ?_⟩
  have htwo : 0 < 2 ^ t.bits.toNat := Nat.two_pow_pos _
  unfold wrap
  split
  · have hhalf := two_pow_eq_half_add_half hpos
    have hle := Int.le_bmod (x := n) htwo
    have hlt := Int.bmod_lt (x := n) htwo
    exact ⟨by omega, by omega⟩
  · exact ⟨Int.emod_nonneg _ (by omega), Int.emod_lt_of_pos _ (by omega)⟩

/-- A wider type of the same sign holds more. -/
theorem holds_of_le {s t : IntegerType} (hsigned : s.signed = t.signed)
    (hbits : s.bits.toNat ≤ t.bits.toNat) {n : Int} (h : s.holds n = true) : t.holds n = true := by
  obtain ⟨hpos, hrange⟩ := (s.holds_iff n).1 h
  refine (t.holds_iff n).2 ⟨Nat.lt_of_lt_of_le hpos hbits, ?_⟩
  have hfull := Nat.pow_le_pow_right Nat.zero_lt_two hbits
  have hhalf : 2 ^ (s.bits.toNat - 1) ≤ 2 ^ (t.bits.toNat - 1) :=
    Nat.pow_le_pow_right Nat.zero_lt_two (by omega)
  rw [hsigned] at hrange
  split at hrange
  · rename_i hs
    rw [if_pos hs]
    omega
  · rename_i hs
    rw [if_neg hs]
    omega

/-- The word of a number in a type. -/
def word (t : IntegerType) (n : Int) : Word := .ofInt t.bits.toNat n

/-- Numbers have the same word exactly if they wrap to the same number. -/
theorem word_eq_word_iff (t : IntegerType) (a b : Int) :
    t.word a = t.word b ↔ t.wrap a = t.wrap b := by
  constructor
  · intro h
    rw [← read_ofInt, ← read_ofInt]
    exact congrArg t.read h
  · intro h
    have hdvd := (t.wrap_eq_wrap_iff a b).1 h
    -- The digits do not depend on the sign, and signed numbers are told apart by `toInt`.
    have hsigned : a.bmod (2 ^ t.bits.toNat) = b.bmod (2 ^ t.bits.toNat) :=
      (wrap_eq_wrap_iff ⟨t.bits, true⟩ a b).2 hdvd
    have hbits : BitVec.ofInt t.bits.toNat a = BitVec.ofInt t.bits.toNat b := by
      apply BitVec.eq_of_toInt_eq
      rw [BitVec.toInt_ofInt, BitVec.toInt_ofInt, hsigned]
    rw [word, word, Word.ofInt, Word.ofInt, hbits]

end IntegerType

/-! ## Computing with words -/

namespace Word

/-- Arithmetic on words is arithmetic on the numbers behind them. -/
theorem apply_ofInt (op : Arithmetic) (w : Nat) (a b : Int) :
    (ofInt w a).apply op (ofInt w b) = some (ofInt w (op.eval a b)) := by
  unfold apply ofInt
  rw [dif_pos rfl]
  cases op with
  | add => simp [Arithmetic.eval, BitVec.ofInt_add]
  | mul => simp [Arithmetic.eval, BitVec.ofInt_mul]

/-- An extension reads the digits that there are with the sign that it is asked for.

**Proof sketch.** By the sign that is asked for.  The digits are read back with that sign
(`IntegerType.read_ofInt`), and extending writes the number so read in the wider width. -/
theorem extend_ofInt (signed : Bool) {s : UInt16} {w : Nat} (h : s.toNat < w) (n : Int) :
    (ofInt s.toNat n).extend signed w = some (ofInt w (IntegerType.wrap ⟨s, signed⟩ n)) := by
  have hread := IntegerType.read_ofInt ⟨s, signed⟩ n
  have hlt : (ofInt s.toNat n).width < w := h
  unfold extend
  rw [if_pos hlt]
  congr 1
  cases signed with
  | true =>
    simp only [IntegerType.read, ↓reduceIte] at hread
    simp only [ofInt, ↓reduceIte, BitVec.signExtend]
    rw [← hread]
    rfl
  | false =>
    simp only [IntegerType.read, Bool.false_eq_true, ↓reduceIte] at hread
    simp only [ofInt, Bool.false_eq_true, ↓reduceIte]
    rw [← hread, BitVec.ofInt_natCast, BitVec.ofNat_toNat]
    rfl

end Word

end ContractIR
