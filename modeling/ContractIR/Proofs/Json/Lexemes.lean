import ContractIR.Json.Range
import Mathlib.Data.List.TakeWhile
import Mathlib.Data.Nat.Digits.Lemmas

/-!
# What written strings and numbers mean

A text is written with escapes and a natural number with its digits; both mean what they were
written for.  The same digits, behind a sign if need be, are the text of an integer of any size.

## Main results

* `ContractIR.Json.unescape?_escaped` — the lexeme of a text means that text.
* `ContractIR.Json.numeral?_toString` — the lexeme of a natural number has no leading zero.
* `ContractIR.Json.isFinite_of_digits` — a number of 64 bits is in range.
* `ContractIR.Text.readInt?_toString` — the text of an integer is read as that integer.
-/

set_option autoImplicit false

namespace ContractIR

/-! ## Strings -/

namespace Json

open Text (backslash)

/-- A hexadecimal digit has the value that it was made for. -/
theorem hexValue?_hexDigit : ∀ n < 16, hexValue? (hexDigit n) = some n := by decide

/-- The unit of a control character, from its two written digits. -/
theorem hexUnit?_control {n : Nat} (h : n < 0x20) :
    hexUnit? '0' '0' (hexDigit (n / 16)) (hexDigit (n % 16)) = some n := by
  have zero : hexValue? '0' = some 0 := rfl
  simp only [hexUnit?, zero, hexValue?_hexDigit (n / 16) (by omega),
    hexValue?_hexDigit (n % 16) (by omega), Option.bind_eq_bind, Option.bind_some, Option.pure_def,
    Option.some.injEq]
  omega

/-- The escape of one letter for a control character stands for that character. -/
theorem shortEscape?_of_escapeLetter? {c letter : Char} (h : escapeLetter? c = some letter) :
    shortEscape? letter = some c ∧ letter ≠ 'u' := by
  unfold escapeLetter? at h
  split_ifs at h with h₁ h₂ h₃ h₄ h₅ <;> cases h <;> subst c <;> decide

/-- A character is written as an escape of one letter, as its code unit, or as itself. -/
theorem escapedChar_cases (c : Char) :
    (∃ letter, escapedChar c = [backslash, letter] ∧ shortEscape? letter = some c ∧
        letter ≠ 'u') ∨
      (c.toNat < 0x20 ∧ escapedChar c =
        [backslash, 'u', '0', '0', hexDigit (c.toNat / 16), hexDigit (c.toNat % 16)]) ∨
      (escapedChar c = [c] ∧ c ≠ '\x22' ∧ c ≠ backslash ∧ 0x20 ≤ c.toNat) := by
  unfold escapedChar
  by_cases hquote : c = '\x22' ∨ c = backslash
  · rw [if_pos hquote]
    exact .inl ⟨c, rfl, by rcases hquote with rfl | rfl <;> decide⟩
  · obtain ⟨hc, hc'⟩ := not_or.1 hquote
    rw [if_neg hquote]
    cases hletter : escapeLetter? c with
    | some letter => exact .inl ⟨letter, rfl, shortEscape?_of_escapeLetter? hletter⟩
    | none =>
      by_cases hcontrol : c.toNat < 0x20
      · exact .inr (.inl ⟨hcontrol, if_pos hcontrol⟩)
      · exact .inr (.inr ⟨if_neg hcontrol, hc, hc', by omega⟩)

/-- Reading a written character gives that character.

**Proof sketch.** By the three ways a character is written (`escapedChar_cases`): a short escape,
a control character by its code, which is no half of a surrogate pair, and the character itself. -/
theorem unescapeFrom_escapedChar (done rest : List Char) (c : Char) :
    unescapeFrom done none (escapedChar c ++ rest) = unescapeFrom (c :: done) none rest := by
  rcases escapedChar_cases c with ⟨letter, h, hshort, hu⟩ | ⟨hcontrol, h⟩ | ⟨h, -, hc, -⟩
  · rw [h, List.cons_append, List.cons_append, List.nil_append, backslash, unescapeFrom]
    · rintro _ _ _ _ _ rfl
      exact absurd rfl hu
    · exact hshort
  · have hhigh : isHighSurrogate c.toNat = false := by
      simp only [isHighSurrogate, decide_eq_false_iff_not]
      omega
    have hlow : isLowSurrogate c.toNat = false := by
      simp only [isLowSurrogate, decide_eq_false_iff_not]
      omega
    rw [h, unescapeFrom.eq_def]
    simp only [List.cons_append, List.nil_append, backslash, hexUnit?_control hcontrol, hhigh, hlow,
      Bool.false_eq_true, if_false, Char.ofNat_toNat]
  · rw [h, List.cons_append, List.nil_append, unescapeFrom]
    · rfl
    · rintro _ _ _ _ _ rfl
      exact absurd rfl hc
    · rintro _ _ rfl
      exact absurd rfl hc

/-- Reading written characters gives those characters. -/
theorem unescapeFrom_flatMap (cs done : List Char) :
    unescapeFrom done none (cs.flatMap escapedChar) = some (done.reverse ++ cs) := by
  induction cs generalizing done with
  | nil => simp [unescapeFrom]
  | cons c cs ih => rw [List.flatMap_cons, unescapeFrom_escapedChar, ih]; simp

/-- The lexeme of a text means that text. -/
@[simp] theorem unescape?_escaped (s : String) : unescape? (escaped s) = some s := by
  simp [unescape?, escaped, unescapeFrom_flatMap]

/-! ## Numbers -/

/-- The digits of a positive number do not start with a zero. -/
theorem head?_toDigits_ne {n : Nat} (h : 0 < n) : (Nat.toDigits 10 n).head? ≠ some '0' := by
  induction n using Nat.strongRecOn with
  | ind n ih =>
    rw [Nat.toDigits_eq_if (by omega)]
    split_ifs with hlt
    · have : ∀ d < 10, 0 < d → Nat.digitChar d ≠ '0' := by decide
      simpa using this n hlt h
    · have hpos : 0 < n / 10 := by omega
      have hhead := ih (n / 10) (by omega) hpos
      rwa [List.head?_append_of_ne_nil _ Nat.toDigits_ne_nil]

/-- Every digit of a number is one. -/
theorem all_isDigit_toDigits (n : Nat) : (Nat.toDigits 10 n).all Char.isDigit = true :=
  List.all_eq_true.2 fun _ h => Nat.isDigit_of_mem_toDigits (by omega) (by omega) h

/-- What is no digit does not stand among the digits of a number. -/
theorem notMem_toDigits {c : Char} (h : c.isDigit = false) (n : Nat) : c ∉ Nat.toDigits 10 n :=
  fun hc => by simp [List.all_eq_true.1 (all_isDigit_toDigits n) c hc] at h

/-- The digits of a number write that number. -/
@[simp] theorem digitsValue_toDigits (n : Nat) : Text.digitsValue (Nat.toDigits 10 n) = n :=
  Nat.ofDigitChars_toDigits (by omega) (by omega)

/-- The lexeme of a natural number is its digits. -/
theorem toList_toString (n : Nat) : (toString n).toList = Nat.toDigits 10 n := Nat.toList_repr

/-- A natural number is written without leading zeros, sign, point and exponent.

**Proof sketch.** The text is the list of decimal digits, all of which the integer part takes; it
is not empty and starts with a zero only for `0`, so neither a fraction nor an exponent is looked
for. -/
theorem numeral?_toString (n : Nat) :
    numeral? (toString n) = some ⟨false, Nat.toDigits 10 n, none, none⟩ := by
  have hdigits : ∀ c ∈ Nat.toDigits 10 n, c.isDigit = true := List.all_eq_true.1
    (all_isDigit_toDigits n)
  have htake : (Nat.toDigits 10 n).takeWhile Char.isDigit = Nat.toDigits 10 n :=
    List.takeWhile_eq_self_iff.2 hdigits
  have hdrop : (Nat.toDigits 10 n).dropWhile Char.isDigit = [] :=
    List.dropWhile_eq_nil_iff.2 hdigits
  have hzero : ¬(1 < (Nat.toDigits 10 n).length ∧ (Nat.toDigits 10 n).head? = some '0') := by
    rintro ⟨hlength, hhead⟩
    rcases Nat.eq_zero_or_pos n with rfl | hpos
    · revert hlength
      decide
    · exact head?_toDigits_ne hpos hhead
  have hunsigned : unsigned? false (Nat.toDigits 10 n) =
      some ⟨false, Nat.toDigits 10 n, none, none⟩ := by
    rw [unsigned?, htake, hdrop, if_neg (not_or.2 ⟨Nat.toDigits_ne_nil, hzero⟩)]
    rfl
  rw [numeral?, toList_toString]
  split
  · rename_i cs hcs
    exact absurd (hcs ▸ List.mem_cons_self) (notMem_toDigits (c := '-') rfl n)
  · exact hunsigned

/-- Digits make a number larger. -/
theorem le_foldl_digits (cs : List Char) (n : Nat) :
    n ≤ cs.foldl (fun n c => 10 * n + Text.digitValue c) n := by
  induction cs generalizing n with
  | nil => exact Nat.le_refl n
  | cons c cs ih =>
    have := ih (10 * n + Text.digitValue c)
    rw [List.foldl_cons]
    omega

/-- A significand takes up all digits of a number of 64 bits. -/
theorem absorb_eq (cs : List Char) (n : Nat)
    (h : cs.foldl (fun n c => 10 * n + Text.digitValue c) n < UInt64.size) :
    absorb n cs = (cs.foldl (fun n c => 10 * n + Text.digitValue c) n, []) := by
  induction cs generalizing n with
  | nil => rfl
  | cons c cs ih =>
    rw [List.foldl_cons] at h ⊢
    have hfits := Nat.lt_of_le_of_lt (le_foldl_digits cs (10 * n + Text.digitValue c)) h
    rw [absorb, if_pos hfits, ih _ h]

/-- Rounding at most doubles a number. -/
theorem nearestDouble_le {n : Nat} (h : n ≠ 0) : nearestDouble n ≤ 2 * n := by
  have hunit : Nat.pow 2 (n.log2 + 1 - doubleBits) ≤ n :=
    calc
      2 ^ (n.log2 + 1 - doubleBits) ≤ 2 ^ n.log2 :=
        Nat.pow_le_pow_right (by omega) (by rw [doubleBits]; omega)
      _ ≤ n := Nat.log2_self_le h
  have hkept := Nat.div_mul_le_self n (Nat.pow 2 (n.log2 + 1 - doubleBits))
  simp only [nearestDouble]
  split_ifs
  · rw [Nat.add_mul, Nat.one_mul]
    omega
  · omega

/-- Twice a number of 64 bits is far inside the range of double precision. -/
theorem twice_lt_doubleLimit : 2 * UInt64.size < doubleLimit := by decide +kernel

/-- A number of 64 bits, written without point and exponent, is in range. -/
theorem isFinite_of_digits {negative : Bool} {whole : List Char}
    (h : Text.digitsValue whole < UInt64.size) :
    Numeral.isFinite ⟨negative, whole, none, none⟩ = true := by
  have hfactors : Numeral.factors ⟨negative, whole, none, none⟩ = (Text.digitsValue whole, 0) := by
    simp [Numeral.factors, Numeral.writtenExponent, absorb_eq whole 0 h, absorb, Text.digitsValue]
  by_cases hzero : Text.digitsValue whole = 0
  · simp [Numeral.isFinite, hfactors, hzero]
  · have hlimit : nearestDouble (Text.digitsValue whole) * nearestDouble (Nat.pow 10 0) <
        doubleLimit := by
      have hone : nearestDouble (Nat.pow 10 0) = 1 := nearestDouble_of_lt 1 (by decide)
      have hround := nearestDouble_le hzero
      have := twice_lt_doubleLimit
      rw [hone, Nat.mul_one]
      omega
    have hpower : ¬maxPowerOfTen < 0 := by decide
    simp only [Numeral.isFinite, hfactors, hzero, Int.lt_irrefl, or_self, if_false, hpower,
      Int.toNat_zero, hlimit, decide_true]

end Json

/-! ## Integers as texts -/

namespace Text

/-- A digit is no white space. -/
theorem isBlank_of_isDigit {c : Char} (h : c.isDigit = true) : isBlank c = false := by
  have hrange : 48 ≤ c.toNat ∧ c.toNat ≤ 57 := by
    simpa [Char.isDigit, UInt32.le_iff_toNat_le] using h
  simp only [isBlank, Bool.or_eq_false_iff, Bool.and_eq_false_iff, decide_eq_false_iff_not,
    beq_eq_false_iff_ne]
  omega

/-- A text without white space has none at its ends. -/
theorem trim_eq_self {cs : List Char} (h : ∀ c ∈ cs, isBlank c = false) : trim cs = cs := by
  have hdrop : ∀ cs : List Char, (∀ c ∈ cs, isBlank c = false) → cs.dropWhile isBlank = cs := by
    rintro (_ | ⟨c, cs⟩) h
    · rfl
    · rw [List.dropWhile_cons_of_neg (by simp [h c List.mem_cons_self])]
  rw [trim, hdrop cs h, hdrop cs.reverse (by simpa using h), List.reverse_reverse]

/-- The digits of a number are read as that number. -/
theorem readNat?_toDigits (n : Nat) : readNat? (Nat.toDigits 10 n) = some n := by
  have hall := Json.all_isDigit_toDigits n
  have hvalue := Json.digitsValue_toDigits n
  have hfilter : (Nat.toDigits 10 n).filter Char.isDigit = Nat.toDigits 10 n :=
    List.filter_eq_self.2 (List.all_eq_true.1 hall)
  cases hdigits : Nat.toDigits 10 n with
  | nil => exact absurd hdigits Nat.toDigits_ne_nil
  | cons c rest =>
    rw [hdigits, List.all_cons, Bool.and_eq_true] at hall
    have hrest : (rest.all fun d => d.isDigit || d == '_') = true :=
      List.all_eq_true.2 fun d hd => by simp [List.all_eq_true.1 hall.2 d hd]
    rw [readNat?, hall.1, hrest, Bool.and_self, if_pos rfl, ← hdigits, hfilter, hvalue]

/-- The text of an integer is read as that integer.

**Proof sketch.** By the sign.  The digits hold no blank and no sign, so trimming changes nothing
and only the sign that was written is seen; the digits are read by `readNat?_toDigits`. -/
theorem readInt?_toString (n : Int) : readInt? (toString n) = some n := by
  have hblank : ∀ m : Nat, ∀ c ∈ Nat.toDigits 10 m, isBlank c = false := fun m c h =>
    isBlank_of_isDigit (List.all_eq_true.1 (Json.all_isDigit_toDigits m) c h)
  cases n with
  | ofNat m =>
    have htext : (toString (Int.ofNat m)).toList = Nat.toDigits 10 m := Nat.toList_repr
    rw [readInt?, htext, trim_eq_self (hblank m)]
    split
    · rename_i cs hcs
      exact absurd (hcs ▸ List.mem_cons_self) (Json.notMem_toDigits (c := '-') rfl m)
    · rename_i cs hcs
      exact absurd (hcs ▸ List.mem_cons_self) (Json.notMem_toDigits (c := '+') rfl m)
    · rw [readNat?_toDigits]
      rfl
  | negSucc m =>
    have htext : (toString (Int.negSucc m)).toList = '-' :: Nat.toDigits 10 (m + 1) := by
      change ("-" ++ (m + 1).repr).toList = _
      rw [String.toList_append, Nat.toList_repr]
      rfl
    have hminus : ∀ c ∈ '-' :: Nat.toDigits 10 (m + 1), isBlank c = false :=
      List.forall_mem_cons.2 ⟨by decide, hblank (m + 1)⟩
    rw [readInt?, htext, trim_eq_self hminus]
    simp only [readNat?_toDigits]
    rfl

end Text

end ContractIR
