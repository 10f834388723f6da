import ContractIR.Proofs.Lowering.Calls

/-!
# Constant expressions

In a constant expression every node has its exact value as its type.  The nodes are compiled in the
smallest types of their values, and every conversion extends with the sign of the type that it
converts to.  An unsigned smallest type can have its highest digit set; extended to a signed type,
such a value becomes negative.  In the same way negative operands become positive ones.  So a
function that returns a constant expression does not always return its value.

A conversion *keeps* a number if the digits that there are give it back when they are read with the
sign of the new type.  A constant is compiled exactly if all conversions keep their numbers, and
where no literal is negative, only then.

## Main definitions

* `ContractIR.IsConstant` — constant expressions and their values.
* `ContractIR.Expression.Kept` — every conversion in an expression keeps its number.

## Main results

* `ContractIR.constantFunction_returns` — what a function returns that returns a constant, and when
  this is the value of the constant.
-/

set_option autoImplicit false

namespace ContractIR

/-! ## Whole numbers and their smallest types -/

namespace SemanticType

/-- The value of a type with denominator one. -/
@[simp] theorem wholeValue?_rational_one (v : Int) : wholeValue? (.rational v 1) = some v := by
  simp [wholeValue?, isFractional]

/-- The smallest type of a whole number is signed if the number is negative, and its width is at
most that of a word. -/
theorem smallest?_eq_some {v : Int} {t : IntegerType} (h : smallest? v = some t) :
    t.signed = decide (v < 0) ∧ 0 < t.bits.toNat ∧ digitsOf v ≤ t.bits.toNat := by
  unfold smallest? at h
  split at h
  · cases h
  · rename_i hle
    obtain rfl := Option.some.inj h
    simp only [wordBits, Nat.not_lt] at hle
    refine ⟨rfl, ?_⟩
    simp only [UInt16.toNat_ofNat']
    split <;> omega

/-- A number has at most as many digits as `bitLength` says. -/
theorem lt_two_pow_bitLength (n : Nat) : n < 2 ^ bitLength n := by
  unfold bitLength
  split
  · rename_i hzero
    simp [hzero]
  · exact Nat.lt_log2_self

/-- The smallest type of a number that is not negative holds it. -/
theorem holds_of_smallest? {v : Int} {t : IntegerType} (h : smallest? v = some t) (hv : 0 ≤ v) :
    t.signed = false ∧ t.holds v = true := by
  obtain ⟨hsigned, hpos, hdigits⟩ := smallest?_eq_some h
  have hnot : t.signed = false := by simpa [hsigned] using hv
  refine ⟨hnot, (t.holds_iff v).2 ⟨hpos, ?_⟩⟩
  have hlen : digitsOf v = bitLength v.toNat := if_neg (by omega)
  have hlt := lt_two_pow_bitLength v.toNat
  have hle := Nat.pow_le_pow_right Nat.zero_lt_two (hlen ▸ hdigits)
  simp only [hnot, Bool.false_eq_true, ↓reduceIte]
  omega

end SemanticType

/-! ## Constant expressions -/

/-- Expressions of literals, sums and products whose nodes have their exact values as types. -/
inductive IsConstant : Expression → Int → Prop
  | literal (text : String) (v : Int) (src : SourceRange) :
    IsConstant (.literal text (.rational v 1) src) v
  | binary {operator : BinaryOperator} {op : Arithmetic} {left right : Expression} {a b : Int}
    (src : SourceRange) (hop : operator.arithmetic? = some op) (hleft : IsConstant left a)
    (hright : IsConstant right b) :
    IsConstant (.binary operator left right (.rational (op.eval a b) 1) src) (op.eval a b)

namespace Expression

/-- No literal of an expression is negative. -/
def Nonnegative : Expression → Prop
  | .literal _ ty _ => ∀ v, ty.wholeValue? = some v → 0 ≤ v
  | .identifier .. => True
  | .binary _ left right _ _ => left.Nonnegative ∧ right.Nonnegative

/-- Every conversion keeps its number, in an expression whose nodes have their values as types. -/
def Kept : Expression → SemanticType → Prop
  | .literal _ ty _, expected =>
    ∀ v, ty.wholeValue? = some v → (literalTarget ty expected).reread expected v = v
  | .identifier .., _ => True
  | .binary _ left right ty _, expected =>
    left.Kept ty ∧ right.Kept ty ∧ ∀ v, ty.wholeValue? = some v → ty.reread expected v = v

end Expression

namespace IsConstant

variable {e : Expression} {v : Int} {env : Environment}

/-- A constant without negative literals is not negative. -/
theorem nonneg (h : IsConstant e v) (hneg : e.Nonnegative) : 0 ≤ v := by
  induction h with
  | literal text v src => exact hneg v (by simp)
  | @binary _ op _ _ _ _ _ _ _ _ ihl ihr =>
    have ha := ihl hneg.1
    have hb := ihr hneg.2
    cases op with
    | add => exact Int.add_nonneg ha hb
    | mul => exact Int.mul_nonneg ha hb

/-- Where every conversion keeps its number, the code computes the value. -/
theorem meaning_of_kept (h : IsConstant e v) {expected : SemanticType} (hkept : e.Kept expected) :
    e.meaning env expected = some v := by
  induction h generalizing expected with
  | literal text v src =>
    have hv := hkept v (by simp)
    simp [Expression.meaning, hv]
  | binary src hop _ _ ihl ihr =>
    obtain ⟨hleft, hright, hroot⟩ := hkept
    have hv := hroot _ (SemanticType.wholeValue?_rational_one _)
    simp [Expression.meaning, hop, ihl hleft, ihr hright, hv]

end IsConstant

/-- Between numbers that are not negative, conversions extend with zeros and keep the number. -/
theorem SemanticType.reread_rational {a b : Int} (ha : 0 ≤ a) (hb : 0 ≤ b) :
    reread (.rational a 1) (.rational b 1) a = a := by
  unfold reread
  split
  · rfl
  · split
    · rename_i s t hs ht
      simp only [interpretation?, wholeValue?_rational_one, Option.bind_some] at hs ht
      obtain ⟨hsigned, hholds⟩ := holds_of_smallest? hs ha
      rw [(holds_of_smallest? ht hb).1, ← hsigned]
      exact IntegerType.wrap_of_holds hholds
    · rfl

/-- Inside a constant without negative literals, every conversion keeps its number. -/
theorem IsConstant.kept_rational {e : Expression} {v : Int} (h : IsConstant e v)
    (hneg : e.Nonnegative) {b : Int} (hb : 0 ≤ b) : e.Kept (.rational b 1) := by
  induction h generalizing b with
  | literal text v src =>
    intro k hk
    obtain rfl : v = k := by simpa using hk
    exact SemanticType.reread_rational (hneg v (by simp)) hb
  | binary src hop hleft hright ihl ihr =>
    have hv := (IsConstant.binary src hop hleft hright).nonneg hneg
    refine ⟨ihl hneg.1 hv, ihr hneg.2 hv, fun k hk => ?_⟩
    obtain rfl := by simpa using hk
    exact SemanticType.reread_rational hv hb

/-- A literal in the range of the type that is expected is kept. -/
theorem Expression.kept_literal {text : String} {v : Int} {src : SourceRange} {t : IntegerType}
    (hholds : t.holds v = true) :
    (Expression.literal text (.rational v 1) src).Kept (.integer t) := by
  intro k hk
  obtain rfl : v = k := by simpa using hk
  simp [literalTarget, hholds, SemanticType.reread, isIdentityCast]

/-- What a conversion makes of a constant is in the range of the type that it is converted to. -/
theorem SemanticType.wrap_reread {location : Location} {next : Nat} {x y : ValueId} {a : Int}
    {t : IntegerType} {code : List CodeLine}
    (h : convertCode location next x (.rational a 1) (.integer t) = .ok (code, y))
    (ha : t.holds a = true) :
    t.wrap (reread (.rational a 1) (.integer t) a) = reread (.rational a 1) (.integer t) a := by
  rcases convertCode_eq_ok h with ⟨hid, -, -⟩ | ⟨s, _, _, hid, hs, ht, hwidth, _, -, -⟩
  · rw [reread, if_pos hid, IntegerType.wrap_of_holds ha]
  · obtain rfl := Option.some.inj ht
    have hreread : reread (.rational a 1) (.integer t) a =
        IntegerType.wrap ⟨s.bits, t.signed⟩ a := by
      simp only [reread, hid, hs, ht, Bool.false_eq_true, ↓reduceIte]
    have hsmall : smallest? a = some s := by simpa [interpretation?] using hs
    have hpos : 0 < (IntegerType.mk s.bits t.signed).bits.toNat := (smallest?_eq_some hsmall).2.1
    have hrange : t.holds (IntegerType.wrap ⟨s.bits, t.signed⟩ a) = true :=
      IntegerType.holds_of_le (s := ⟨s.bits, t.signed⟩) (t := t) rfl (Nat.le_of_lt hwidth)
        (IntegerType.holds_wrap hpos a)
    rw [hreread]
    exact IntegerType.wrap_of_holds hrange

/-- Where no literal is negative, a constant is only computed exactly if every conversion keeps its
number. -/
theorem IsConstant.kept_of_wrap {source : Source} {cells : Cells} {next : Nat} {e : Expression}
    {v n : Int} {t : IntegerType} {code : List CodeLine} {w : ValueId} {env : Environment}
    (h : IsConstant e v) (hneg : e.Nonnegative) (hholds : t.holds v = true)
    (hcode : e.code source cells next (.integer t) = .ok (code, w))
    (hn : e.meaning env (.integer t) = some n) (hexact : t.wrap n = v) : e.Kept (.integer t) := by
  cases h with
  | literal text v src => exact Expression.kept_literal hholds
  | @binary operator op left right a b src hop hleft hright =>
    have hv := (IsConstant.binary src hop hleft hright).nonneg hneg
    have hl := hleft.kept_rational hneg.1 hv
    have hr := hright.kept_rational hneg.2 hv
    refine ⟨hl, hr, fun k hk => ?_⟩
    obtain rfl := by simpa using hk
    obtain ⟨_, _, _, _, _, _, _, _, _, _, _, _, _, hconvert, _⟩ :=
      Expression.code_binary_eq_ok hcode
    have hroot : SemanticType.reread (.rational (op.eval a b) 1) (.integer t)
        (op.eval a b) = n := by
      simpa [Expression.meaning, hop, hleft.meaning_of_kept hl, hright.meaning_of_kept hr] using hn
    rw [← SemanticType.wrap_reread hconvert hholds, hroot, hexact]

/-! ## Functions that return constants -/

/-- **What a function returns that returns a constant.**  The call answers one word.  It is read as
the value of the constant exactly if the number that the code computes has its digits; this is so if
every conversion keeps its number, and if no literal is negative, only then.

**Proof sketch.** The call answers the word of the meaning of the constant
(`FunctionSite.In.call_eq`), and reading a word back wraps the number
(`IntegerType.read_ofInt`).  The last part is `IsConstant.kept_of_wrap`. -/
theorem constantFunction_returns {source : Source} {contracts : List Contract} {m : Module}
    (h : lowerContracts source contracts = .ok m) {c : Contract} (hc : c ∈ contracts)
    {f : Function} (hf : f ∈ c.functions) {t : IntegerType} {e : Expression} {src : SourceRange}
    {v : Int} (hparams : f.parameters = []) (hreturns : f.returns.map Parameter.ty = [.integer t])
    (hbody : f.body = [.ret (some e) src]) (he : IsConstant e v) (hholds : t.holds v = true) :
    ∃ id n w, m.functionIn? c.name f.name = some id ∧
      e.meaning (fun _ => none) (.integer t) = some n ∧ Level.high.call m id [] = some [w] ∧
      (t.read w = v ↔ ((2 ^ t.bits.toNat : Nat) : Int) ∣ n - v) ∧
      (e.Kept (.integer t) → t.read w = v) ∧
      (e.Nonnegative → t.read w = v → e.Kept (.integer t)) := by
  obtain ⟨_, hlayout, site, hsite, s, hs, hof, hfound⟩ := exists_site h hc hf
  have hin := ((hlayout.sites site hsite).functions s hs).1
  have hwords : List.Forall₂ (fun q w => Encodes q.1 q.2 w) (f.parameters.zip []) [] := by
    rw [hparams]
    exact .nil
  have henv : f.environment [] = fun _ => none := by
    rw [Function.environment, hparams]
    rfl
  obtain ⟨_, inputs, _, _, _, _, _, _, _, hcode⟩ := Function.code_eq_ok hof
  rcases hin.call_eq hof (by rw [hparams]; rfl) hwords with ⟨hnone, _⟩ |
    ⟨p, e', src', w, n, hret, hbody', hw, hmeaning, hcall⟩
  · rw [hnone] at hreturns
    cases hreturns
  · have hp : p.ty = .integer t := by simpa [hret] using hreturns
    obtain ⟨rfl, rfl⟩ : e = e' ∧ src = src' := by simpa [hbody'] using hbody.symm
    rw [hp] at hmeaning hw
    rw [henv] at hmeaning
    obtain rfl := hw.width_eq
    have hread : t.read (.ofInt t.bits.toNat n) = v ↔ t.wrap n = v := by rw [t.read_ofInt]
    refine ⟨s.id, n, _, hfound, hmeaning, hcall, ?_, fun hkept => ?_, fun hneg hexact => ?_⟩
    · rw [hread, ← t.wrap_eq_wrap_iff, IntegerType.wrap_of_holds hholds]
    · obtain rfl : v = n := by simpa [he.meaning_of_kept hkept] using hmeaning
      exact hread.2 (IntegerType.wrap_of_holds hholds)
    · rcases hcode with ⟨hnone, _⟩ | ⟨p', e', src', _, _, _, hret', hbody'', _, hecode, _⟩
      · rw [hnone] at hreturns
        cases hreturns
      · obtain rfl : p = p' := by simpa [hret] using hret'
        obtain ⟨rfl, rfl⟩ : e = e' ∧ src = src' := by simpa [hbody] using hbody''
        rw [hp] at hecode
        exact he.kept_of_wrap hneg hholds hecode hmeaning (hread.1 hexact)

/-- The product `200 * 200`. -/
def squareExpression : Expression :=
  .binary .mul (.literal "200" (.rational 200 1) {}) (.literal "200" (.rational 200 1) {})
    (.rational 40000 1) {}

/-- A contract with the function `f() returns (t) { return 200 * 200; }`. -/
def squareContract (t : IntegerType) : Contract where
  name := "C"
  functions :=
    [{ name := "f"
       returns := [{ declaration := 1, ty := .integer t }]
       body := [.ret (some squareExpression) {}] }]

/-- The square of 200 is 40000. -/
theorem squareExpression_isConstant : IsConstant squareExpression 40000 :=
  @IsConstant.binary .mul .mul _ _ 200 200 {} rfl (.literal "200" 200 {}) (.literal "200" 200 {})

/-- In `uint32` the product is extended with zeros and returned as it is. -/
theorem squareContract_uint32 :
    ∃ m id w, lowerContracts emptySource [squareContract ⟨32, false⟩] = .ok m ∧
      m.functionIn? "C" "f" = some id ∧ Level.high.call m id [] = some [w] ∧
      IntegerType.read ⟨32, false⟩ w = 40000 := by
  have hok : (lowerContracts emptySource [squareContract ⟨32, false⟩]).isOk = true := by
    decide +kernel
  cases h : lowerContracts emptySource [squareContract ⟨32, false⟩] with
  | error e =>
    rw [h] at hok
    cases hok
  | ok m =>
    obtain ⟨id, n, w, hfound, hn, hcall, hiff, -, -⟩ := constantFunction_returns h
      (List.mem_singleton_self _) (List.mem_singleton_self _) rfl rfl rfl
      squareExpression_isConstant (by decide)
    obtain rfl : (40000 : Int) = n := Option.some.inj hn
    exact ⟨m, id, w, rfl, hfound, hcall, hiff.2 (by decide)⟩

/-- In `int32` the highest of the 16 digits of the product is copied: the call answers -25536. -/
theorem squareContract_int32 :
    IsConstant squareExpression 40000 ∧ IntegerType.holds ⟨32, true⟩ 40000 = true ∧
      ∃ w, ((lowerContracts emptySource [squareContract ⟨32, true⟩]).toOption.bind
          fun m => (m.functionIn? "C" "f").bind fun id => Level.high.call m id []) = some [w] ∧
        IntegerType.read ⟨32, true⟩ w = -25536 :=
  ⟨squareExpression_isConstant, by decide, .ofInt 32 (-25536), by decide +kernel, by decide⟩

end ContractIR
