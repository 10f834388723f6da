import ContractIR.Proofs.Lowering.Constants

/-!
# Which literals a type accepts

A literal that is in the range of the type that is expected is written as a constant of this type.
Any other literal is written in the smallest type of its value and then converted.  A conversion
only asks whether the type that is expected is wider, and extends with the sign of that type.  Where
the signs agree, a wider type would have held the number from the start, so the conversion refuses
the literal.  But a negative number has a signed smallest type, and every wider unsigned type takes
its digits for those of a positive number.

## Main definitions

* `ContractIR.IntegerType.Accepts` — the literals that are compiled in a type.
* `ContractIR.Function.IsLiteral` — functions that return a literal.
* `ContractIR.Module.ReturnsConstant` — a function creates a constant and returns it.

## Main results

* `ContractIR.SemanticType.smallest?_holds`, `ContractIR.SemanticType.exists_smallest?` — the
  smallest type of a number holds it, and no type of the same sign that does is narrower.
* `ContractIR.lowerContracts_literal` — which literals are compiled, and what is returned for them.
-/

set_option autoImplicit false

namespace ContractIR

/-! ## The smallest type of a number -/

/-- The widths that are compiled are those of one to 32 bytes. -/
theorem isSupportedWidth_iff {bits : UInt16} :
    isSupportedWidth bits = true ↔ 0 < bits.toNat ∧ bits.toNat ≤ 256 ∧ bits.toNat % 8 = 0 :=
  decide_eq_true_iff

/-- A number has at most `w` binary digits exactly if it is below the power of two. -/
theorem bitLength_le_iff {n w : Nat} : bitLength n ≤ w ↔ n < 2 ^ w := by
  unfold bitLength
  split
  · rename_i hzero
    rw [hzero]
    exact iff_of_true (Nat.zero_le w) (Nat.two_pow_pos w)
  · rename_i hne
    exact Nat.succ_le_iff.trans (Nat.log2_lt hne)

namespace SemanticType

variable {v : Int}

/-- A type that has the sign of a number holds it exactly if its digits are enough. -/
theorem digitsOf_le_iff {t : IntegerType} (hpos : 0 < t.bits.toNat)
    (hsigned : t.signed = decide (v < 0)) : digitsOf v ≤ t.bits.toNat ↔ t.holds v = true := by
  rw [IntegerType.holds_iff, hsigned]
  unfold digitsOf
  by_cases hv : v < 0
  · have hhalf := IntegerType.two_pow_eq_half_add_half hpos
    simp only [hv, hpos, decide_true, ↓reduceIte, true_and, bitLength_le_iff]
    omega
  · simp only [hv, hpos, decide_false, Bool.false_eq_true, ↓reduceIte, true_and, bitLength_le_iff]
    omega

/-- The smallest type of a number holds it. -/
theorem smallest?_holds {s : IntegerType} (h : smallest? v = some s) : s.holds v = true := by
  obtain ⟨hsigned, hpos, hdigits⟩ := smallest?_eq_some h
  exact (digitsOf_le_iff hpos hsigned).1 hdigits

/-- A number that some type of its sign holds has a smallest type, which is not wider. -/
theorem exists_smallest? {u : IntegerType} (hwidth : isSupportedWidth u.bits = true)
    (hsigned : u.signed = decide (v < 0)) (h : u.holds v = true) :
    ∃ s, smallest? v = some s ∧ s.bits.toNat ≤ u.bits.toNat := by
  obtain ⟨hpos, hle, hbytes⟩ := isSupportedWidth_iff.1 hwidth
  have hdigits := (digitsOf_le_iff hpos hsigned).2 h
  have hword : ¬wordBits < digitsOf v := by
    simp only [wordBits]
    omega
  refine ⟨_, by rw [smallest?, if_neg hword], ?_⟩
  simp only [UInt16.toNat_ofNat']
  split <;> omega

/-- Whole numbers are compiled in their smallest types. -/
theorem lowerType_of_wholeValue? {ty : SemanticType} (hv : ty.wholeValue? = some v)
    (location : Location) :
    ty.isRational = true ∧ ty.isFractional = false ∧ ty.interpretation? = smallest? v ∧
      lowerType ty location = match smallest? v with
        | some s => .ok (.int s.bits.toNat)
        | none => .error (.unsupported (.tooWide ty) location) := by
  cases ty with
  | rational n d =>
    have hwhole : isFractional (.rational n d) = false := by
      cases hf : isFractional (.rational n d) with
      | false => rfl
      | true => simp [wholeValue?, hf] at hv
    have hint : interpretation? (.rational n d) = smallest? v := by
      rw [interpretation?, hv, Option.bind_some]
    refine ⟨rfl, hwhole, hint, ?_⟩
    cases hs : smallest? v with
    | none => simp [lowerType, hwhole, hint, hs]
    | some s => simp [lowerType, hwhole, hint, hs]
  | integer | bool | address => cases hv

end SemanticType

/-! ## Accepted literals -/

namespace IntegerType

/-- Whether a literal of value `v` is compiled where type `t` is expected: if `t` holds it, and if
it is negative, `t` is unsigned, and a signed type that is a byte narrower than `t` holds it. -/
def Accepts (t : IntegerType) (v : Int) : Prop :=
  t.holds v = true ∨ t.signed = false ∧ v < 0 ∧ IntegerType.holds ⟨t.bits - 8, true⟩ v = true

instance (t : IntegerType) (v : Int) : Decidable (t.Accepts v) :=
  inferInstanceAs (Decidable (_ ∨ _ ∧ _ ∧ _))

variable {t : IntegerType} {v : Int}

/-- The width of a type that is a byte narrower. -/
theorem toNat_bits_sub (hwidth : isSupportedWidth t.bits = true) :
    (t.bits - 8).toNat = t.bits.toNat - 8 ∧ 8 ≤ t.bits.toNat := by
  have hbytes := isSupportedWidth_iff.1 hwidth
  have hbyte : 8 ≤ t.bits.toNat := by omega
  exact ⟨UInt16.toNat_sub_of_le _ _ (UInt16.le_iff_toNat_le.2 hbyte), hbyte⟩

/-- A number in the range of its smallest type but not of a wider one is negative, and the wider
type is unsigned. -/
theorem signs_of_not_holds {s : IntegerType} (hs : SemanticType.smallest? v = some s)
    (hlt : s.bits.toNat < t.bits.toNat) (h : ¬t.holds v = true) :
    s.signed = true ∧ t.signed = false ∧ v < 0 := by
  have hsv := SemanticType.smallest?_holds hs
  obtain ⟨hsigned, -, -⟩ := SemanticType.smallest?_eq_some hs
  have hne : s.signed ≠ t.signed := fun heq => h (holds_of_le heq (Nat.le_of_lt hlt) hsv)
  by_cases hv : v < 0
  · have hs' : s.signed = true := by simp [hsigned, hv]
    exact ⟨hs', by simpa [hs'] using hne.symm, hv⟩
  · -- A signed type with one more digit than an unsigned one holds the same numbers.
    have hs' : s.signed = false := by simp [hsigned, hv]
    have ht' : t.signed = true := by simpa [hs'] using hne.symm
    refine absurd ((t.holds_iff v).2 ⟨Nat.zero_lt_of_lt hlt, ?_⟩) h
    have hrange := ((s.holds_iff v).1 hsv).2
    simp only [hs', ht', Bool.false_eq_true, ↓reduceIte] at hrange ⊢
    have hpow := Nat.pow_le_pow_right Nat.zero_lt_two (Nat.le_sub_one_of_lt hlt)
    omega

/-- A literal is accepted if it is in the range of the type, or its smallest type is narrower.

**Proof sketch.** The two sides differ only for negative numbers and unsigned types.  Widths are
whole numbers of bytes, so to fit a signed type of one byte less is to have a narrower smallest
type (`exists_smallest?`, `signs_of_not_holds`). -/
theorem accepts_iff (hwidth : isSupportedWidth t.bits = true) :
    t.Accepts v ↔ t.holds v = true ∨
      ∃ s, SemanticType.smallest? v = some s ∧ s.bits.toNat < t.bits.toNat := by
  obtain ⟨hsub, hbyte⟩ := toNat_bits_sub hwidth
  constructor
  · rintro (h | ⟨-, hneg, h⟩)
    · exact .inl h
    · right
      have hpos := ((holds_iff _ v).1 h).1
      have hnarrow : isSupportedWidth (t.bits - 8) = true := by
        have hbytes := isSupportedWidth_iff.1 hwidth
        exact isSupportedWidth_iff.2 ⟨hpos, by omega, by omega⟩
      obtain ⟨s, hs, hle⟩ := SemanticType.exists_smallest? (u := ⟨t.bits - 8, true⟩) hnarrow
        (by simp [hneg]) h
      refine ⟨s, hs, ?_⟩
      simp only at hle
      omega
  · rintro (h | ⟨s, hs, hlt⟩)
    · exact .inl h
    · by_cases h : t.holds v = true
      · exact .inl h
      · obtain ⟨hs', ht', hneg⟩ := signs_of_not_holds hs hlt h
        refine .inr ⟨ht', hneg, holds_of_le (t := ⟨t.bits - 8, true⟩) hs' ?_
          (SemanticType.smallest?_holds hs)⟩
        -- Both widths are whole numbers of bytes.
        have hsbytes := isSupportedWidth_iff.1 (isSupportedWidth_of_smallest? hs)
        have htbytes := isSupportedWidth_iff.1 hwidth
        simp only
        omega

end IntegerType

/-! ## The code of a literal -/

namespace Expression

variable {source : Source} {cells : Cells} {text : String} {ty : SemanticType} {src : SourceRange}
  {location : Location} {t : IntegerType} {v : Int}

/-- A literal is written in the type that is expected if it is in its range, else in its own. -/
theorem literalTarget_eq (hv : ty.wholeValue? = some v) :
    literalTarget ty (.integer t) = if t.holds v then .integer t else ty := by
  simp [literalTarget, hv]

/-- The smallest type of a literal is none that does not hold it. -/
theorem isIdentityCast_of_not_holds (hv : ty.wholeValue? = some v) (h : ¬t.holds v = true) :
    SemanticType.integer t ≠ ty ∧ isIdentityCast ty (.integer t) = false := by
  obtain ⟨hrational, -, hint, -⟩ := SemanticType.lowerType_of_wholeValue? hv .unknown
  have hne : SemanticType.integer t ≠ ty := by
    rintro rfl
    cases hrational
  have hst : ¬SemanticType.smallest? v = some t := fun ht => h (SemanticType.smallest?_holds ht)
  exact ⟨hne, by simp [isIdentityCast, hne.symm, hint, hst]⟩

/-- A literal in the range of the type that is expected is a constant of that type. -/
theorem code_literal_of_holds (hloc : locate source src = .ok location)
    (hwidth : isSupportedWidth t.bits = true) (hv : ty.wholeValue? = some v)
    (h : t.holds v = true) (next : Nat) :
    (literal text ty src).code source cells next (.integer t) =
      .ok ([⟨.constant v (.int t.bits.toNat), location⟩], ⟨next⟩) := by
  have hlow : lowerType (.integer t) location = .ok (.int t.bits.toNat) := by
    simp [lowerType, hwidth]
  simp only [code, hloc, Outcome.ok_bind, literalTarget_eq hv, h, hlow, hv, convertCode, ↓reduceIte]
  rfl

/-- Any other literal is a constant of its own type that is converted. -/
theorem code_literal_of_not_holds (hloc : locate source src = .ok location)
    (hv : ty.wholeValue? = some v) (h : ¬t.holds v = true) (next : Nat) :
    (literal text ty src).code source cells next (.integer t) = (do
      let lowered ← lowerType ty location
      let (more, w) ← convertCode location (next + 1) ⟨next⟩ ty (.integer t)
      return (⟨.constant v lowered, location⟩ :: more, w)) := by
  have htarget := (literalTarget_eq hv).trans (if_neg h)
  simp only [code, hloc, Outcome.ok_bind, htarget, hv]

/-- What a literal is refused with. -/
def literalRefusal (ty : SemanticType) (t : IntegerType) : Unsupported :=
  if ty.interpretation?.isSome then .narrowing ty (.integer t) else .tooWide ty

/-- The conversion of a literal that is not in the range of the type that is expected. -/
theorem convertCode_of_not_holds (hwidth : isSupportedWidth t.bits = true)
    (hv : ty.wholeValue? = some v) (h : ¬t.holds v = true) {s : IntegerType}
    (hs : SemanticType.smallest? v = some s) (next : Nat) (x : ValueId) :
    convertCode location next x ty (.integer t) =
      if t.bits.toNat ≤ s.bits.toNat then
        .error (.unsupported (.narrowing ty (.integer t)) location)
      else .ok ([⟨.extend t.signed x (.int t.bits.toNat), location⟩], ⟨next⟩) := by
  obtain ⟨-, -, hint, -⟩ := SemanticType.lowerType_of_wholeValue? hv location
  obtain ⟨hne, hid⟩ := isIdentityCast_of_not_holds hv h
  have hlow : lowerType (.integer t) location = .ok (.int t.bits.toNat) := by
    simp [lowerType, hwidth]
  have ht : (SemanticType.integer t).interpretation? = some t := rfl
  simp only [convertCode, castCode, hne, hid, hint, hs, ht, hlow, ↓reduceIte, Bool.false_eq_true]
  rfl

/-- A literal that is not accepted is refused. -/
theorem code_literal_refused (hloc : locate source src = .ok location)
    (hwidth : isSupportedWidth t.bits = true) (hv : ty.wholeValue? = some v)
    (h : ¬t.Accepts v) (next : Nat) :
    (literal text ty src).code source cells next (.integer t) =
      .error (.unsupported (literalRefusal ty t) location) := by
  rw [IntegerType.accepts_iff hwidth, not_or, not_exists] at h
  obtain ⟨hholds, hwide⟩ := h
  obtain ⟨-, -, hint, hlow⟩ := SemanticType.lowerType_of_wholeValue? hv location
  rw [code_literal_of_not_holds hloc hv hholds, hlow]
  cases hs : SemanticType.smallest? v with
  | none => simp [literalRefusal, hint, hs]
  | some s =>
    have hle : t.bits.toNat ≤ s.bits.toNat := Nat.le_of_not_lt fun hlt => hwide s ⟨hs, hlt⟩
    simp [literalRefusal, hint, hs, convertCode_of_not_holds hwidth hv hholds hs, hle]

/-- A literal that is accepted is compiled. -/
theorem exists_code_literal (cells : Cells) (text : String)
    (hloc : locate source src = .ok location) (hwidth : isSupportedWidth t.bits = true)
    (hv : ty.wholeValue? = some v)
    (h : t.Accepts v) (next : Nat) :
    ∃ code w, (literal text ty src).code source cells next (.integer t) = .ok (code, w) := by
  by_cases hholds : t.holds v = true
  · exact ⟨_, _, code_literal_of_holds hloc hwidth hv hholds next⟩
  · obtain ⟨s, hs, hlt⟩ := ((IntegerType.accepts_iff hwidth).1 h).resolve_left hholds
    obtain ⟨-, -, -, hlow⟩ := SemanticType.lowerType_of_wholeValue? hv location
    rw [code_literal_of_not_holds hloc hv hholds, hlow, hs]
    simp only [Outcome.ok_bind, convertCode_of_not_holds hwidth hv hholds hs, Nat.not_le.2 hlt,
      ↓reduceIte]
    exact ⟨_, _, rfl⟩

end Expression

/-! ## Functions that return a literal -/

/-- The stretches of text of an expression and of its parts. -/
def Expression.ranges : Expression → List SourceRange
  | .literal _ _ src | .identifier _ _ _ src => [src]
  | .binary _ left right _ src => left.ranges ++ right.ranges ++ [src]

/-- The stretch of text of a statement, and those of the expression that it returns. -/
def Statement.ranges : Statement → List SourceRange
  | .ret value src => src :: value.toList.flatMap Expression.ranges
  | s => [s.src]

/-- The stretches of text of a function and of its parts. -/
def Function.ranges (f : Function) : List SourceRange :=
  f.src :: (f.parameters.map Parameter.src ++ f.returns.map Parameter.src ++
    f.body.flatMap Statement.ranges)

/-- A source has the place at which a stretch of text starts. -/
def Source.Has (source : Source) (range : SourceRange) : Prop :=
  range.start.toNat ≤ source.bytes

/-- What a source has is located. -/
theorem Source.Has.locate_eq {source : Source} {range : SourceRange} (h : source.Has range) :
    ∃ location, locate source range = .ok location := by
  unfold locate Source.location Source.position
  rw [if_neg (Nat.not_lt.2 h)]
  exact ⟨_, rfl⟩

namespace Function

/-- A function without parameters that returns a literal of type `ty` and value `v`, which stands at
`src`, in integer type `t`. -/
structure IsLiteral (f : Function) (t : IntegerType) (ty : SemanticType) (v : Int)
    (src : SourceRange) : Prop where
  width : isSupportedWidth t.bits = true
  parameters : f.parameters = []
  returns : f.returns.map Parameter.ty = [.integer t]
  body : ∃ text place, f.body = [.ret (some (.literal text ty src)) place]
  value : ty.wholeValue? = some v

variable {source : Source} {f : Function} {t : IntegerType} {ty : SemanticType} {v : Int}
  {src : SourceRange}

/-- The literal stands inside of the function. -/
theorem IsLiteral.mem_ranges (h : f.IsLiteral t ty v src) : src ∈ f.ranges := by
  obtain ⟨text, place, hbody⟩ := h.body
  simp [Function.ranges, hbody, Statement.ranges, Expression.ranges]

/-- The code of a function that returns a literal is that of the literal, and a return.

**Proof sketch.** Every range of the function lies in the source, so its places are found, and
its result has an integer type; the body is one return of the literal. -/
theorem IsLiteral.code_eq (h : f.IsLiteral t ty v src)
    (hsource : ∀ range ∈ f.ranges, source.Has range) (first : Nat) :
    ∃ text location place result, f.code source first = (do
      let (code, x) ← (Expression.literal text ty src).code source {} first (.integer t)
      return ⟨f.name, ⟨[], [result]⟩, location, code ++ [⟨.ret [x], place⟩]⟩) := by
  obtain ⟨text, range, hbody⟩ := h.body
  obtain ⟨p, hreturns, hp⟩ : ∃ p, f.returns = [p] ∧ p.ty = .integer t := by
    simpa [List.map_eq_singleton_iff] using h.returns
  have hranges : f.ranges = [f.src, p.src, range, src] := by
    simp [Function.ranges, h.parameters, hreturns, hbody, Statement.ranges, Expression.ranges]
  simp only [hranges, List.mem_cons, List.not_mem_nil, or_false, forall_eq_or_imp,
    forall_eq] at hsource
  obtain ⟨⟨location, hloc⟩, ⟨around, hp'⟩, ⟨place, hplace⟩, -⟩ :=
    hsource.imp Source.Has.locate_eq (And.imp Source.Has.locate_eq
      (And.imp Source.Has.locate_eq id))
  have hlow : lowerType p.ty around = .ok (.int t.bits.toNat) := by
    simp [hp, lowerType, h.width]
  have hresult : [p].mapM (lowerParameter source) = .ok [(.int t.bits.toNat, around)] := by
    rw [List.mapM_cons, List.mapM_nil, lowerParameter, hp', Outcome.ok_bind, hlow]
    rfl
  refine ⟨text, location, place, .int t.bits.toNat, ?_⟩
  have hstmts : ∀ next, statementsCode source {} f.name (some (.integer t)) next false f.body = (do
      let (code, x) ← (Expression.literal text ty src).code source {} next (.integer t)
      return (code ++ [⟨.ret [x], place⟩], true)) := by
    intro next
    simp only [hbody, statementsCode, Statement.src, hplace, Outcome.ok_bind, Bool.false_eq_true,
      ↓reduceIte, returnCode]
    cases (Expression.literal text ty src).code source {} next (.integer t) with
    | error e => rfl
    | ok q => simp [pure, Except.pure]
  have hinputs : f.parameters.mapM (lowerParameter source) = .ok [] := by
    rw [h.parameters]
    rfl
  have hone : ¬1 < [p].length := Nat.lt_irrefl 1
  have hargs : f.arguments first [] = [] := by simp [Function.arguments]
  simp only [Function.code, hloc, hinputs, hreturns, hresult, Outcome.ok_bind, hone, ↓reduceIte,
    hargs, spillCode, spillCells, List.head?_cons, Option.map_some, hp, hstmts,
    List.length_nil, codeCount_nil, Nat.add_zero, List.map_nil, List.map_cons, List.nil_append]
  cases (Expression.literal text ty src).code source {} first (.integer t) with
  | error e => rfl
  | ok q => simp [pure, Except.pure]

end Function

/-- A contract with one function is lowered exactly if the function has code.

**Proof sketch.** The contract is opened and its function added, which succeeds exactly if the
function has code.  The module is then laid out as lowering does it, so it verifies
(`Layout.verify_eq`). -/
theorem lowerContracts_single {source : Source} {c : Contract} {f : Function}
    (hc : c.functions = [f]) (hsource : source.Has c.src) :
    (∀ code, f.code source 0 = .ok code → ∃ m, lowerContracts source [c] = .ok m) ∧
      ∀ e, f.code source 0 = .error e → lowerContracts source [c] = .error e := by
  obtain ⟨top, htop⟩ := (show source.Has {} from Nat.zero_le _).locate_eq
  obtain ⟨location, hloc⟩ := hsource.locate_eq
  have hover : overloaded? [] c.functions = none := by simp [hc, overloaded?]
  have hsize : ((Module.new top).openContract c.name location).values.size = 0 := by
    simp [Module.openContract, Module.contractSpec, Module.new]
  have hadd : addContracts source (Module.new top) [c] = (f.code source 0 >>= fun code =>
      .ok (((Module.new top).openContract c.name location).addFunction
        ⟨(Module.new top).blocks.size⟩ code)) := by
    simp only [addContracts, addContract, hloc, Outcome.ok_bind, hover]
    rw [hc]
    simp only [addFunctions, hsize]
    cases f.code source 0 <;> rfl
  rw [lowerContracts_eq, htop, Outcome.ok_bind, hadd]
  refine ⟨fun code hcode => ?_, fun e he => by rw [he]; rfl⟩
  rw [hcode, Outcome.ok_bind] at hadd
  obtain ⟨sites, hlayout⟩ := layout_of_addContracts hadd (layout_new source top)
  have hverify := hlayout.verify_eq
  simp only [List.nil_append, List.map_cons, List.map_nil, Module.repeated?, List.contains_nil,
    Bool.false_eq_true, ↓reduceIte] at hverify
  rw [hcode, Outcome.ok_bind, Outcome.ok_bind, hverify]
  exact ⟨_, rfl⟩

/-- A function whose only block creates a constant of a type and returns it. -/
def Module.ReturnsConstant (m : Module) (id : OpId) (ty : Ty) (v : Int) : Prop :=
  ∃ entry constant ret value, m.entryBlock? id = some entry ∧
    (m.block entry).ops = [constant, ret] ∧ m.kind constant = .arith .constant ∧
    m.attr? constant AttrName.value = some (.int v ty) ∧ (m.op constant).results = [value] ∧
    m.typeOf value = ty ∧ m.kind ret = .func .ret ∧ (m.op ret).operands = [value]

namespace FunctionSite

variable {source : Source} {f : Function} {t : IntegerType} {ty : SemanticType} {v : Int}
  {src : SourceRange} {s : FunctionSite} {m : Module} {around : BlockId}

/-- The code at a site of a function that returns a literal.

**Proof sketch.** The function has a result, so its code is that of the returned expression and
the return (`Function.code_eq_ok`); without parameters no cells are in front. -/
theorem Of.code_literal (hof : s.Of source f) (hf : f.IsLiteral t ty v src) :
    ∃ text location place lines x, locate source src = .ok location ∧
      (Expression.literal text ty src).code source {} s.first (.integer t) = .ok (lines, x) ∧
      s.code.code = lines ++ [⟨.ret [x], place⟩] ∧ s.code.signature.inputs = [] := by
  obtain ⟨_, inputs, _, _, hin, _, _, hsig, _, hcode⟩ := Function.code_eq_ok hof
  obtain rfl : inputs = [] := by
    have hlen := length_of_mapM hin
    rw [hf.parameters] at hlen
    exact List.length_eq_zero_iff.1 hlen
  have hargs : f.arguments s.first [] = [] := by simp [Function.arguments]
  rcases hcode with ⟨hnone, -⟩ | ⟨p, e, range, place, lines, x, hreturns, hbody, -, he, hcode⟩
  · have hreturns := hf.returns
    rw [hnone] at hreturns
    cases hreturns
  · obtain ⟨text, range', hbody'⟩ := hf.body
    obtain ⟨rfl, rfl⟩ : e = .literal text ty src ∧ range = range' := by
      simpa [hbody] using hbody'
    have hp : p.ty = .integer t := by simpa [hreturns] using hf.returns
    simp only [hargs, hp, spillCode, spillCells, List.length_nil, codeCount_nil, Nat.add_zero,
      List.nil_append] at he hcode
    obtain ⟨location, _, _, _, hloc, -⟩ := Expression.code_literal_eq_ok he
    exact ⟨text, location, place, lines, x, hloc, he, hcode, by rw [hsig]; rfl⟩

/-- A literal that is compiled is accepted. -/
theorem Of.accepts (hof : s.Of source f) (hf : f.IsLiteral t ty v src) : t.Accepts v := by
  by_contra h
  obtain ⟨_, _, _, _, _, hloc, he, -⟩ := hof.code_literal hf
  rw [Expression.code_literal_refused hloc hf.width hf.value h] at he
  cases he

/-- A literal in the range of the type that is returned is returned as a constant.

**Proof sketch.** The code is one constant of the type that is returned, and the return; both
operations are read off the lines. -/
theorem In.returnsConstant (h : s.In m around) (hof : s.Of source f)
    (hf : f.IsLiteral t ty v src) (hholds : t.holds v = true) :
    m.ReturnsConstant s.id (.int t.bits.toNat) v := by
  obtain ⟨_, location, place, _, _, hloc, he, hcode, hinputs⟩ := hof.code_literal hf
  rw [Expression.code_literal_of_holds hloc hf.width hf.value hholds] at he
  simp only [Except.ok.injEq, Prod.mk.injEq] at he
  obtain ⟨rfl, rfl⟩ := he
  have hbody := h.body
  rw [hcode] at hbody
  generalize hops : s.ops = ops at hbody
  cases hbody with
  | @cons _ constant _ _ _ hconstant hrest =>
    cases hrest with
    | @cons _ ret _ _ _ hret hnil =>
      cases hnil
      obtain ⟨-, hvalue⟩ := hconstant.value _ rfl
      refine ⟨s.entry, constant, ret, ⟨s.next⟩, h.entryBlock?_eq, by rw [h.block, hops], ?_, ?_, ?_,
        ?_, ?_, ?_⟩
      · rw [Module.kind, hconstant.op]
        rfl
      · rw [Module.attr?, hconstant.op]
        rfl
      · rw [hconstant.op]
        rfl
      · rw [Module.typeOf, hvalue]
      · rw [Module.kind, hret.op]
        rfl
      · rw [hret.op]
        simp [CodeLine.toOp, Instr.operands, FunctionSite.next, hinputs]

/-- What calling a function answers that returns a literal.

**Proof sketch.** A call of a compiled function answers with the meaning of the expression that
it returns (`In.call_eq`), and the meaning of a literal is its number, read in the type it is
written in and converted. -/
theorem In.call_literal (h : s.In m around) (hof : s.Of source f)
    (hf : f.IsLiteral t ty v src) :
    Level.high.call m s.id [] =
      some [.ofInt t.bits.toNat ((literalTarget ty (.integer t)).reread (.integer t) v)] := by
  have hwords : List.Forall₂ (fun q w => Encodes q.1 q.2 w) (f.parameters.zip []) [] := by
    rw [hf.parameters]
    exact .nil
  rcases h.call_eq hof (by rw [hf.parameters]; rfl) hwords with ⟨hnone, _⟩ |
    ⟨p, e, _, w, n, hreturns, hbody, hw, hmeaning, hcall⟩
  · have hreturns := hf.returns
    rw [hnone] at hreturns
    cases hreturns
  · obtain ⟨text, _, hbody'⟩ := hf.body
    obtain ⟨rfl, -⟩ : e = .literal text ty src ∧ _ := by simpa [hbody] using hbody'
    have hp : p.ty = .integer t := by simpa [hreturns] using hf.returns
    rw [hp] at hw hmeaning
    obtain rfl := hw.width_eq
    obtain rfl : (literalTarget ty (.integer t)).reread (.integer t) v = n := by
      simpa [Expression.meaning, hf.value] using hmeaning
    exact hcall

end FunctionSite

/-! ## The value that is returned -/

section Value

variable {t : IntegerType} {ty : SemanticType} {v : Int}

/-- A literal in the range of the type that is expected keeps its value. -/
theorem reread_literal_of_holds (hv : ty.wholeValue? = some v) (h : t.holds v = true) :
    (literalTarget ty (.integer t)).reread (.integer t) v = v := by
  simp [Expression.literalTarget_eq hv, h, SemanticType.reread, isIdentityCast]

/-- A literal that is accepted, but not in the range of the type, is read without its sign.

**Proof sketch.** The type of the number is signed and the target is not, and narrower.  So the
digits are read without the sign, which adds `2 ^ bits` to a negative number, and the sum is below
the range of the wider type. -/
theorem reread_literal_of_not_holds (hv : ty.wholeValue? = some v) (h : ¬t.holds v = true)
    {s : IntegerType} (hs : SemanticType.smallest? v = some s)
    (hlt : s.bits.toNat < t.bits.toNat) :
    (literalTarget ty (.integer t)).reread (.integer t) v = v + (2 ^ s.bits.toNat : Nat) ∧
      t.holds (v + (2 ^ s.bits.toNat : Nat)) = true := by
  obtain ⟨-, -, hint, -⟩ := SemanticType.lowerType_of_wholeValue? hv .unknown
  obtain ⟨hs', ht', hneg⟩ := IntegerType.signs_of_not_holds hs hlt h
  have htarget := (Expression.literalTarget_eq hv).trans (if_neg h)
  obtain ⟨-, hid⟩ := Expression.isIdentityCast_of_not_holds hv h
  have hwrap : ty.reread (.integer t) v = IntegerType.wrap ⟨s.bits, false⟩ v := by
    have ht : (SemanticType.integer t).interpretation? = some t := rfl
    simp only [SemanticType.reread, hid, hint, hs, ht, ht', Bool.false_eq_true, ↓reduceIte]
  have hrange := ((s.holds_iff v).1 (SemanticType.smallest?_holds hs)).2
  have hpos : 0 < s.bits.toNat := (SemanticType.smallest?_eq_some hs).2.1
  have hhalf := IntegerType.two_pow_eq_half_add_half hpos
  have hwide := Nat.pow_le_pow_right Nat.zero_lt_two (Nat.le_of_lt hlt)
  simp only [hs', ↓reduceIte] at hrange
  constructor
  · calc (literalTarget ty (.integer t)).reread (.integer t) v
        = v % (2 ^ s.bits.toNat : Nat) := by rw [htarget, hwrap]; rfl
      _ = (v + (2 ^ s.bits.toNat : Nat)) % (2 ^ s.bits.toNat : Nat) :=
        (Int.add_emod_right ..).symm
      _ = v + (2 ^ s.bits.toNat : Nat) := Int.emod_eq_of_lt (by omega) (by omega)
  · refine (t.holds_iff _).2 ⟨Nat.zero_lt_of_lt hlt, ?_⟩
    simp only [ht', Bool.false_eq_true, ↓reduceIte]
    omega

end Value

/-! ## The law of literals -/

/-- **Which literals are compiled, and what is returned for them.**  A function that returns a
literal is lowered exactly if the type that it returns accepts the literal; else the literal is
refused.  A literal in the range of the type is returned exactly, as a constant.  Any other literal
that is accepted is negative, and what is returned is too large by the power of two of the width of
its smallest type.

**Proof sketch.** A contract with one function is lowered if the function has code
(`lowerContracts_single`), which is that of the literal (`Function.IsLiteral.code_eq`); the literal
has code exactly if it is accepted (`Expression.exists_code_literal`,
`Expression.code_literal_refused`).  A call answers the meaning of the literal
(`FunctionSite.In.call_literal`). -/
theorem lowerContracts_literal {source : Source} {f : Function} {t : IntegerType}
    {ty : SemanticType} {v : Int} {src : SourceRange} (hf : f.IsLiteral t ty v src) :
    (∀ c : Contract, c.functions = [f] → source.Has c.src →
      (∀ range ∈ f.ranges, source.Has range) →
        ((∃ m, lowerContracts source [c] = .ok m) ↔ t.Accepts v) ∧
        (¬t.Accepts v → ∃ location, locate source src = .ok location ∧
          lowerContracts source [c] =
            .error (.unsupported (Expression.literalRefusal ty t) location))) ∧
    ∀ contracts m, lowerContracts source contracts = .ok m → ∀ c ∈ contracts, f ∈ c.functions →
      t.Accepts v ∧ ∃ id w, m.functionIn? c.name f.name = some id ∧
        Level.high.call m id [] = some [w] ∧
        (t.holds v = true → m.ReturnsConstant id (.int t.bits.toNat) v ∧ t.read w = v) ∧
        (¬t.holds v = true → ∃ s, SemanticType.smallest? v = some s ∧
          t.read w = v + (2 ^ s.bits.toNat : Nat)) := by
  refine ⟨fun c hc hsource hranges => ?_, fun contracts m h c hc hmem => ?_⟩
  · obtain ⟨text, location, place, result, hcode⟩ := hf.code_eq hranges 0
    obtain ⟨around, hloc⟩ := (hranges src hf.mem_ranges).locate_eq
    obtain ⟨hok, herror⟩ := lowerContracts_single hc hsource
    have hrefused : ¬t.Accepts v → lowerContracts source [c] =
        .error (.unsupported (Expression.literalRefusal ty t) around) := fun haccepts => by
      refine herror _ ?_
      rw [hcode, Expression.code_literal_refused hloc hf.width hf.value haccepts]
      rfl
    refine ⟨⟨fun hlowered => ?_, fun haccepts => ?_⟩, fun haccepts =>
      ⟨around, hloc, hrefused haccepts⟩⟩
    · by_contra haccepts
      obtain ⟨m, hm⟩ := hlowered
      rw [hrefused haccepts] at hm
      cases hm
    · obtain ⟨lines, x, hlines⟩ :=
        Expression.exists_code_literal {} text hloc hf.width hf.value haccepts 0
      refine hok ⟨f.name, ⟨[], [result]⟩, location, lines ++ [⟨.ret [x], place⟩]⟩ ?_
      rw [hcode, hlines]
      rfl
  · obtain ⟨_, hlayout, site, hsite, s, hs, hof, hfound⟩ := exists_site h hc hmem
    have hin := ((hlayout.sites site hsite).functions s hs).1
    have haccepts := hof.accepts hf
    refine ⟨haccepts, s.id, _, hfound, hin.call_literal hof hf, fun hholds => ⟨?_, ?_⟩,
      fun hholds => ?_⟩
    · exact hin.returnsConstant hof hf hholds
    · rw [t.read_ofInt, reread_literal_of_holds hf.value hholds, IntegerType.wrap_of_holds hholds]
    · obtain ⟨u, hu, hlt⟩ := ((IntegerType.accepts_iff hf.width).1 haccepts).resolve_left hholds
      obtain ⟨hreread, hrange⟩ := reread_literal_of_not_holds hf.value hholds hu hlt
      exact ⟨u, hu, by rw [t.read_ofInt, hreread, IntegerType.wrap_of_holds hrange]⟩

/-- The function `f() returns (t) { return v; }`. -/
def literalFunction (t : IntegerType) (v : Int) : Function where
  name := "f"
  returns := [{ declaration := 1, ty := .integer t }]
  body := [.ret (some (.literal (toString v) (.rational v 1) {})) {}]

/-- A contract with a function that returns a literal. -/
def literalContract (t : IntegerType) (v : Int) : Contract where
  name := "C"
  functions := [literalFunction t v]

/-- The function of the contract returns its literal. -/
theorem literalFunction_isLiteral {t : IntegerType} (hwidth : isSupportedWidth t.bits = true)
    (v : Int) : (literalFunction t v).IsLiteral t (.rational v 1) v {} where
  width := hwidth
  parameters := rfl
  returns := rfl
  body := ⟨_, _, rfl⟩
  value := SemanticType.wholeValue?_rational_one v

/-- The file without text has the places of the function. -/
theorem has_of_mem_ranges (t : IntegerType) (v : Int) :
    ∀ range ∈ (literalFunction t v).ranges, emptySource.Has range := by
  intro range hrange
  rw [show (literalFunction t v).ranges = List.replicate 4 {} from rfl] at hrange
  rw [List.eq_of_mem_replicate hrange]
  exact Nat.le_refl 0

/-- In `int8`, -128 is returned as it is, and -129 is refused. -/
theorem literalContract_int8 :
    (∃ m id w, lowerContracts emptySource [literalContract ⟨8, true⟩ (-128)] = .ok m ∧
      m.functionIn? "C" "f" = some id ∧ m.ReturnsConstant id (.int 8) (-128) ∧
      Level.high.call m id [] = some [w] ∧ IntegerType.read ⟨8, true⟩ w = -128) ∧
    ∃ location, lowerContracts emptySource [literalContract ⟨8, true⟩ (-129)] =
      .error (.unsupported (.narrowing (.rational (-129) 1) (.integer ⟨8, true⟩)) location) := by
  constructor
  · obtain ⟨hiff, hcall⟩ := @lowerContracts_literal emptySource _ ⟨8, true⟩ _ _ _
      (literalFunction_isLiteral (by decide) (-128))
    obtain ⟨m, hm⟩ := (hiff (literalContract ⟨8, true⟩ (-128)) rfl (Nat.le_refl 0)
      (has_of_mem_ranges _ _)).1.2 (.inl (by decide))
    obtain ⟨-, id, w, hfound, hcalled, hexact, -⟩ :=
      hcall _ m hm _ (List.mem_singleton_self _) (List.mem_singleton_self _)
    obtain ⟨hconstant, hread⟩ := hexact (by decide)
    exact ⟨m, id, w, hm, hfound, hconstant, hcalled, hread⟩
  · obtain ⟨hiff, -⟩ := @lowerContracts_literal emptySource _ ⟨8, true⟩ _ _ _
      (literalFunction_isLiteral (by decide) (-129))
    obtain ⟨location, -, herror⟩ := (hiff (literalContract ⟨8, true⟩ (-129)) rfl (Nat.le_refl 0)
      (has_of_mem_ranges _ _)).2 (by decide)
    exact ⟨location, herror⟩

/-- In `uint16`, -1 is not in the range of the type, and is compiled: the call answers 255. -/
theorem literalContract_uint16 :
    IntegerType.holds ⟨16, false⟩ (-1) = false ∧
      ∃ w, ((lowerContracts emptySource [literalContract ⟨16, false⟩ (-1)]).toOption.bind
          fun m => (m.functionIn? "C" "f").bind fun id => Level.high.call m id []) = some [w] ∧
        IntegerType.read ⟨16, false⟩ w = 255 :=
  ⟨by decide, .ofInt 16 255, by decide +kernel, by decide⟩

end ContractIR
