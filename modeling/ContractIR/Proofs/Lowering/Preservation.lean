import ContractIR.Proofs.Lowering.Calls

/-!
# Lowering preserves meaning

The reference value of an expression is defined on the source alone: a literal is its value, a
variable is the argument of its parameter, and arithmetic wraps around in the type of the operation.
In a function that the type checker accepts, every conversion keeps the sign and every literal is in
range; then the lowered function returns the digits of the reference value, for all arguments.

## Main definitions

* `ContractIR.Expression.value` — the reference value of an expression.
* `ContractIR.Expression.WellTyped`, `ContractIR.Function.WellTyped` — what the type checker
  guarantees.

## Main results

* `ContractIR.Expression.wrap_meaning` — in a well-typed expression, the meaning of the code and the
  reference value have the same digits.
* `ContractIR.lowerContracts_preserves_value` — a lowered function returns the reference value.
-/

set_option autoImplicit false

namespace ContractIR

/-! ## The reference -/

/-- The argument of the parameter with a declaration. -/
def Function.argument? (f : Function) (args : List Int) (declaration : UInt64) : Option Int :=
  ((f.parameters.zip args).find? fun q => q.1.declaration == declaration).map Prod.snd

/-- The reference value of an expression whose variables have values.  Arithmetic wraps around in
the integer type of the operation. -/
def Expression.value (vars : UInt64 → Option Int) : Expression → Option Int
  | .literal _ ty _ => ty.wholeValue?
  | .identifier _ declaration _ _ => vars declaration
  | .binary operator left right (.integer t) _ => do
    let op ← operator.arithmetic?
    let a ← left.value vars
    let b ← right.value vars
    return t.wrap (op.eval a b)
  | .binary .. => none

/-- What the type checker guarantees of an expression that is converted to an integer type:
conversions keep the sign, and literals are in range. -/
def Expression.WellTyped (params : List Parameter) : Expression → IntegerType → Prop
  | .literal _ ty _, t => ∀ v, ty.wholeValue? = some v → t.holds v = true
  | .identifier _ declaration _ _, t =>
    ∀ p ∈ params, p.declaration = declaration → ∃ s, p.ty = .integer s ∧ s.signed = t.signed
  | .binary _ left right ty _, t =>
    ∃ s, ty = .integer s ∧ s.signed = t.signed ∧ left.WellTyped params s ∧
      right.WellTyped params s

/-- What the type checker guarantees of a function that takes integers and returns one. -/
structure Function.WellTyped (f : Function) (types : List IntegerType) (result : IntegerType) :
    Prop where
  parameters : List.Forall₂ (fun p t => p.ty = .integer t) f.parameters types
  returns : f.returns.map Parameter.ty = [.integer result]
  distinct : (f.parameters.map Parameter.declaration).Nodup
  body : ∀ e src, .ret (some e) src ∈ f.body → e.WellTyped f.parameters result

/-! ## Conversions -/

/-- A conversion between integer types of the same sign keeps the numbers of the first one. -/
theorem SemanticType.reread_integer {s t : IntegerType} (hsigned : s.signed = t.signed) (n : Int) :
    reread (.integer s) (.integer t) n = if s = t then n else s.wrap n := by
  by_cases h : s = t
  · subst h
    simp [reread, isIdentityCast]
  · obtain ⟨bits, signed⟩ := s
    obtain rfl : signed = t.signed := hsigned
    have hid : isIdentityCast (.integer ⟨bits, t.signed⟩) (.integer t) = false := by
      simp [isIdentityCast, h, isRational]
    simp [reread, hid, h, interpretation?]

/-! ## Expressions -/

/-- Variables have the types of their parameters and values in their ranges. -/
def Environment.Agrees (env : Environment) (params : List Parameter)
    (vars : UInt64 → Option Int) : Prop :=
  ∀ declaration ty n, env declaration = some (ty, n) →
    vars declaration = some n ∧ (∃ p ∈ params, p.declaration = declaration ∧ p.ty = ty) ∧
      ∀ t, ty = .integer t → t.holds n = true

/-- **In a well-typed expression, the meaning of the code and the reference value have the same
digits.**

**Proof sketch.** Induction on the expression.  A literal that is in range is written in the type
that is expected, and a variable is widened with its own sign, which keeps its value.  The operands
of arithmetic have the digits of their reference values in the type of the operation, and so has the
result, because digits of sums and products only depend on digits (`IntegerType.wrap_eval`). -/
theorem Expression.wrap_meaning {params : List Parameter} {env : Environment}
    {vars : UInt64 → Option Int} (henv : env.Agrees params vars) (e : Expression)
    {t : IntegerType} (htyped : e.WellTyped params t) {n : Int}
    (h : e.meaning env (.integer t) = some n) :
    ∃ v, e.value vars = some v ∧ t.wrap n = t.wrap v := by
  induction e generalizing t n with
  | literal text ty src =>
    cases hv : ty.wholeValue? with
    | none => simp [meaning, hv] at h
    | some v =>
      have hholds := htyped v hv
      have htarget : literalTarget ty (.integer t) = .integer t := by
        simp [literalTarget, hv, hholds]
      simp only [meaning, hv, htarget, Option.bind_eq_bind, Option.bind_some,
        SemanticType.reread_integer rfl, ↓reduceIte, Option.pure_def, Option.some.injEq] at h
      exact ⟨v, hv, by rw [h]⟩
  | identifier name declaration ty src =>
    cases hd : env declaration with
    | none => simp [meaning, hd] at h
    | some q =>
      obtain ⟨ty', k⟩ := q
      obtain ⟨hvar, ⟨p, hp, hpd, rfl⟩, hholds⟩ := henv declaration ty' k hd
      obtain ⟨s, hs, hsigned⟩ := htyped p hp hpd
      simp only [meaning, hd, Option.bind_eq_bind, Option.bind_some, hs,
        SemanticType.reread_integer hsigned, IntegerType.wrap_of_holds (hholds s hs), ite_self,
        Option.pure_def, Option.some.injEq] at h
      exact ⟨k, hvar, by rw [h]⟩
  | binary operator left right ty src ihl ihr =>
    obtain ⟨s, rfl, hsigned, hleft, hright⟩ := htyped
    simp only [meaning, Option.bind_eq_bind, Option.bind_eq_some_iff, Option.pure_def,
      Option.some.injEq] at h
    obtain ⟨op, hop, a, ha, b, hb, rfl⟩ := h
    obtain ⟨va, hva, hwa⟩ := ihl hleft ha
    obtain ⟨vb, hvb, hwb⟩ := ihr hright hb
    have hsame : s.wrap (op.eval a b) = s.wrap (op.eval va vb) := by
      rw [← s.wrap_eval op a b, hwa, hwb, s.wrap_eval]
    refine ⟨s.wrap (op.eval va vb), by simp [value, hop, hva, hvb], ?_⟩
    rw [SemanticType.reread_integer hsigned]
    split
    · rename_i heq
      rw [← heq, hsame, s.wrap_wrap]
    · rw [hsame]

/-! ## Arguments -/

/-- Where declarations are distinct, a variable is bound to the argument of its parameter.

**Proof sketch.** Induction on the parameters.  Later ones bind over earlier ones, but as
declarations are distinct, the first parameter with the declaration is the only one. -/
theorem Environment.bindAll_eq {ps : List Parameter} {ns : List Int} {env : Environment}
    (hdistinct : (ps.map Parameter.declaration).Nodup) (d : UInt64) :
    env.bindAll ps ns d =
      (((ps.zip ns).find? fun q => q.1.declaration == d).map fun q => (q.1.ty, q.2)).or
        (env d) := by
  induction ps generalizing ns env with
  | nil => simp [bindAll]
  | cons p ps ih =>
    cases ns with
    | nil => simp [bindAll]
    | cons n ns =>
      rw [List.map_cons, List.nodup_cons] at hdistinct
      rw [bindAll, ih hdistinct.2, List.zip_cons_cons, List.find?_cons]
      by_cases hd : p.declaration = d
      · have hnone : ((ps.zip ns).find? fun q => q.1.declaration == d) = none := by
          rw [List.find?_eq_none]
          rintro ⟨q, k⟩ hq heq
          have hmem := List.mem_map_of_mem (f := Parameter.declaration) (List.of_mem_zip hq).1
          rw [hd, ← (by simpa using heq : q.declaration = d)] at hdistinct
          exact hdistinct.1 hmem
        simp [hnone, hd, bind]
      · have hne : (p.declaration == d) = false := beq_eq_false_iff_ne.2 hd
        have hd' : d ≠ p.declaration := fun h => hd h.symm
        simp [hne, hd', bind]

/-- Arguments in the ranges of the parameters. -/
theorem holds_of_mem_zip {ps : List Parameter} {types : List IntegerType} {args : List Int}
    (hparams : List.Forall₂ (fun p t => p.ty = .integer t) ps types)
    (hargs : List.Forall₂ (fun t n => t.holds n = true) types args) {p : Parameter} {n : Int}
    (hmem : (p, n) ∈ ps.zip args) {t : IntegerType} (ht : p.ty = .integer t) :
    t.holds n = true := by
  induction hparams generalizing args with
  | nil => cases hmem
  | cons hty _ ih =>
    cases hargs with
    | cons hholds hrest =>
      rcases List.mem_cons.1 hmem with heq | hmem
      · obtain ⟨rfl, rfl⟩ := Prod.mk.inj heq
        obtain rfl := SemanticType.integer.inj (hty.symm.trans ht)
        exact hholds
      · exact ih hrest hmem

/-- The environment of a call has the types of the parameters and the values of the arguments. -/
theorem Function.WellTyped.agrees {f : Function} {types : List IntegerType} {result : IntegerType}
    {args : List Int} (h : f.WellTyped types result)
    (hargs : List.Forall₂ (fun t n => t.holds n = true) types args) :
    (f.environment args).Agrees f.parameters (f.argument? args) := by
  intro d ty n hd
  rw [Function.environment, Environment.bindAll_eq h.distinct, Option.or_none,
    Option.map_eq_some_iff] at hd
  obtain ⟨⟨p, k⟩, hfind, heq⟩ := hd
  obtain ⟨rfl, rfl⟩ := Prod.mk.inj heq
  have hmem := List.mem_of_find?_eq_some hfind
  have hdecl := List.find?_some hfind
  exact ⟨by simp [Function.argument?, hfind],
    ⟨p, (List.of_mem_zip hmem).1, by simpa using hdecl, rfl⟩,
    fun _ => holds_of_mem_zip h.parameters hargs hmem⟩

/-- Parameters that are compiled are written as words of their types. -/
theorem encodes_zipWith {ps : List Parameter} {types : List IntegerType} {args : List Int}
    (hparams : List.Forall₂ (fun p t => p.ty = .integer t) ps types)
    (hlen : types.length = args.length) (hlowers : ∀ p ∈ ps, ∃ ty, Lowers p.ty ty) :
    List.Forall₂ (fun q w => Encodes q.1 q.2 w) (ps.zip args)
      (types.zipWith IntegerType.word args) := by
  induction hparams generalizing args with
  | nil => exact .nil
  | @cons p t _ _ hty _ ih =>
    cases args with
    | nil => cases hlen
    | cons n args =>
      obtain ⟨ty, hlow⟩ := hlowers p (by simp)
      obtain ⟨_, s, hs, rfl⟩ := lowerType_eq_ok (hlow .unknown)
      rw [hty, SemanticType.interpretation?, Option.some.injEq] at hs
      subst hs
      exact .cons ⟨hlow, rfl⟩ (ih (by simpa using hlen) fun q hq => hlowers q (by simp [hq]))

/-! ## Functions -/

/-- The parameters of a function that is compiled are compiled. -/
theorem Function.lowers_of_code {source : Source} {f : Function} {first : Nat} {c : FunctionCode}
    (h : f.code source first = .ok c) : ∀ p ∈ f.parameters, ∃ ty, Lowers p.ty ty := by
  intro p hp
  obtain ⟨_, inputs, _, _, hin, _⟩ := Function.code_eq_ok h
  obtain ⟨i, hi⟩ := List.mem_iff_getElem?.1 hp
  have hlt : i < inputs.length := by
    rw [length_of_mapM hin]
    exact (List.getElem?_eq_some_iff.1 hi).1
  exact ⟨_, lowers_of_mapM hin hi (List.getElem?_eq_getElem hlt)⟩

/-- **Lowering preserves meaning.**  A well-typed function of a lowered module returns, for all
arguments in the ranges of its parameters, the word of the reference value of the expression that it
returns.

**Proof sketch.** The function is found by name (`exists_site`), and calling it answers the word of
the meaning of its expression (`FunctionSite.In.call_eq`).  The meaning has the digits of the
reference value (`Expression.wrap_meaning`), and numbers with the same digits have the same word. -/
theorem lowerContracts_preserves_value {source : Source} {contracts : List Contract} {m : Module}
    (h : lowerContracts source contracts = .ok m) {c : Contract} (hc : c ∈ contracts)
    {f : Function} (hf : f ∈ c.functions) {types : List IntegerType} {result : IntegerType}
    (htyped : f.WellTyped types result) {args : List Int}
    (hargs : List.Forall₂ (fun t n => t.holds n = true) types args) :
    ∃ id e src v, m.functionIn? c.name f.name = some id ∧ f.body = [.ret (some e) src] ∧
      e.value (f.argument? args) = some v ∧
      Level.high.call m id (types.zipWith IntegerType.word args) = some [result.word v] := by
  obtain ⟨_, hlayout, site, hsite, s, hs, hof, hfound⟩ := exists_site h hc hf
  have hin := ((hlayout.sites site hsite).functions s hs).1
  have hlen : args.length = f.parameters.length := by
    rw [htyped.parameters.length_eq, hargs.length_eq]
  have hwords := encodes_zipWith htyped.parameters hargs.length_eq (Function.lowers_of_code hof)
  rcases hin.call_eq hof hlen hwords with ⟨hnone, _⟩ |
    ⟨p, e, src, w, n, hret, hbody, hw, hmeaning, hcall⟩
  · have hreturns := htyped.returns
    rw [hnone] at hreturns
    cases hreturns
  · have hp : p.ty = .integer result := by simpa [hret] using htyped.returns
    rw [hp] at hmeaning hw
    obtain rfl := hw.width_eq
    obtain ⟨v, hv, hwrap⟩ := e.wrap_meaning (htyped.agrees hargs)
      (htyped.body e src (by simp [hbody])) hmeaning
    refine ⟨s.id, e, src, v, hfound, hbody, hv, ?_⟩
    rw [hcall, ← (result.word_eq_word_iff n v).2 hwrap]
    rfl

/-- The function `f(uint8 a, uint16 b) returns (uint32) { return a * b + 7; }`, where the product
and the sum have type `uint16`. -/
def scaleFunction : Function where
  name := "f"
  parameters :=
    [{ declaration := 1, name := "a", ty := .integer ⟨8, false⟩ },
      { declaration := 2, name := "b", ty := .integer ⟨16, false⟩ }]
  returns := [{ declaration := 3, ty := .integer ⟨32, false⟩ }]
  body :=
    [.ret
      (some (.binary .add
        (.binary .mul (.identifier "a" 1 (.integer ⟨8, false⟩) {})
          (.identifier "b" 2 (.integer ⟨16, false⟩) {}) (.integer ⟨16, false⟩) {})
        (.literal "7" (.rational 7 1) {}) (.integer ⟨16, false⟩) {})) {}]

/-- A contract that has only this function. -/
def scaleContract : Contract where
  name := "C"
  functions := [scaleFunction]

/-- The type checker accepts the function. -/
theorem scaleFunction_wellTyped :
    scaleFunction.WellTyped [⟨8, false⟩, ⟨16, false⟩] ⟨32, false⟩ where
  parameters := .cons rfl (.cons rfl .nil)
  returns := rfl
  distinct := by decide
  body := by
    intro e src hmem
    obtain ⟨rfl, rfl⟩ : e = _ ∧ src = _ := by simpa [scaleFunction] using hmem
    refine ⟨⟨16, false⟩, rfl, rfl, ⟨⟨16, false⟩, rfl, rfl, ?_, ?_⟩, ?_⟩
    · simp [Expression.WellTyped, scaleFunction]
    · simp [Expression.WellTyped, scaleFunction]
    · intro v hv
      obtain rfl : (7 : Int) = v := by
        simpa [SemanticType.wholeValue?, SemanticType.isFractional] using hv
      decide

/-- The product of 200 and 500 wraps around in 16 bits, and the sum is widened afterwards. -/
theorem scaleFunction_returns :
    ∃ m id, lowerContracts emptySource [scaleContract] = .ok m ∧
      m.functionIn? "C" "f" = some id ∧
      Level.high.call m id [⟨8, 200⟩, ⟨16, 500⟩] = some [⟨32, 34471⟩] := by
  have hok : (lowerContracts emptySource [scaleContract]).isOk = true := by
    decide +kernel
  have hargs : List.Forall₂ (fun (t : IntegerType) n => t.holds n = true) [⟨8, false⟩, ⟨16, false⟩]
      [200, 500] := .cons (by decide) (.cons (by decide) .nil)
  cases h : lowerContracts emptySource [scaleContract] with
  | error e =>
    rw [h] at hok
    cases hok
  | ok m =>
    obtain ⟨id, e, src, v, hfound, hbody, hv, hcall⟩ := lowerContracts_preserves_value h
      (List.mem_singleton_self _) (List.mem_singleton_self _) scaleFunction_wellTyped hargs
    obtain ⟨rfl, rfl⟩ : _ = e ∧ _ = src := by simpa [scaleFunction] using hbody
    obtain rfl : (34471 : Int) = v := Option.some.inj hv
    exact ⟨m, id, rfl, hfound, hcall⟩

end ContractIR
