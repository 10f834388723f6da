import ContractIR.Lowering.Function
import ContractIR.Proofs.Code.Typing
import ContractIR.Proofs.Outcome

/-!
# The code of an expression

What the lowering of expressions writes, as data: the lines and the value that they leave, or the
reason why there are none.  Nothing here looks at a module: the number of the next value is all that
code depends on.

## Main definitions

* `ContractIR.Lowers` — a source type is compiled as a type, wherever it stands.
* `ContractIR.castCode`, `ContractIR.convertCode` — the code of a conversion.
* `ContractIR.Expression.code` — the code of an expression in a given type.

## Main results

* `ContractIR.Expression.code_typed` — the code of an expression is well typed and leaves a value of
  the type that is expected.
* `ContractIR.Expression.forall_mem_code` — induction over the lines of an expression's code.
-/

set_option autoImplicit false

namespace ContractIR

/-! ## Lowered types -/

/-- A source type is compiled as a type, wherever it stands. -/
def Lowers (ty : SemanticType) (lowered : Ty) : Prop :=
  ∀ location, lowerType ty location = .ok lowered

/-- The smallest type of a number has a width that is compiled. -/
theorem isSupportedWidth_of_smallest? {v : Int} {t : IntegerType}
    (h : SemanticType.smallest? v = some t) : isSupportedWidth t.bits = true := by
  unfold SemanticType.smallest? at h
  split at h
  · simp at h
  · rename_i hdigits
    simp only [Option.some.injEq] at h
    subst h
    simp only [wordBits, Nat.not_lt] at hdigits
    have hbytes : (SemanticType.digitsOf v + 7) / 8 ≤ 32 := by omega
    simp only [isSupportedWidth, wordBits, UInt16.toNat_ofNat', decide_eq_true_eq]
    split <;> omega

/-- A type that is compiled has an interpretation, and its width is that of the interpretation.

**Proof sketch.** By the type: integers of a supported width and fractions with an interpretation
are compiled, and neither depends on the location. -/
theorem lowerType_eq_ok {ty : SemanticType} {location : Location} {lowered : Ty}
    (h : lowerType ty location = .ok lowered) :
    Lowers ty lowered ∧ ∃ t, ty.interpretation? = some t ∧ lowered = .int t.bits.toNat := by
  cases ty with
  | integer t =>
    by_cases hw : isSupportedWidth t.bits = true
    · simp only [lowerType, hw, ↓reduceIte, Except.ok.injEq] at h
      subst h
      exact ⟨fun _ => by simp [lowerType, hw], t, rfl, rfl⟩
    · simp [lowerType, hw] at h
  | rational n d =>
    by_cases hf : SemanticType.isFractional (.rational n d) = true
    · simp [lowerType, hf] at h
    · cases ht : SemanticType.interpretation? (.rational n d) with
      | none => simp [lowerType, hf, ht] at h
      | some t =>
        simp only [lowerType, hf, ht, Bool.false_eq_true, ↓reduceIte, Except.ok.injEq] at h
        subst h
        exact ⟨fun _ => by simp [lowerType, hf, ht], t, rfl, rfl⟩
  | bool | address => simp [lowerType] at h

/-- Values that already are values of the target have its lowered type.

**Proof sketch.** Either the types are the same, or a fraction is converted to the integer type
that interprets it, and that type has a supported width. -/
theorem Lowers.of_isIdentityCast {source target : SemanticType} {lowered : Ty}
    (h : Lowers source lowered) (hid : isIdentityCast source target = true) :
    Lowers target lowered := by
  unfold isIdentityCast at hid
  split at hid
  · rename_i heq
    exact heq ▸ h
  · cases target with
    | integer t =>
      simp only [Bool.and_eq_true, Bool.not_eq_true', decide_eq_true_eq] at hid
      obtain ⟨⟨hrat, _⟩, hint⟩ := hid
      cases source with
      | rational n d =>
        obtain ⟨s, hs, rfl⟩ := (lowerType_eq_ok (h .unknown)).2
        obtain rfl : s = t := by simpa [hint] using hs.symm
        obtain ⟨v, _, hsmall⟩ : ∃ v, SemanticType.wholeValue? (.rational n d) = some v ∧
            SemanticType.smallest? v = some s := by
          simpa [SemanticType.interpretation?, Option.bind_eq_some_iff] using hint
        intro location
        simp [lowerType, isSupportedWidth_of_smallest? hsmall]
      | integer | bool | address => simp [SemanticType.isRational] at hrat
    | rational | bool | address => simp at hid

/-! ## Conversions -/

/-- The code that converts a value between types: nothing, or one extension. -/
def castCode (location : Location) (next : Nat) (v : ValueId) (source target : SemanticType) :
    Except CompileError (List CodeLine × ValueId) :=
  if isIdentityCast source target then .ok ([], v)
  else
    match source.interpretation?, target.interpretation? with
    | some s, some t =>
      if t.bits.toNat ≤ s.bits.toNat then
        .error (.unsupported (.narrowing source target) location)
      else do
        let ty ← lowerType target location
        return ([⟨.extend t.signed v ty, location⟩], ⟨next⟩)
    | _, _ => .error (.unsupported (.cast source target) location)

/-- The code that converts a value to the type that is expected. -/
def convertCode (location : Location) (next : Nat) (v : ValueId) (own expected : SemanticType) :
    Except CompileError (List CodeLine × ValueId) :=
  if expected = own then .ok ([], v) else castCode location next v own expected

/-- The two ways to cast a value: its type is compiled like the other one, or it is widened.

**Proof sketch.** The branches that succeed: the cast is the identity, or both types have
interpretations and the target is wider. -/
theorem castCode_eq_ok {location : Location} {next : Nat} {v w : ValueId}
    {own expected : SemanticType} {code : List CodeLine}
    (h : castCode location next v own expected = .ok (code, w)) :
    (isIdentityCast own expected = true ∧ code = [] ∧ w = v) ∨
      ∃ s t ty, isIdentityCast own expected = false ∧
        own.interpretation? = some s ∧ expected.interpretation? = some t ∧
        s.bits.toNat < t.bits.toNat ∧ lowerType expected location = .ok ty ∧
        code = [⟨.extend t.signed v ty, location⟩] ∧ w = ⟨next⟩ := by
  unfold castCode at h
  split at h
  · rename_i hid
    cases h
    exact .inl ⟨hid, rfl, rfl⟩
  · rename_i hid
    split at h
    · rename_i s t hs ht
      split at h
      · cases h
      · rename_i hwidth
        obtain ⟨ty, hty, h⟩ := Outcome.bind_eq_ok.1 h
        cases h
        exact .inr ⟨s, t, ty, Bool.eq_false_iff.2 hid, hs, ht, Nat.lt_of_not_le hwidth, hty, rfl,
          rfl⟩
    · cases h

/-- The two ways to convert a value: its type is the one that is expected, or compiled like it, or
the value is widened. -/
theorem convertCode_eq_ok {location : Location} {next : Nat} {v w : ValueId}
    {own expected : SemanticType} {code : List CodeLine}
    (h : convertCode location next v own expected = .ok (code, w)) :
    (isIdentityCast own expected = true ∧ code = [] ∧ w = v) ∨
      ∃ s t ty, isIdentityCast own expected = false ∧
        own.interpretation? = some s ∧ expected.interpretation? = some t ∧
        s.bits.toNat < t.bits.toNat ∧ lowerType expected location = .ok ty ∧
        code = [⟨.extend t.signed v ty, location⟩] ∧ w = ⟨next⟩ := by
  rw [convertCode] at h
  split at h
  · rename_i heq
    subst heq
    cases h
    exact .inl ⟨by simp [isIdentityCast], rfl, rfl⟩
  · exact castCode_eq_ok h

/-- The code of a conversion is well typed and leaves a value of the type that is expected. -/
theorem convertCode_typed (results : List Ty) {location : Location} {next : Nat} {v w : ValueId}
    {own expected : SemanticType} {code : List CodeLine} {Γ : Context} {lowered : Ty}
    (h : convertCode location next v own expected = .ok (code, w)) (hown : Lowers own lowered)
    (hv : Γ v = some lowered) :
    CodeTyped results Γ next code ∧
      ∃ ty, Lowers expected ty ∧ Γ.after next code w = some ty := by
  rcases convertCode_eq_ok h with ⟨hid, rfl, rfl⟩ | ⟨s, t, ty, _, hs, ht, hlt, hty, rfl, rfl⟩
  · exact ⟨trivial, lowered, hown.of_isIdentityCast hid, hv⟩
  · obtain ⟨htarget, t', ht', rfl⟩ := lowerType_eq_ok hty
    obtain ⟨s', hs', rfl⟩ := (lowerType_eq_ok (hown location)).2
    rw [ht] at ht'
    rw [hs] at hs'
    cases ht'
    cases hs'
    exact ⟨⟨.extend _ hv hlt, trivial⟩, _, htarget, by simp [Context.after, Instr.result?]⟩

/-! ## Expressions -/

/-- The arithmetic behind an operator. -/
def BinaryOperator.arithmetic? : BinaryOperator → Option Arithmetic
  | .add => some .add
  | .mul => some .mul
  | _ => none

/-- The code of arithmetic on two values of type `ty`, and of the conversion of its result. -/
def operationCode (source : Source) (op : Arithmetic) (next : Nat) (lhs rhs : ValueId)
    (ty : SemanticType) (src : SourceRange) (expected : SemanticType) :
    Except CompileError (List CodeLine × ValueId) := do
  let location ← locate source src
  let lowered ← lowerType ty location
  let (more, v) ← convertCode location (next + 1) ⟨next⟩ ty expected
  return (⟨.arith op lhs rhs lowered, location⟩ :: more, v)

/-- The code of an expression, converted to the type that is expected, and the value that it leaves.
Results are numbered from `next` on. -/
def Expression.code (source : Source) (cells : Cells) :
    Expression → Nat → SemanticType → Except CompileError (List CodeLine × ValueId)
  | .literal text ty src, next, expected => do
    let location ← locate source src
    let target := literalTarget ty expected
    let lowered ← lowerType target location
    match ty.wholeValue? with
    | none => .error (.unsupported (.literal text ty) location)
    | some n => do
      let (more, v) ← convertCode location (next + 1) ⟨next⟩ target expected
      return (⟨.constant n lowered, location⟩ :: more, v)
  | .identifier name declaration _ src, next, expected => do
    let location ← locate source src
    match cells.lookup? declaration with
    | none => .error (.unsupported (.notParameter name) location)
    | some cell => do
      let lowered ← lowerType cell.ty location
      let (more, v) ← convertCode location (next + 1) ⟨next⟩ cell.ty expected
      return (⟨.load cell.address lowered, location⟩ :: more, v)
  | .binary operator left right ty src, next, expected =>
    match operator.arithmetic? with
    | none => do
      let location ← locate source src
      .error (.unsupported (.operator operator) location)
    | some op => do
      let (leftCode, lhs) ← left.code source cells next ty
      let (rightCode, rhs) ← right.code source cells (next + codeCount leftCode) ty
      let (more, v) ← operationCode source op (next + codeCount leftCode + codeCount rightCode) lhs
        rhs ty src expected
      return (leftCode ++ (rightCode ++ more), v)

/-- How a literal is compiled. -/
theorem Expression.code_literal_eq_ok {source : Source} {cells : Cells} {text : String}
    {ty expected : SemanticType} {src : SourceRange} {next : Nat} {code : List CodeLine}
    {v : ValueId}
    (h : (Expression.literal text ty src).code source cells next expected = .ok (code, v)) :
    ∃ location lowered n more, locate source src = .ok location ∧
      lowerType (literalTarget ty expected) location = .ok lowered ∧ ty.wholeValue? = some n ∧
      convertCode location (next + 1) ⟨next⟩ (literalTarget ty expected) expected = .ok (more, v) ∧
      code = ⟨.constant n lowered, location⟩ :: more := by
  obtain ⟨location, hloc, h⟩ := Outcome.bind_eq_ok.1 h
  obtain ⟨lowered, hlow, h⟩ := Outcome.bind_eq_ok.1 h
  cases hn : ty.wholeValue? with
  | none => simp [hn] at h
  | some n =>
    simp only [hn] at h
    obtain ⟨⟨more, w⟩, hmore, h⟩ := Outcome.bind_eq_ok.1 h
    simp only [pure, Except.pure, Except.ok.injEq, Prod.mk.injEq] at h
    obtain ⟨rfl, rfl⟩ := h
    exact ⟨location, lowered, n, more, hloc, hlow, rfl, hmore, rfl⟩

/-- How a variable is compiled. -/
theorem Expression.code_identifier_eq_ok {source : Source} {cells : Cells} {name : String}
    {declaration : UInt64} {ty expected : SemanticType} {src : SourceRange} {next : Nat}
    {code : List CodeLine} {v : ValueId}
    (h : (Expression.identifier name declaration ty src).code source cells next expected =
      .ok (code, v)) :
    ∃ location cell lowered more, locate source src = .ok location ∧
      cells.lookup? declaration = some cell ∧ lowerType cell.ty location = .ok lowered ∧
      convertCode location (next + 1) ⟨next⟩ cell.ty expected = .ok (more, v) ∧
      code = ⟨.load cell.address lowered, location⟩ :: more := by
  obtain ⟨location, hloc, h⟩ := Outcome.bind_eq_ok.1 h
  cases hcell : cells.lookup? declaration with
  | none => simp [hcell] at h
  | some cell =>
    simp only [hcell] at h
    obtain ⟨lowered, hlow, h⟩ := Outcome.bind_eq_ok.1 h
    obtain ⟨⟨more, w⟩, hmore, h⟩ := Outcome.bind_eq_ok.1 h
    simp only [pure, Except.pure, Except.ok.injEq, Prod.mk.injEq] at h
    obtain ⟨rfl, rfl⟩ := h
    exact ⟨location, cell, lowered, more, hloc, rfl, hlow, hmore, rfl⟩

/-- How arithmetic is compiled: the operands from left to right, the operation, the conversion.

**Proof sketch.** The operator is an arithmetic one, and the code is taken apart step by step,
each of which succeeded. -/
theorem Expression.code_binary_eq_ok {source : Source} {cells : Cells} {operator : BinaryOperator}
    {left right : Expression} {ty expected : SemanticType} {src : SourceRange} {next : Nat}
    {code : List CodeLine} {v : ValueId}
    (h : (Expression.binary operator left right ty src).code source cells next expected =
      .ok (code, v)) :
    ∃ op leftCode lhs rightCode rhs location lowered more,
      operator.arithmetic? = some op ∧ left.code source cells next ty = .ok (leftCode, lhs) ∧
      right.code source cells (next + codeCount leftCode) ty = .ok (rightCode, rhs) ∧
      locate source src = .ok location ∧ lowerType ty location = .ok lowered ∧
      convertCode location (next + codeCount leftCode + codeCount rightCode + 1)
        ⟨next + codeCount leftCode + codeCount rightCode⟩ ty expected = .ok (more, v) ∧
      code = leftCode ++ (rightCode ++ ⟨.arith op lhs rhs lowered, location⟩ :: more) := by
  cases hop : operator.arithmetic? with
  | none =>
    simp only [Expression.code, hop] at h
    obtain ⟨location, _, h⟩ := Outcome.bind_eq_ok.1 h
    simp at h
  | some op =>
    simp only [Expression.code, hop] at h
    obtain ⟨⟨leftCode, lhs⟩, hleft, h⟩ := Outcome.bind_eq_ok.1 h
    obtain ⟨⟨rightCode, rhs⟩, hright, h⟩ := Outcome.bind_eq_ok.1 h
    obtain ⟨⟨rest, w⟩, hrest, h⟩ := Outcome.bind_eq_ok.1 h
    simp only [pure, Except.pure, Except.ok.injEq, Prod.mk.injEq] at h
    obtain ⟨rfl, rfl⟩ := h
    obtain ⟨location, hloc, hrest⟩ := Outcome.bind_eq_ok.1 hrest
    obtain ⟨lowered, hlow, hrest⟩ := Outcome.bind_eq_ok.1 hrest
    obtain ⟨⟨more, w'⟩, hmore, hrest⟩ := Outcome.bind_eq_ok.1 hrest
    simp only [pure, Except.pure, Except.ok.injEq, Prod.mk.injEq] at hrest
    obtain ⟨rfl, rfl⟩ := hrest
    exact ⟨op, leftCode, lhs, rightCode, rhs, location, lowered, more, rfl, hleft, hright, hloc,
      hlow, hmore, rfl⟩

/-- Every bound cell is known, and holds values of its variable's type. -/
def Cells.Typed (cells : Cells) (Γ : Context) : Prop :=
  ∀ declaration cell, cells.lookup? declaration = some cell →
    ∃ ty, Lowers cell.ty ty ∧ Γ cell.address = some (.memref ty)

/-- Cells stay known while more becomes known. -/
theorem Cells.Typed.mono {cells : Cells} {Γ Δ : Context} (h : cells.Typed Γ) (hle : Γ.Le Δ) :
    cells.Typed Δ := by
  intro declaration cell hcell
  obtain ⟨ty, hty, hΓ⟩ := h declaration cell hcell
  exact ⟨ty, hty, hle _ _ hΓ⟩

/-- **The code of an expression is well typed** and leaves a value of the type that is expected.

**Proof sketch.** Induction on the expression.  A literal is written in a type that it is lowered
in, a variable has the type of its cell, and the operands of arithmetic are both left in the type of
the operation by the induction hypotheses; what remains is the conversion (`convertCode_typed`). -/
theorem Expression.code_typed {source : Source} {cells : Cells} (results : List Ty)
    (e : Expression) {Γ : Context} {next : Nat} {expected : SemanticType} {code : List CodeLine}
    {v : ValueId} (h : e.code source cells next expected = .ok (code, v)) (hcells : cells.Typed Γ)
    (hbelow : Γ.Below next) :
    CodeTyped results Γ next code ∧
      ∃ ty, Lowers expected ty ∧ Γ.after next code v = some ty := by
  induction e generalizing Γ next expected code v with
  | literal text ty src =>
    obtain ⟨location, lowered, n, more, _, hlow, _, hmore, rfl⟩ := Expression.code_literal_eq_ok h
    obtain ⟨hlowers, t, _, rfl⟩ := lowerType_eq_ok hlow
    obtain ⟨hcode, hv⟩ := convertCode_typed results hmore hlowers
      (Γ := Γ.add next (some (.int t.bits.toNat))) (by simp)
    exact ⟨⟨.constant n _, hcode⟩, hv⟩
  | identifier name declaration ty src =>
    obtain ⟨location, cell, lowered, more, _, hcell, hlow, hmore, rfl⟩ :=
      Expression.code_identifier_eq_ok h
    obtain ⟨ty', hty', hΓ⟩ := hcells declaration cell hcell
    obtain rfl : ty' = lowered := by simpa [hty' location] using hlow
    obtain ⟨hcode, hv⟩ := convertCode_typed results hmore hty'
      (Γ := Γ.add next (some ty')) (by simp)
    exact ⟨⟨.load hΓ, hcode⟩, hv⟩
  | binary operator left right ty src ihl ihr =>
    obtain ⟨op, leftCode, lhs, rightCode, rhs, location, lowered, more, _, hleft, hright, _, hlow,
      hmore, rfl⟩ := Expression.code_binary_eq_ok h
    obtain ⟨hlcode, tl, htl, hlhs⟩ := ihl hleft hcells hbelow
    have hbelow' := hbelow.after leftCode
    obtain ⟨hrcode, tr, htr, hrhs⟩ :=
      ihr hright (hcells.mono (hbelow.le_after leftCode)) hbelow'
    have hlhs' := hbelow'.le_after rightCode _ _ hlhs
    obtain ⟨hlowers, t, _, rfl⟩ := lowerType_eq_ok hlow
    obtain rfl : tl = .int t.bits.toNat := by simpa [htl location] using hlow
    obtain rfl : tr = .int t.bits.toNat := by simpa [htr location] using hlow
    obtain ⟨hcode, hv⟩ := convertCode_typed results hmore hlowers
      (Γ := ((Γ.after next leftCode).after (next + codeCount leftCode) rightCode).add
        (next + codeCount leftCode + codeCount rightCode) (some (.int t.bits.toNat))) (by simp)
    refine ⟨codeTyped_append.2 ⟨hlcode, ?_⟩, ?_⟩
    · exact codeTyped_append.2 ⟨hrcode, .arith op hlhs' hrhs, hcode⟩
    · rw [Context.after_append, Context.after_append]
      exact hv

/-- **Induction over the lines of an expression's code.**  Lines are constants, loads from cells of
variables, and arithmetic and extensions of values that earlier lines left.

**Proof sketch.** Induction on the expression.  A conversion adds nothing, or an extension of the
value in front of it (`convertCode_eq_ok`); the lines of both sides of an operator are covered by
induction, and their values are those the operator reads. -/
theorem Expression.forall_mem_code {source : Source} {cells : Cells} {P : Instr → Prop}
    {Q : ValueId → Prop} (hconstant : ∀ n ty, P (.constant n ty))
    (hload : ∀ d cell ty, cells.lookup? d = some cell → P (.load cell.address ty))
    (harith : ∀ op lhs rhs ty, Q lhs → Q rhs → P (.arith op lhs rhs ty))
    (hextend : ∀ signed v ty, Q v → P (.extend signed v ty)) (e : Expression) {next : Nat}
    {expected : SemanticType} {code : List CodeLine} {v : ValueId}
    (hnew : ∀ k, next ≤ k → Q ⟨k⟩) (h : e.code source cells next expected = .ok (code, v)) :
    (∀ l ∈ code, P l.instr) ∧ Q v := by
  have hconvert : ∀ {location k x w own expected more}, Q x → Q ⟨k⟩ →
      convertCode location k x own expected = .ok (more, w) →
        (∀ l ∈ more, P l.instr) ∧ Q w := by
    intro location k x w own expected more hx hk hmore
    rcases convertCode_eq_ok hmore with ⟨_, rfl, rfl⟩ | ⟨_, t, ty, _, _, _, _, _, rfl, rfl⟩
    · exact ⟨by simp, hx⟩
    · exact ⟨by simpa using hextend t.signed x ty hx, hk⟩
  induction e generalizing next expected code v with
  | literal text ty src =>
    obtain ⟨location, lowered, n, more, _, _, _, hmore, rfl⟩ := Expression.code_literal_eq_ok h
    obtain ⟨hlines, hv⟩ := hconvert (hnew _ (Nat.le_refl _)) (hnew _ (Nat.le_succ _)) hmore
    exact ⟨List.forall_mem_cons.2 ⟨hconstant n lowered, hlines⟩, hv⟩
  | identifier name declaration ty src =>
    obtain ⟨location, cell, lowered, more, _, hcell, _, hmore, rfl⟩ :=
      Expression.code_identifier_eq_ok h
    obtain ⟨hlines, hv⟩ := hconvert (hnew _ (Nat.le_refl _)) (hnew _ (Nat.le_succ _)) hmore
    exact ⟨List.forall_mem_cons.2 ⟨hload declaration cell lowered hcell, hlines⟩, hv⟩
  | binary operator left right ty src ihl ihr =>
    obtain ⟨op, leftCode, lhs, rightCode, rhs, location, lowered, more, _, hleft, hright, _, _,
      hmore, rfl⟩ := Expression.code_binary_eq_ok h
    obtain ⟨hl, hlhs⟩ := ihl hnew hleft
    obtain ⟨hr, hrhs⟩ := ihr (fun k hk => hnew k (by omega)) hright
    obtain ⟨hlines, hv⟩ := hconvert (hnew _ (by omega)) (hnew _ (by omega)) hmore
    refine ⟨List.forall_mem_append.2 ⟨hl, List.forall_mem_append.2 ⟨hr, ?_⟩⟩, hv⟩
    exact List.forall_mem_cons.2 ⟨harith op lhs rhs lowered hlhs hrhs, hlines⟩

end ContractIR
