import ContractIR.Ast.Decode
import ContractIR.Ast.Encode
import ContractIR.Proofs.Json.Records

/-!
# Contracts as text and back

Contracts are written with every field and read by rules that let fields be left out, given by
place, or spelled in more than one way.  Reading what was written gives the same contracts, and
writing what was read from any text gives a text that is read as the same contracts.

Depth is what can get in the way: a written node has a place also where the text that it was read
from had none, and a place is one level deeper than its node.

## Main results

* `ContractIR.Contract.written_toJson` — contracts are written as values from data.
* `ContractIR.Contract.ofJson_toJson` — a contract is read from the value that it is written as.
* `ContractIR.Contract.nestsWithin_of_ofJson` — what was read fits where it was read.
* `ContractIR.readContracts_writeContracts` — reading undoes writing, on all texts that are
  accepted.
-/

set_option autoImplicit false

namespace ContractIR

open Outcome
open Json (Written)

/-! ## Nodes as values -/

/-- A number of 64 bits is written text. -/
@[simp] theorem Json.written_ofUInt64 (n : UInt64) : Written (.ofUInt64 n) := .number n.toNat_lt

/-- A number of 64 bits fits into any depth. -/
@[simp] theorem Json.nestsWithin_ofUInt64 (depth : Nat) (n : UInt64) :
    (Json.ofUInt64 n).nestsWithin depth = true := Json.nestsWithin_ofNat depth n.toNat

/-- A number of 64 bits is read back. -/
@[simp] theorem Read.uint64_ofUInt64 (n : UInt64) : Read.uint64 (.ofUInt64 n) = .ok n :=
  Read.uint64_ofNat n

attribute [simp] Json.Written.null Json.Written.bool Json.Written.text

/-- A range is written text. -/
@[simp] theorem SourceRange.written_toJson (r : SourceRange) : Written r.toJson :=
  .object (by simp)

/-- A type is written text. -/
@[simp] theorem SemanticType.written_toJson (t : SemanticType) : Written t.toJson := by
  cases t with
  | integer ty =>
    have hbits : Written (.ofNat ty.bits.toNat) :=
      .number (Nat.lt_trans ty.bits.toNat_lt (by decide))
    exact .object (by simp [hbits])
  | rational _ _ | bool | address => exact .object (by simp)

/-- An expression is written text. -/
@[simp] theorem Expression.written_toJson (e : Expression) : Written e.toJson := by
  induction e with
  | literal value ty src => exact .object (by simp)
  | identifier name declaration ty src => exact .object (by simp)
  | binary operator left right ty src ihl ihr => exact .object (by simp [ihl, ihr])

/-- The list of values of some statements. -/
theorem Statement.toJsons_eq_map : ∀ ss : List Statement,
    Statement.toJsons ss = ss.map Statement.toJson
  | [] => by rw [Statement.toJsons, List.map_nil]
  | s :: ss => by rw [Statement.toJsons, Statement.toJsons_eq_map ss, List.map_cons]

mutual

/-- A statement as a value is one from data. -/
theorem Statement.written_toJson : ∀ s : Statement, Written s.toJson
  | .ret e src => by
    rw [Statement.toJson]
    cases e <;> exact .object (by simp)
  | .block statements src => by
    have h := Written.array (Statement.written_toJsons statements)
    rw [Statement.toJson]
    exact .object (by simp [h])
  | .expression e src => by
    rw [Statement.toJson]
    exact .object (by simp)
  | .variableDeclaration src | .ifStatement src | .whileStatement src | .breakStatement src
  | .continueStatement src => by
    rw [Statement.toJson]
    exact .object (by simp)

/-- Statements as values are ones from data. -/
theorem Statement.written_toJsons : ∀ ss : List Statement, ∀ j ∈ Statement.toJsons ss, Written j
  | [] => by simp [Statement.toJsons]
  | s :: ss => by
    rw [Statement.toJsons, List.forall_mem_cons]
    exact ⟨s.written_toJson, Statement.written_toJsons ss⟩

end

/-- A parameter is written text. -/
@[simp] theorem Parameter.written_toJson (p : Parameter) : Written p.toJson :=
  .object (by simp)

/-- Members of a list as values are ones from data. -/
theorem Json.written_map {α : Type} {write : α → Json} (h : ∀ x, Written (write x)) (xs : List α) :
    Written (.array (xs.map write)) :=
  .array (List.forall_mem_map.2 fun x _ => h x)

/-- A function is written text. -/
@[simp] theorem Function.written_toJson (f : Function) : Written f.toJson := by
  have hparameters := Json.written_map Parameter.written_toJson
  have hbody := Json.written_map Statement.written_toJson f.body
  exact .object (by simp [hparameters, hbody])

/-- A contract is written text. -/
@[simp] theorem Contract.written_toJson (c : Contract) : Written c.toJson := by
  have hfunctions := Json.written_map Function.written_toJson c.functions
  exact .object (by simp [hfunctions])

/-! ## Values as nodes -/

/-- A range is one object of numbers, so it nests one deep. -/
@[simp] theorem SourceRange.nestsWithin_toJson (depth : Nat) (r : SourceRange) :
    r.toJson.nestsWithin depth = true ↔ 0 < depth := by
  simp [SourceRange.toJson]

/-- A type is one object of plain values, so it nests one deep. -/
@[simp] theorem SemanticType.nestsWithin_toJson (depth : Nat) (t : SemanticType) :
    t.toJson.nestsWithin depth = true ↔ 0 < depth := by
  cases t <;> simp [SemanticType.toJson]

/-- A stretch of text is read back. -/
theorem SourceRange.ofJson_toJson {depth : Nat} (h : 0 < depth) (r : SourceRange) :
    SourceRange.ofJson depth r.toJson = .ok r := by
  obtain ⟨below, rfl⟩ := Nat.exists_eq_succ_of_ne_zero h.ne'
  rw [SourceRange.ofJson, SourceRange.toJson, Fields.ofJson_ofMembers (by simp)]
  simp

/-- A type is read back. -/
theorem SemanticType.ofJson_toJson {depth : Nat} (h : 0 < depth) (inner : Bool) (t : SemanticType) :
    SemanticType.ofJson inner depth t.toJson = .ok t := by
  have hdepth := (t.nestsWithin_toJson depth).2 h
  have hwritten := t.written_toJson
  cases t with
  | integer _ | rational _ _ | bool | address =>
    rw [SemanticType.toJson] at hdepth hwritten ⊢
    rw [SemanticType.ofJson, Variant.ofJson_ofMembers tags inner hwritten hdepth (by simp)]
    simp [Variant.fields_of_nodup]

/-- An operator is read back. -/
theorem BinaryOperator.ofJson_symbol (o : BinaryOperator) :
    BinaryOperator.ofJson (.ofText o.symbol) = .ok o := by
  have htext := Read.text_ofText o.symbol
  simp only [Json.ofText] at htext ⊢
  simp only [BinaryOperator.ofJson, htext, ok_bind, ofSymbol?_symbol]
  rfl

/-- An expression is read back.

**Proof sketch.** Induction on the expression.  `Variant.exists_ofJson_ofMembers` finds the tag
again and leaves the depth below it; the two sides of a binary expression are read back by
induction, the type and the place by their own lemmas. -/
theorem Expression.ofJson_toJson (e : Expression) {depth : Nat}
    (h : e.toJson.nestsWithin depth = true) : Expression.ofJson depth e.toJson = .ok e := by
  have hwritten := e.written_toJson
  induction e generalizing depth with
  | literal value ty src =>
    rw [Expression.toJson] at h hwritten ⊢
    obtain ⟨below, rfl, hparts, hvariant⟩ :=
      Variant.exists_ofJson_ofMembers tags true hwritten h (by simp)
    have hbelow : 0 < below := by simpa using hparts
    rw [Expression.ofJson, hvariant]
    simp [Variant.fields_of_nodup, SemanticType.ofJson_toJson hbelow,
      SourceRange.ofJson_toJson hbelow]
  | identifier name declaration ty src =>
    rw [Expression.toJson] at h hwritten ⊢
    obtain ⟨below, rfl, hparts, hvariant⟩ :=
      Variant.exists_ofJson_ofMembers tags true hwritten h (by simp)
    have hbelow : 0 < below := by simpa using hparts
    rw [Expression.ofJson, hvariant]
    simp [Variant.fields_of_nodup, SemanticType.ofJson_toJson hbelow,
      SourceRange.ofJson_toJson hbelow]
  | binary operator left right ty src ihl ihr =>
    rw [Expression.toJson] at h hwritten ⊢
    obtain ⟨below, rfl, hparts, hvariant⟩ :=
      Variant.exists_ofJson_ofMembers tags true hwritten h (by simp)
    obtain ⟨hleft, hright, hbelow⟩ : left.toJson.nestsWithin below = true ∧
        right.toJson.nestsWithin below = true ∧ 0 < below := by simpa using hparts
    rw [Expression.ofJson, hvariant]
    simp [Variant.fields_of_nodup, SemanticType.ofJson_toJson hbelow,
      SourceRange.ofJson_toJson hbelow, BinaryOperator.ofJson_symbol,
      ihl hleft left.written_toJson, ihr hright right.written_toJson]

/-- An expression is not `null`. -/
theorem Expression.optionOfJson_toJson {e : Expression} {depth : Nat}
    (h : e.toJson.nestsWithin depth = true) :
    Expression.optionOfJson depth e.toJson = .ok (some e) := by
  have hread := e.ofJson_toJson h
  unfold Expression.optionOfJson
  split
  · rename_i hnull
    cases e <;> cases hnull
  · rw [hread]
    rfl

/-- A statement is read back.

**Proof sketch.** Strong induction on the depth, since the statements of a block stand two levels
below it: one for the object, one for the list.  The expression of a return is read back by
`Expression.optionOfJson_toJson`. -/
theorem Statement.ofJson_toJson (s : Statement) (inner : Bool) {depth : Nat}
    (h : s.toJson.nestsWithin depth = true) : Statement.ofJson inner depth s.toJson = .ok s := by
  have hwritten := s.written_toJson
  -- the statements of a block are two levels below it
  induction depth using Nat.strongRecOn generalizing s inner with
  | ind depth ih =>
    cases s with
    | ret e src =>
      rw [Statement.toJson] at h hwritten ⊢
      obtain ⟨below, rfl, hparts, hvariant⟩ :=
        Variant.exists_ofJson_ofMembers tags inner hwritten h (by simp)
      obtain ⟨he, hbelow⟩ : ((e.map Expression.toJson).getD .null).nestsWithin below = true ∧
          0 < below := by simpa using hparts
      have hread :
          Expression.optionOfJson below ((e.map Expression.toJson).getD .null) = .ok e := by
        cases e with
        | none => rfl
        | some e => exact Expression.optionOfJson_toJson he
      rw [Statement.ofJson, hvariant]
      simp [Variant.fields_of_nodup, SourceRange.ofJson_toJson hbelow, hread]
    | block statements src =>
      rw [Statement.toJson, Statement.toJsons_eq_map] at h hwritten ⊢
      obtain ⟨below, rfl, hparts, hvariant⟩ :=
        Variant.exists_ofJson_ofMembers tags inner hwritten h (by simp)
      obtain ⟨⟨-, hstatements⟩, hbelow⟩ : (0 < below ∧
          ∀ s ∈ statements, s.toJson.nestsWithin (below - 1) = true) ∧ 0 < below := by
        simpa using hparts
      obtain ⟨below, rfl⟩ := Nat.exists_eq_succ_of_ne_zero hbelow.ne'
      have hread : (statements.map Statement.toJson).mapM (Statement.ofJson true below) =
          .ok statements := Read.mapM_map fun s hs =>
        ih below (by omega) s true (hstatements s hs) s.written_toJson
      rw [Statement.ofJson, hvariant]
      simp [Variant.fields_of_nodup, SourceRange.ofJson_toJson hbelow, hread]
    | expression e src =>
      rw [Statement.toJson] at h hwritten ⊢
      obtain ⟨below, rfl, hparts, hvariant⟩ :=
        Variant.exists_ofJson_ofMembers tags inner hwritten h (by simp)
      obtain ⟨he, hbelow⟩ : e.toJson.nestsWithin below = true ∧ 0 < below := by simpa using hparts
      rw [Statement.ofJson, hvariant]
      simp [Variant.fields_of_nodup, SourceRange.ofJson_toJson hbelow, e.ofJson_toJson he]
    | variableDeclaration src | ifStatement src | whileStatement src | breakStatement src
    | continueStatement src =>
      rw [Statement.toJson] at h hwritten ⊢
      obtain ⟨below, rfl, hparts, hvariant⟩ :=
        Variant.exists_ofJson_ofMembers tags inner hwritten h (by simp)
      have hbelow : 0 < below := by simpa using hparts
      rw [Statement.ofJson, hvariant]
      simp [Variant.fields_of_nodup, SourceRange.ofJson_toJson hbelow]

/-- A parameter is read back. -/
theorem Parameter.ofJson_toJson (p : Parameter) {depth : Nat}
    (h : p.toJson.nestsWithin depth = true) : Parameter.ofJson depth p.toJson = .ok p := by
  rw [Parameter.toJson] at h ⊢
  obtain ⟨below, rfl, hparts⟩ := Json.exists_succ_of_nestsWithin h
  have hbelow : 0 < below := by simpa using hparts
  rw [Parameter.ofJson, Fields.ofJson_ofMembers (by simp)]
  simp [SemanticType.ofJson_toJson hbelow, SourceRange.ofJson_toJson hbelow]

/-- A function is read back. -/
theorem Function.ofJson_toJson (f : Function) {depth : Nat}
    (h : f.toJson.nestsWithin depth = true) : Function.ofJson depth f.toJson = .ok f := by
  rw [Function.toJson] at h ⊢
  obtain ⟨below, rfl, hparts⟩ := Json.exists_succ_of_nestsWithin h
  obtain ⟨⟨hbelow, hparameters⟩, ⟨-, hreturns⟩, ⟨-, hbody⟩, -⟩ :
      (0 < below ∧ ∀ p ∈ f.parameters, p.toJson.nestsWithin (below - 1) = true) ∧
      (0 < below ∧ ∀ p ∈ f.returns, p.toJson.nestsWithin (below - 1) = true) ∧
      (0 < below ∧ ∀ s ∈ f.body, s.toJson.nestsWithin (below - 1) = true) ∧ 0 < below := by
    simpa using hparts
  rw [Function.ofJson, Fields.ofJson_ofMembers (by simp)]
  simp [SourceRange.ofJson_toJson hbelow,
    Read.list_map hbelow fun p hp => Parameter.ofJson_toJson p (hparameters p hp),
    Read.list_map hbelow fun p hp => Parameter.ofJson_toJson p (hreturns p hp),
    Read.list_map hbelow fun s hs => Statement.ofJson_toJson s false (hbody s hs)]

/-- A contract is read back. -/
theorem Contract.ofJson_toJson (c : Contract) {depth : Nat}
    (h : c.toJson.nestsWithin depth = true) : Contract.ofJson depth c.toJson = .ok c := by
  rw [Contract.toJson] at h ⊢
  obtain ⟨below, rfl, hparts⟩ := Json.exists_succ_of_nestsWithin h
  obtain ⟨⟨hbelow, hfunctions⟩, -⟩ :
      (0 < below ∧ ∀ f ∈ c.functions, f.toJson.nestsWithin (below - 1) = true) ∧ 0 < below := by
    simpa using hparts
  rw [Contract.ofJson, Fields.ofJson_ofMembers (by simp)]
  simp [SourceRange.ofJson_toJson hbelow,
    Read.list_map hbelow fun f hf => Function.ofJson_toJson f (hfunctions f hf)]

/-! ## What was read fits -/

/-- A type takes a level of depth. -/
theorem SemanticType.pos_of_ofJson {inner : Bool} {depth : Nat} {j : Json} {t : SemanticType}
    (h : SemanticType.ofJson inner depth j = .ok t) : 0 < depth := by
  rw [SemanticType.ofJson] at h
  obtain ⟨v, hv, -⟩ := bind_eq_ok.1 h
  exact Variant.pos_of_ofJson hv

/-- An expression that was read fits where it was read.

**Proof sketch.** Induction on the depth.  Each kind is taken apart field by field; its type was
read, so there is a level below for the place too, and the two sides of a binary expression fit by
induction. -/
theorem Expression.nestsWithin_of_ofJson {depth : Nat} {j : Json} {e : Expression}
    (h : Expression.ofJson depth j = .ok e) : e.toJson.nestsWithin depth = true := by
  induction depth generalizing j e with
  | zero => cases h
  | succ depth ih =>
    rw [Expression.ofJson] at h
    obtain ⟨v, -, h⟩ := bind_eq_ok.1 h
    split at h
    · obtain ⟨f, -, h⟩ := bind_eq_ok.1 h
      obtain ⟨value, -, h⟩ := bind_eq_ok.1 h
      obtain ⟨ty, hty, h⟩ := bind_eq_ok.1 h
      obtain ⟨src, -, h⟩ := bind_eq_ok.1 h
      cases h
      -- the type must be there, so there is a level for the place as well
      obtain ⟨_, -, hty⟩ := Fields.required_eq_ok.1 hty
      simp [Expression.toJson, SemanticType.pos_of_ofJson hty]
    · obtain ⟨f, -, h⟩ := bind_eq_ok.1 h
      obtain ⟨name, -, h⟩ := bind_eq_ok.1 h
      obtain ⟨declaration, -, h⟩ := bind_eq_ok.1 h
      obtain ⟨ty, hty, h⟩ := bind_eq_ok.1 h
      obtain ⟨src, -, h⟩ := bind_eq_ok.1 h
      cases h
      obtain ⟨_, -, hty⟩ := Fields.required_eq_ok.1 hty
      simp [Expression.toJson, SemanticType.pos_of_ofJson hty]
    · obtain ⟨f, -, h⟩ := bind_eq_ok.1 h
      obtain ⟨operator, -, h⟩ := bind_eq_ok.1 h
      obtain ⟨left, hleft, h⟩ := bind_eq_ok.1 h
      obtain ⟨right, hright, h⟩ := bind_eq_ok.1 h
      obtain ⟨ty, hty, h⟩ := bind_eq_ok.1 h
      obtain ⟨src, -, h⟩ := bind_eq_ok.1 h
      cases h
      obtain ⟨_, -, hleft⟩ := Fields.required_eq_ok.1 hleft
      obtain ⟨_, -, hright⟩ := Fields.required_eq_ok.1 hright
      obtain ⟨_, -, hty⟩ := Fields.required_eq_ok.1 hty
      simp [Expression.toJson, SemanticType.pos_of_ofJson hty, ih hleft, ih hright]
    · cases h

/-- An expression that was read where there may be none fits where it was read. -/
theorem Expression.nestsWithin_of_optionOfJson {depth : Nat} {j : Json} {e : Option Expression}
    (h : Expression.optionOfJson depth j = .ok e) :
    ((e.map Expression.toJson).getD .null).nestsWithin depth = true := by
  unfold Expression.optionOfJson at h
  split at h
  · cases h
    exact Json.nestsWithin_null depth
  · obtain ⟨e', he', h⟩ := bind_eq_ok.1 h
    cases h
    exact Expression.nestsWithin_of_ofJson he'

/-- A statement that was read fits where it was read.

**Proof sketch.** Induction on the levels.  What a kind holds was read one level down, so that it
fits there: the expressions by `Expression.nestsWithin_of_ofJson`, the statements of a block by
induction. -/
theorem Statement.nestsWithin_of_ofJson {levels : Nat} {inner : Bool} {j : Json} {s : Statement}
    (h : Statement.ofJson inner (2 * levels) j = .ok s) :
    s.toJson.nestsWithin (2 * levels) = true := by
  induction levels generalizing inner j s with
  | zero => cases h
  | succ levels ih =>
    rw [Nat.mul_succ, Statement.ofJson] at h
    obtain ⟨v, -, h⟩ := bind_eq_ok.1 h
    split at h
    · obtain ⟨f, -, h⟩ := bind_eq_ok.1 h
      obtain ⟨e, he, h⟩ := bind_eq_ok.1 h
      obtain ⟨src, -, h⟩ := bind_eq_ok.1 h
      cases h
      have hnests : ((e.map Expression.toJson).getD .null).nestsWithin (2 * levels + 1) = true := by
        rcases Fields.optional_eq_ok he with rfl | ⟨j, hj⟩
        · rfl
        · exact Expression.nestsWithin_of_optionOfJson hj
      simp [Statement.toJson, Nat.mul_succ, hnests]
    · obtain ⟨f, -, h⟩ := bind_eq_ok.1 h
      obtain ⟨statements, hstatements, h⟩ := bind_eq_ok.1 h
      obtain ⟨src, -, h⟩ := bind_eq_ok.1 h
      cases h
      have hnests : ∀ s ∈ statements, s.toJson.nestsWithin (2 * levels) = true := by
        rcases Fields.optional_eq_ok hstatements with rfl | ⟨j, hj⟩
        · simp
        · intro s hs
          split at hj
          · obtain ⟨_, -, hs⟩ := exists_left (mapM_eq_ok hj) hs
            exact ih hs
          · cases hj
      simpa [Statement.toJson, Statement.toJsons_eq_map, Nat.mul_succ] using hnests
    · obtain ⟨f, -, h⟩ := bind_eq_ok.1 h
      obtain ⟨e, he, h⟩ := bind_eq_ok.1 h
      obtain ⟨src, -, h⟩ := bind_eq_ok.1 h
      cases h
      obtain ⟨_, -, he⟩ := Fields.required_eq_ok.1 he
      simp [Statement.toJson, Nat.mul_succ, Expression.nestsWithin_of_ofJson he]
    -- the kinds that hold nothing but their place
    iterate 5
      · obtain ⟨f, -, h⟩ := bind_eq_ok.1 h
        obtain ⟨src, -, h⟩ := bind_eq_ok.1 h
        cases h
        simp [Statement.toJson, Nat.mul_succ]
    · cases h

/-- A parameter that was read fits where it was read. -/
theorem Parameter.nestsWithin_of_ofJson {depth : Nat} {j : Json} {p : Parameter}
    (h : Parameter.ofJson depth j = .ok p) : p.toJson.nestsWithin depth = true := by
  cases depth with
  | zero => cases h
  | succ depth =>
    rw [Parameter.ofJson] at h
    obtain ⟨f, -, h⟩ := bind_eq_ok.1 h
    obtain ⟨declaration, -, h⟩ := bind_eq_ok.1 h
    obtain ⟨name, -, h⟩ := bind_eq_ok.1 h
    obtain ⟨ty, hty, h⟩ := bind_eq_ok.1 h
    obtain ⟨src, -, h⟩ := bind_eq_ok.1 h
    cases h
    obtain ⟨_, -, hty⟩ := Fields.required_eq_ok.1 hty
    simp [Parameter.toJson, SemanticType.pos_of_ofJson hty]

/-- A function that was read fits where it was read.

**Proof sketch.** The three lists are optional fields, and what holds of every element that was
read holds of the list (`Fields.forall_of_optional_list`). -/
theorem Function.nestsWithin_of_ofJson {levels : Nat} {j : Json} {f : Function}
    (h : Function.ofJson (2 * levels) j = .ok f) : f.toJson.nestsWithin (2 * levels) = true := by
  cases levels with
  | zero => cases h
  | succ levels =>
    rw [Nat.mul_succ, Function.ofJson] at h
    obtain ⟨fields, -, h⟩ := bind_eq_ok.1 h
    obtain ⟨name, -, h⟩ := bind_eq_ok.1 h
    obtain ⟨parameters, hparameters, h⟩ := bind_eq_ok.1 h
    obtain ⟨returns, hreturns, h⟩ := bind_eq_ok.1 h
    obtain ⟨body, hbody, h⟩ := bind_eq_ok.1 h
    obtain ⟨src, -, h⟩ := bind_eq_ok.1 h
    cases h
    have hparameters' := Fields.forall_of_optional_list hparameters
      fun _ _ => Parameter.nestsWithin_of_ofJson
    have hreturns' := Fields.forall_of_optional_list hreturns
      fun _ _ => Parameter.nestsWithin_of_ofJson
    have hbody' := Fields.forall_of_optional_list hbody fun _ _ => Statement.nestsWithin_of_ofJson
    simpa [Function.toJson, Nat.mul_succ] using ⟨hparameters', hreturns', hbody'⟩

/-- A contract that was read fits where it was read. -/
theorem Contract.nestsWithin_of_ofJson {levels : Nat} {j : Json} {c : Contract}
    (h : Contract.ofJson (2 * levels) j = .ok c) : c.toJson.nestsWithin (2 * levels) = true := by
  cases levels with
  | zero => cases h
  | succ levels =>
    rw [Nat.mul_succ, Contract.ofJson] at h
    obtain ⟨fields, -, h⟩ := bind_eq_ok.1 h
    obtain ⟨name, -, h⟩ := bind_eq_ok.1 h
    obtain ⟨functions, hfunctions, h⟩ := bind_eq_ok.1 h
    obtain ⟨src, -, h⟩ := bind_eq_ok.1 h
    cases h
    have hfunctions' := Fields.forall_of_optional_list hfunctions
      fun _ _ => Function.nestsWithin_of_ofJson
    simpa [Contract.toJson, Nat.mul_succ] using hfunctions'

/-! ## Lists of contracts -/

/-- A text of contracts is read back if it is not nested too deep. -/
theorem readContracts_of_nestsWithin {cs : List Contract}
    (h : (contractsToJson cs).nestsWithin maxDepth = true) :
    readContracts (writeContracts cs) = .ok cs := by
  have hwritten : Written (contractsToJson cs) := Json.written_map Contract.written_toJson cs
  have hcontracts : 0 < maxDepth ∧ ∀ c ∈ cs, c.toJson.nestsWithin (maxDepth - 1) = true := by
    simpa [contractsToJson] using h
  rw [readContracts, writeContracts, hwritten.parse?_render]
  exact Read.list_map hcontracts.1 fun c hc => Contract.ofJson_toJson c (hcontracts.2 c hc)

/-- Contracts that were read are not nested too deep, also with all their defaults. -/
theorem nestsWithin_of_readContracts {text : String} {cs : List Contract}
    (h : readContracts text = .ok cs) : (contractsToJson cs).nestsWithin maxDepth = true := by
  rw [readContracts] at h
  split at h
  · obtain ⟨_, -, -, hitems⟩ := Read.list_eq_ok h
    have hcontracts : ∀ c ∈ cs, c.toJson.nestsWithin (maxDepth - 1) = true := fun c hc => by
      obtain ⟨j, -, hread⟩ := exists_left hitems hc
      -- below the list an even number of levels is left, two for each list of nodes with places
      have hread : Contract.ofJson (2 * 63) j = .ok c := hread
      exact Contract.nestsWithin_of_ofJson hread
    simpa [contractsToJson, maxDepth] using hcontracts
  · cases h

/-- Reading undoes writing: contracts whose text is nested no deeper than `maxDepth` are read back
as they were, and deeper ones are not; what was read from any text that is accepted is written as a
text that is accepted again and means the same.

**Proof sketch.** The value that is written has lexemes that end where they should, so its text is
cut into its tokens and these are read as that value.  Every node is read from the value that it is
written as when depth is left for it, by induction over the node; what is read from any value at
all fits in the depth that was left, also with the defaults that the value may have left out,
because a node that may lack its place always starts at an even depth. -/
theorem readContracts_writeContracts :
    (∀ cs, readContracts (writeContracts cs) = .ok cs ↔
      (contractsToJson cs).nestsWithin maxDepth = true) ∧
    ∀ text cs, readContracts text = .ok cs → readContracts (writeContracts cs) = .ok cs := by
  refine ⟨fun cs => ⟨nestsWithin_of_readContracts, readContracts_of_nestsWithin⟩, ?_⟩
  intro text cs h
  exact readContracts_of_nestsWithin (nestsWithin_of_readContracts h)

/-- A contract written by places instead of names, without defaults, with an unknown member, and
with a sign and an underscore in a number. -/
def terseText : String :=
  "[[\"T\",[\x7b\"name\":\"f\",\"note\":[\x7b\x7d],\"body\":[[\"Block\",[[0,[0,\"\\u0041\"," ++
    "[\"rationalNumber\",\" -1_0 \"]]]]]]\x7d]]]"

/-- The contract of that text. -/
def terseContract : Contract :=
  let literal : Expression := .literal "A" (.rational (-10) 1) {}
  { name := "T", functions := [{ name := "f", body := [.block [.ret (some literal) {}] {}] }] }

/-- The terse text and the full text of its contract are both read as that contract. -/
theorem readContracts_terse :
    readContracts terseText = .ok [terseContract] ∧
      readContracts (writeContracts [terseContract]) = .ok [terseContract] := by
  have hread : readContracts terseText = .ok [terseContract] :=
    eq_ok_of_toOption (by decide +kernel)
  exact ⟨hread, readContracts_writeContracts.2 terseText [terseContract] hread⟩

end ContractIR
