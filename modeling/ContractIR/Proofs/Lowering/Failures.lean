import ContractIR.Proofs.Lowering.Assembly

/-!
# Failures of lowering

The code of a contract is missing for two reasons only: the input is outside of the subset that is
compiled, or it names a stretch of text that the source does not have.

## Main definitions

* `ContractIR.CompileError.OfInput` — failures that are due to the input.
* `ContractIR.FailsOnInput` — a computation has no other failures.

## Main results

* `ContractIR.Expression.code_failsOnInput`, `ContractIR.Function.code_failsOnInput` — the code of
  expressions and functions.
* `ContractIR.addContracts_failsOnInput` — contracts.
-/

set_option autoImplicit false

namespace ContractIR

/-- A failure that is due to the input: something is not supported, or a stretch of text is not
there. -/
inductive CompileError.OfInput : CompileError → Prop
  | unsupported (what : Unsupported) (location : Location) : OfInput (.unsupported what location)
  | source (error : SourceError) : OfInput (.source error)

/-- A computation that can only fail because of the input. -/
def FailsOnInput {α : Type} (r : Except CompileError α) : Prop := ∀ e, r = .error e → e.OfInput

namespace FailsOnInput

variable {α β : Type}

/-- What succeeds does not fail on anything else than input. -/
theorem ok (a : α) : FailsOnInput (.ok a : Except CompileError α) := by
  rintro e he
  cases he

/-- What is not supported is a fault of the input. -/
theorem unsupported (what : Unsupported) (location : Location) :
    FailsOnInput (.error (.unsupported what location) : Except CompileError α) := by
  rintro e he
  cases he
  exact .unsupported what location

/-- One computation after another. -/
theorem bind {r : Except CompileError α} {f : α → Except CompileError β} (hr : FailsOnInput r)
    (hf : ∀ a, FailsOnInput (f a)) : FailsOnInput (r >>= f) := by
  cases r with
  | error e =>
    rintro e' he
    cases he
    exact hr e rfl
  | ok a => exact hf a

/-- A computation for every member of a list. -/
theorem mapM {f : α → Except CompileError β} (hf : ∀ a, FailsOnInput (f a)) (xs : List α) :
    FailsOnInput (xs.mapM f) := by
  induction xs with
  | nil => exact ok _
  | cons x xs ih =>
    rw [List.mapM_cons]
    exact (hf x).bind fun _ => ih.bind fun _ => ok _

end FailsOnInput

open FailsOnInput

/-- Finding a place fails if the source does not have it. -/
theorem locate_failsOnInput (source : Source) (range : SourceRange) :
    FailsOnInput (locate source range) := by
  rintro e he
  unfold locate at he
  cases hloc : source.location range.start.toNat with
  | error error =>
    rw [hloc] at he
    cases he
    exact .source error
  | ok location =>
    rw [hloc] at he
    cases he

/-- Lowering a type fails if the type is not supported.

**Proof sketch.** By the type: its branches are a success or an unsupported type. -/
theorem lowerType_failsOnInput (ty : SemanticType) (location : Location) :
    FailsOnInput (lowerType ty location) := by
  unfold lowerType
  cases ty with
  | integer t =>
    dsimp only
    split
    · exact ok _
    · exact unsupported _ _
  | rational n d =>
    dsimp only
    split
    · exact unsupported _ _
    · split
      · exact ok _
      · exact unsupported _ _
  | bool => exact unsupported _ _
  | address => exact unsupported _ _

/-- A conversion fails if the types do not allow it. -/
theorem convertCode_failsOnInput (location : Location) (next : Nat) (v : ValueId)
    (own expected : SemanticType) :
    FailsOnInput (convertCode location next v own expected) := by
  unfold convertCode castCode
  split
  · exact ok _
  · split
    · exact ok _
    · split
      · split
        · exact unsupported _ _
        · exact (lowerType_failsOnInput _ _).bind fun _ => ok _
      · exact unsupported _ _

/-- **Code of an expression** is missing because of the input only.

**Proof sketch.** Induction on the expression, and in each case over the steps of its code: every
one of them fails on input only (`FailsOnInput.bind`). -/
theorem Expression.code_failsOnInput (source : Source) (cells : Cells) (e : Expression)
    (next : Nat) (expected : SemanticType) :
    FailsOnInput (e.code source cells next expected) := by
  induction e generalizing next expected with
  | literal text ty src =>
    unfold Expression.code
    refine (locate_failsOnInput _ _).bind fun location => ?_
    refine (lowerType_failsOnInput _ _).bind fun lowered => ?_
    split
    · exact unsupported _ _
    · exact (convertCode_failsOnInput _ _ _ _ _).bind fun _ => ok _
  | identifier name declaration ty src =>
    unfold Expression.code
    refine (locate_failsOnInput _ _).bind fun location => ?_
    split
    · exact unsupported _ _
    · refine (lowerType_failsOnInput _ _).bind fun lowered => ?_
      exact (convertCode_failsOnInput _ _ _ _ _).bind fun _ => ok _
  | binary operator left right ty src ihl ihr =>
    unfold Expression.code
    split
    · exact (locate_failsOnInput _ _).bind fun _ => unsupported _ _
    · refine (ihl _ _).bind fun lhs => (ihr _ _).bind fun rhs => bind ?_ fun _ => ok _
      refine (locate_failsOnInput _ _).bind fun location => ?_
      refine (lowerType_failsOnInput _ _).bind fun lowered => ?_
      exact (convertCode_failsOnInput _ _ _ _ _).bind fun _ => ok _

/-- The code of a return fails because of its input. -/
theorem returnCode_failsOnInput (source : Source) (cells : Cells) (name : String)
    (returns : Option SemanticType) (expression : Option Expression) (src : SourceRange)
    (location : Location) (next : Nat) :
    FailsOnInput (returnCode source cells name returns expression src location next) := by
  unfold returnCode
  split
  · exact ok _
  · exact unsupported _ _
  · exact unsupported _ _
  · refine (Expression.code_failsOnInput _ _ _ _ _).bind fun _ => ?_
    exact (locate_failsOnInput _ _).bind fun _ => ok _

/-- The code of statements fails because of its input. -/
theorem statementsCode_failsOnInput (source : Source) (cells : Cells) (name : String)
    (returns : Option SemanticType) (next : Nat) (returned : Bool) (body : List Statement) :
    FailsOnInput (statementsCode source cells name returns next returned body) := by
  induction body generalizing next returned with
  | nil => exact ok _
  | cons s rest ih =>
    unfold statementsCode
    refine (locate_failsOnInput _ _).bind fun location => ?_
    split
    · exact unsupported _ _
    · split
      · refine (returnCode_failsOnInput _ _ _ _ _ _ _ _).bind fun code => ?_
        exact (ih _ _).bind fun _ => ok _
      · exact unsupported _ _

/-- Lowering a parameter fails because of its input. -/
theorem lowerParameter_failsOnInput (source : Source) (p : Parameter) :
    FailsOnInput (lowerParameter source p) :=
  (locate_failsOnInput _ _).bind fun _ => (lowerType_failsOnInput _ _).bind fun _ => ok _

/-- **Code of a function** is missing because of the input only. -/
theorem Function.code_failsOnInput (source : Source) (f : Function) (first : Nat) :
    FailsOnInput (f.code source first) := by
  unfold Function.code
  refine (locate_failsOnInput _ _).bind fun location => ?_
  refine (mapM (lowerParameter_failsOnInput source) _).bind fun inputs => ?_
  refine (mapM (lowerParameter_failsOnInput source) _).bind fun results => ?_
  split
  · exact unsupported _ _
  · refine (statementsCode_failsOnInput _ _ _ _ _ _ _).bind fun q => ?_
    obtain ⟨body, returned⟩ := q
    cases f.returns.head?.map Parameter.ty with
    | none => exact ok _
    | some ty =>
      cases returned with
      | true => exact ok _
      | false => exact unsupported _ _

/-- Adding functions fails because of its input. -/
theorem addFunctions_failsOnInput (source : Source) (body : BlockId) (m : Module)
    (fs : List Function) : FailsOnInput (addFunctions source body m fs) := by
  induction fs generalizing m with
  | nil => exact ok _
  | cons f fs ih => exact (Function.code_failsOnInput _ _ _).bind fun c => ih _

/-- Adding a contract fails because of its input. -/
theorem addContract_failsOnInput (source : Source) (m : Module) (c : Contract) :
    FailsOnInput (addContract source m c) := by
  unfold addContract
  refine (locate_failsOnInput _ _).bind fun location => ?_
  split
  · exact (locate_failsOnInput _ _).bind fun _ => unsupported _ _
  · exact addFunctions_failsOnInput _ _ _ _

/-- **Contracts** are not added because of the input only. -/
theorem addContracts_failsOnInput (source : Source) (m : Module) (cs : List Contract) :
    FailsOnInput (addContracts source m cs) := by
  induction cs generalizing m with
  | nil => exact ok _
  | cons c cs ih => exact (addContract_failsOnInput _ _ _).bind fun n => ih n

end ContractIR
