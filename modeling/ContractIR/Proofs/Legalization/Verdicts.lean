import ContractIR.Proofs.Legalization.Returning

/-!
# What patterns report

That a conversion did not come to rest, or left something illegal, is found out by the conversion as
a whole.  The steps of a pattern fail for reasons of their own: an operation that cannot be built or
erased, or an assumption that does not hold.

## Main definitions

* `ContractIR.CompileError.isVerdict` — the failures of a conversion as a whole.
* `ContractIR.Reports` — whatever a step reports satisfies a test.

## Main results

* `ContractIR.EraVM.reports_patterns` — no pattern reports a failure of the conversion as a whole.
-/

set_option autoImplicit false

namespace ContractIR

/-! ## What steps report -/

/-- Whether an error says that a conversion as a whole did not succeed. -/
def IrError.isVerdict : IrError → Bool
  | .conversionLimit _ | .illegalOps _ => true
  | _ => false

/-- Whether a failure of compilation is such an error. -/
def CompileError.isVerdict : CompileError → Bool
  | .ir e => e.isVerdict
  | _ => false

/-- Whatever a step reports satisfies a test. -/
def Reports {ε σ α : Type} (test : ε → Bool) (y : EStateM ε σ α) : Prop :=
  ∀ s e t, y.run s = .error e t → test e = true

namespace Reports

variable {ε σ α β : Type} {test : ε → Bool}

/-- An answer reports nothing. -/
theorem pure (a : α) : Reports test (pure a : EStateM ε σ α) := nofun

/-- A failure reports its error. -/
theorem throw {e : ε} (h : test e = true) : Reports test (throw e : EStateM ε σ α) := by
  intro s e' t hrun
  cases hrun
  exact h

/-- One step after another. -/
theorem bind {y : EStateM ε σ α} {f : α → EStateM ε σ β} (hy : Reports test y)
    (hf : ∀ a, Reports test (f a)) : Reports test (y >>= f) := by
  intro s e t hrun
  rw [EStateM.run_bind] at hrun
  split at hrun
  · exact hf _ _ _ _ hrun
  · rename_i e' t' he
    cases hrun
    exact hy s _ _ he

/-- A change of the state reports nothing. -/
theorem modify (f : σ → σ) : Reports test (modify f : EStateM ε σ PUnit) := by
  intro s e t hrun
  cases hrun

/-- A new state reports nothing. -/
theorem set (s : σ) : Reports test (set s : EStateM ε σ PUnit) := by
  intro s' e t hrun
  cases hrun

/-- A step that looks at the state first. -/
theorem get_bind {f : σ → EStateM ε σ α} (hf : ∀ s, Reports test (f s)) :
    Reports test (get >>= f) := fun s e t hrun => hf s s e t hrun

/-- A step behind a check. -/
theorem ite {p : Prop} [Decidable p] {y : EStateM ε σ α} {e : ε} (hy : Reports test y)
    (he : test e = true) : Reports test (if p then y else MonadExcept.throw e) := by
  split
  · exact hy
  · exact throw he

/-- A step of building, as a step of compilation. -/
theorem liftM {y : Build α} (hy : Reports (fun e => !e.isVerdict) y) :
    Reports (fun e => !e.isVerdict) (liftM y : Lower α) := by
  intro b e c hrun
  rw [run_liftM] at hrun
  split at hrun
  · cases hrun
  · rename_i e' c' he
    cases hrun
    exact hy b e' c he

/-- A rewrite as a step of compilation. -/
theorem liftM_rewrite {y : Rewrite α} (hy : Reports (fun e => !e.isVerdict) y) :
    Reports (fun e => !e.isVerdict) (MonadLift.monadLift y : Transform α) := by
  intro m e n hrun
  simp only [MonadLift.monadLift, EStateM.run] at hrun
  split at hrun
  · cases hrun
  · rename_i e' n' he
    cases hrun
    exact hy m e' n he

end Reports

section Building

/-- Creating an operation. -/
theorem reports_op (spec : Module.OpSpec) : Reports (fun e => !e.isVerdict) (Build.op spec) := by
  unfold Build.op
  refine .get_bind fun b => ?_
  split
  · exact .throw rfl
  · exact .bind (.set _) fun _ => .pure _

/-- Looking at the module. -/
theorem reports_ir : Reports (fun e => !e.isVerdict) Build.ir := .get_bind fun _ => .pure _

/-- Creating an operation with one result. -/
theorem reports_value (spec : Module.OpSpec) : Reports (fun e => !e.isVerdict) (Build.value spec) :=
  (reports_op spec).bind fun _ => reports_ir.bind fun _ => .pure _

/-- Looking at the type of a value. -/
theorem reports_typeOf (v : ValueId) : Reports (fun e => !e.isVerdict) (Build.typeOf v) :=
  reports_ir.bind fun _ => .pure _

/-- Looking at the common type of two values. -/
theorem reports_sameInteger (kind : OpKind) (v w : ValueId) :
    Reports (fun e => !e.isVerdict) (Build.sameInteger kind v w) :=
  (reports_typeOf v).bind fun _ => (reports_typeOf w).bind fun _ => .ite (.pure _) rfl

/-- Creating a number. -/
theorem reports_constant (n : Int) (ty : Ty) :
    Reports (fun e => !e.isVerdict) (Build.constant n ty) := .ite (reports_value _) rfl

/-- Creating an operation on two numbers. -/
theorem reports_binary (kind : OpKind) (v w : ValueId) :
    Reports (fun e => !e.isVerdict) (Build.binary kind v w) :=
  (reports_sameInteger kind v w).bind fun _ => reports_value _

/-- Creating a pointer. -/
theorem reports_intToPtr (v : ValueId) (ty : Ty) :
    Reports (fun e => !e.isVerdict) (Build.Llvm.intToPtr v ty) :=
  (reports_typeOf v).bind fun _ => .ite (reports_value _) rfl

/-- Creating the writing of memory. -/
theorem reports_store (v ptr : ValueId) :
    Reports (fun e => !e.isVerdict) (Build.Llvm.store v ptr) :=
  (reports_typeOf ptr).bind fun _ => .ite (reports_op _) rfl

/-- Going to the place before an operation. -/
theorem reports_before (id : OpId) : Reports (fun e => !e.isVerdict) (Build.before id) := by
  refine .bind ?_ fun _ => .modify _
  unfold Build.positionOf
  refine reports_ir.bind fun m => ?_
  split
  · exact .throw rfl
  · split
    · exact .throw rfl
    · exact .pure _

end Building

namespace EraVM

open Conversion

/-- Writing a word to the auxiliary heap. -/
theorem reports_storeAux (offset word : Nat) :
    Reports (fun e => !e.isVerdict) (storeAux offset word) :=
  (reports_constant _ _).bind fun _ => (reports_intToPtr _ _).bind fun _ =>
    (reports_constant _ _).bind fun _ => (reports_store _ _).bind fun _ => .pure _

/-- Computing the length of what a constructor returns. -/
theorem reports_returnedLength : Reports (fun e => !e.isVerdict) returnedLength :=
  (reports_constant _ _).bind fun _ => (reports_constant _ _).bind fun _ =>
    (reports_binary _ _ _).bind fun _ => (reports_constant _ _).bind fun _ => reports_binary _ _ _

/-- Writing the sequence of a return. -/
theorem reports_returnBuild (context : CodeContext) (offset length : ValueId) :
    Reports (fun e => !e.isVerdict) (returnBuild context offset length) := by
  cases context with
  | runtime => exact (reports_constant _ _).bind fun _ => (reports_op _).bind fun _ => .pure _
  | deploy =>
    exact (reports_storeAux _ _).bind fun _ => (reports_storeAux _ _).bind fun _ =>
      reports_returnedLength.bind fun _ => (reports_constant _ _).bind fun _ =>
        (reports_constant _ _).bind fun _ => (reports_op _).bind fun _ => .pure _

/-- Running a step that uses a builder. -/
theorem reports_build {α : Type} {start : Module → Builder} {step : Lower α}
    (h : Reports (fun e => !e.isVerdict) step) :
    Reports (fun e => !e.isVerdict) (Transform.build start step) := by
  intro m e n hrun
  rw [run_build] at hrun
  split at hrun
  · cases hrun
  · rename_i e' b he
    cases hrun
    exact h _ _ _ he

/-- Erasing an operation. -/
theorem reports_eraseOp (id : OpId) : Reports (fun e => !e.isVerdict) (Module.eraseOp id) := by
  unfold Module.eraseOp
  refine .get_bind fun m => ?_
  split
  · exact .throw rfl
  · exact .set _

/-- Rewriting a memory cell. -/
theorem reports_lowerAllocaOp (id : OpId) :
    Reports (fun e => !e.isVerdict) (lowerAllocaOp id) := by
  unfold lowerAllocaOp
  refine .get_bind fun m => ?_
  split
  · exact .pure _
  · split
    · exact .pure _
    · exact .bind (.set _) fun _ => .pure _

/-- Replacing a return from contract code.

**Proof sketch.** Part by part: the context, the sequence, which reports errors of writing, and
the erasing.  None of them is the verdict of the conversion. -/
theorem reports_lowerReturnOp (contexts : Contexts) (id : OpId) :
    Reports (fun e => !e.isVerdict) (lowerReturnOp contexts id) := by
  unfold lowerReturnOp
  refine .get_bind fun m => .bind ?_ fun context => ?_
  · cases contexts.around? m id with
    | none => exact .throw rfl
    | some context => exact .pure _
  · dsimp only
    split
    · refine .bind (reports_build ?_) fun _ => .bind ?_ fun _ => .pure _
      · refine (reports_before id).liftM.bind fun _ => .bind (Reports.modify _).liftM fun _ => ?_
        cases context with
        | runtime =>
          exact (reports_returnBuild .runtime _ _).liftM.bind fun _ =>
            (reports_op _).liftM.bind fun _ => .pure _
        | deploy =>
          exact (reports_returnBuild .deploy ⟨0⟩ ⟨0⟩).liftM.bind fun _ =>
            (reports_op _).liftM.bind fun _ => .pure _
      · exact (reports_eraseOp id).liftM_rewrite
    · exact .throw rfl

/-- **No pattern reports what only the conversion as a whole can report.** -/
theorem reports_patterns (contexts : Contexts) :
    ∀ p ∈ patterns contexts, ∀ id, Reports (fun e => !e.isVerdict) (p.rewrite id) := by
  intro p hp id
  rcases mem_patterns.1 hp with rfl | rfl | rfl | ⟨r, hr, rfl⟩
  · exact reports_lowerReturnOp contexts id
  · exact .bind (.modify _) fun _ => .bind (.modify _) fun _ => .pure _
  · exact reports_lowerAllocaOp id
  · exact .bind (.modify _) fun _ => .pure _

end EraVM

end ContractIR
