import ContractIR.Job
import ContractIR.Proofs.Legalization.Lifting
import ContractIR.Proofs.Lowering.Calls

/-!
# Options do not matter to the module

A job takes printing options, and one of them asks for a verification behind every pass.  None of
them has an influence on the module that a job leaves or on the reason why it fails: lowering does
not see the options, and a pass that ends with a check of its own result cannot be refused by a
second one.

## Main definitions

* `ContractIR.Pass.EndsVerified` — a pass succeeds only with a module that the verifier accepts.
* `ContractIR.Pipeline.EndAlike` — two runs of passes end with the same module.
* `ContractIR.JobsAlike` — two jobs leave the same module, or fail for the same reason.

## Main results

* `ContractIR.Pipeline.endAlike_run` — how passes are run does not matter to where they end.
* `ContractIR.map_ir_runJob` — the module of a job, without the options.
* `ContractIR.runJob_alike` — two jobs that differ in options only end alike.
-/

set_option autoImplicit false

namespace ContractIR

/-! ## Passes that verify their result -/

/-- A pass succeeds only with a module that the verifier accepts. -/
def Pass.EndsVerified (pass : Pass) : Prop :=
  ∀ m stats n, pass.run.run m = .ok stats n → n.verify = .ok ()

/-- Legalization ends with a check. -/
theorem endsVerified_legalizePass : EraVM.legalizePass.EndsVerified := by
  intro m stats n h
  simp only [EraVM.legalizePass, EStateM.run] at h
  split at h
  · rename_i stats' n' hlegal
    cases h
    obtain ⟨_, _, _, -, -, -, hverify⟩ := EraVM.steps_of_legalize hlegal
    exact hverify
  · cases h

/-- So does every pass of a machine. -/
theorem Target.endsVerified_passes (target : Target) :
    ∀ pass ∈ target.passes, pass.EndsVerified := by
  cases target with
  | eravm => simpa [Target.passes] using endsVerified_legalizePass

/-! ## Pipelines -/

namespace Pipeline

variable {passes : List Pass} {pass : Pass} {p q : Progress}

/-- Two modules on their way are the same, and so are their statistics; the records of finished
passes may differ. -/
structure Progress.Agrees (p q : Progress) : Prop where
  ir : p.ir = q.ir
  stats : p.stats = q.stats

/-- Two runs end with the same module: both succeed, or both fail for the same reason. -/
inductive EndAlike :
    EStateM.Result PassFailure Progress Unit → EStateM.Result PassFailure Progress Unit → Prop
  | ok {p q : Progress} (h : p.Agrees q) : EndAlike (.ok () p) (.ok () q)
  | error {p q : Progress} (e : PassFailure) (h : p.Agrees q) : EndAlike (.error e p) (.error e q)

/-- What one pass does if it verifies its result: the check behind it finds nothing. -/
theorem run_runPass (pipeline : Pipeline) (hpass : pass.EndsVerified) (p : Progress) :
    (pipeline.runPass pass).run p =
      match pass.run.run p.ir with
      | .error cause m => .error (.failed pass.name cause) { p with ir := m }
      | .ok stats m =>
        .ok () {
          ir := m
          stats := p.stats ++ [stats]
          finished := if pipeline.timing then p.finished ++ [pass.name] else p.finished } := by
  rw [runPass, Outcome.run_get_bind]
  cases hrun : pass.run.run p.ir with
  | error cause m =>
    rw [EStateM.run] at hrun
    simp only [hrun]
    rfl
  | ok stats m =>
    have hverify := hpass _ _ _ hrun
    rw [EStateM.run] at hrun
    simp only [hrun, hverify]
    cases pipeline.verifyEach && pass.modifies <;> cases pipeline.timing <;> rfl

/-- One pass. -/
theorem endAlike_runPass (pipeline pipeline' : Pipeline) (hpass : pass.EndsVerified)
    (h : p.Agrees q) :
    EndAlike ((pipeline.runPass pass).run p) ((pipeline'.runPass pass).run q) := by
  rw [run_runPass pipeline hpass, run_runPass pipeline' hpass, ← h.ir]
  cases pass.run.run p.ir with
  | error cause m => exact .error _ ⟨rfl, h.stats⟩
  | ok stats m => exact .ok ⟨rfl, by rw [h.stats]⟩

/-- Some passes, one after the other. -/
theorem endAlike_runFrom (pipeline pipeline' : Pipeline)
    (hpasses : ∀ pass ∈ passes, pass.EndsVerified) (h : p.Agrees q) :
    EndAlike ((pipeline.runFrom passes).run p) ((pipeline'.runFrom passes).run q) := by
  induction passes generalizing p q with
  | nil => exact .ok h
  | cons pass passes ih =>
    rw [List.forall_mem_cons] at hpasses
    have hfirst := endAlike_runPass pipeline pipeline' hpasses.1 h
    rw [runFrom, runFrom, EStateM.run_bind, EStateM.run_bind]
    generalize (pipeline.runPass pass).run p = a at hfirst ⊢
    generalize (pipeline'.runPass pass).run q = b at hfirst ⊢
    cases hfirst with
    | ok h => exact ih hpasses.2 h
    | error e h => exact .error e h

/-- **How passes are run does not matter to where they end**, if each of them verifies its result:
neither the check behind a pass nor the record of it. -/
theorem endAlike_run (pipeline pipeline' : Pipeline) (hsame : pipeline.passes = pipeline'.passes)
    (hpasses : ∀ pass ∈ pipeline.passes, pass.EndsVerified) (p : Progress) :
    EndAlike (pipeline.run.run p) (pipeline'.run.run p) := by
  rw [run, run, ← hsame]
  exact endAlike_runFrom pipeline pipeline' hpasses ⟨rfl, rfl⟩

end Pipeline

/-! ## Jobs -/

variable {source : Source} {contracts : List Contract} {job : Job} {target : Target}
  {args args' : List String} {options options' : Options}

/-- The options of legalization do not matter to the module. -/
theorem map_ir_legalizeFor (target : Target) (options options' : Options) (m : Module) :
    (legalizeFor target options m).map Pipeline.Progress.ir =
      (legalizeFor target options' m).map Pipeline.Progress.ir := by
  simp only [legalizeFor]
  have halike := Pipeline.endAlike_run ⟨target.passes, options.verifyEach, options.timing⟩
    ⟨target.passes, options'.verifyEach, options'.timing⟩ rfl target.endsVerified_passes { ir := m }
  simp only [EStateM.run] at halike
  generalize Pipeline.run _ _ = a at halike ⊢
  generalize Pipeline.run _ _ = b at halike ⊢
  cases halike with
  | ok h => exact congrArg Except.ok h.ir
  | error e h => rfl

/-- Legalizing contracts for a machine, or only lowering them. -/
def compile (source : Source) (contracts : List Contract) (target : Target) (legalizes : Bool) :
    Except JobError Module := do
  let high ← (lowerContracts source contracts).mapError .lowering
  if legalizes then (legalizeFor target {} high).map Pipeline.Progress.ir else return high

/-- **The module of a job**, without the options. -/
theorem map_ir_runJob (h : Options.parse args = .ok options) :
    (runJob source contracts job args).map JobResult.ir =
      compile source contracts job.target job.action.legalizes := by
  rw [runJob, compile, h]
  cases lowerContracts source contracts with
  | error e => rfl
  | ok high =>
    cases job.action.legalizes with
    | false => rfl
    | true =>
      have hsame := map_ir_legalizeFor job.target options {} high
      simp only [Except.mapError, Outcome.ok_bind, if_true] at hsame ⊢
      rw [← hsame]
      cases legalizeFor job.target options high <;> rfl

/-- Compiling fails in the lowering or in a pass.

**Proof sketch.** Compiling is the lowering followed by the passes of the target, each with its
own wrapper for errors; the two failing branches are the two disjuncts. -/
theorem compile_eq_error {legalizes : Bool} {e : JobError}
    (h : compile source contracts target legalizes = .error e) :
    (∃ error, e = .lowering error) ∨ ∃ failure, e = .pass failure := by
  rw [compile] at h
  cases hlower : lowerContracts source contracts with
  | error error =>
    rw [hlower] at h
    cases h
    exact .inl ⟨error, rfl⟩
  | ok high =>
    rw [hlower] at h
    cases legalizes with
    | false => cases h
    | true =>
      simp only [Except.mapError, Outcome.ok_bind, if_true, legalizeFor] at h
      split at h
      · cases h
      · cases h
        exact .inr ⟨_, rfl⟩

/-- Two jobs leave the same module, or both fail for the same reason in the lowering or in a
pass. -/
inductive JobsAlike : Except JobError JobResult → Except JobError JobResult → Prop
  | finished {r s : JobResult} (h : r.ir = s.ir) : JobsAlike (.ok r) (.ok s)
  | lowering (e : CompileError) : JobsAlike (.error (.lowering e)) (.error (.lowering e))
  | pass (f : PassFailure) : JobsAlike (.error (.pass f)) (.error (.pass f))

/-- Two jobs with the module of one compilation are alike. -/
theorem jobsAlike_of_map_ir {x y : Except JobError JobResult} {legalizes : Bool}
    (hx : x.map JobResult.ir = compile source contracts target legalizes)
    (hy : y.map JobResult.ir = compile source contracts target legalizes) : JobsAlike x y := by
  cases hcompile : compile source contracts target legalizes with
  | ok m =>
    rw [hcompile] at hx hy
    cases x <;> cases y <;> simp only [Except.map, reduceCtorEq, Except.ok.injEq] at hx hy
    exact .finished (hx.trans hy.symm)
  | error e =>
    rw [hcompile] at hx hy
    cases x <;> cases y <;> simp only [Except.map, reduceCtorEq, Except.error.injEq] at hx hy
    subst hx hy
    rcases compile_eq_error hcompile with ⟨error, rfl⟩ | ⟨failure, rfl⟩
    · exact .lowering error
    · exact .pass failure

/-- **Options never influence compilation.**  Two jobs with the same contracts and the same action
end alike under any options that are accepted; and under any arguments, printing the low-level
module and only verifying it end with the same module, or fail for the same reason. -/
theorem runJob_alike (source : Source) (contracts : List Contract) (job : Job)
    (h : Options.parse args = .ok options) (h' : Options.parse args' = .ok options') :
    JobsAlike (runJob source contracts job args) (runJob source contracts job args') ∧
      ∀ (target : Target) (args : List String),
        (runJob source contracts ⟨.printLowLevel, target⟩ args).map JobResult.ir =
          (runJob source contracts ⟨.verifyOnly, target⟩ args).map JobResult.ir := by
  refine ⟨jobsAlike_of_map_ir (map_ir_runJob h) (map_ir_runJob h'), fun target args => ?_⟩
  cases hargs : Options.parse args with
  | error e => simp only [runJob, hargs, Except.mapError, Outcome.error_bind]
  | ok o =>
    rw [map_ir_runJob hargs, map_ir_runJob hargs]
    rfl

/-- A contract of runtime code with a function that returns. -/
def mintContract : Contract where
  name := "Token_deployed"
  functions := [{ name := "mint", body := [.ret none {}] }]

/-- A job with a verification behind every pass succeeds, and so does one without. -/
theorem mintContract_alike :
    Options.parse ["--verify-each", "--mlir-timing"] = .ok { verifyEach := true, timing := true } ∧
      Options.parse ["--no-color"] = .ok { noColor := true } ∧
      (runJob emptySource [mintContract] ⟨.verifyOnly, .eravm⟩
        ["--verify-each", "--mlir-timing"]).isOk = true ∧
      JobsAlike
        (runJob emptySource [mintContract] ⟨.verifyOnly, .eravm⟩ ["--verify-each", "--mlir-timing"])
        (runJob emptySource [mintContract] ⟨.verifyOnly, .eravm⟩ ["--no-color"]) := by
  have hverify : Options.parse ["--verify-each", "--mlir-timing"] =
      .ok { verifyEach := true, timing := true } := by
    decide +kernel
  have hplain : Options.parse ["--no-color"] = .ok { noColor := true } := by
    decide +kernel
  exact ⟨hverify, hplain, by decide +kernel, (runJob_alike _ _ _ hverify hplain).1⟩

end ContractIR
