import ContractIR.Transform
import Mathlib.Data.List.Forall2

/-!
# Outcomes of computations that may fail

How a sequence of steps can have succeeded: each step did, and handed its result to the next one.

## Main results

* `ContractIR.Outcome.bind_eq_ok`, `ContractIR.Outcome.mapM_eq_ok` — computations without state.
* `ContractIR.Outcome.run_bind_eq_ok` — computations with state.
* `ContractIR.run_liftM`, `ContractIR.run_build` — steps with a builder as steps of compilation.
-/

set_option autoImplicit false

namespace ContractIR.Outcome

section Pure

variable {ε α β : Type}

/-- After a success, the next step goes on with its result. -/
@[simp] theorem ok_bind (a : α) (f : α → Except ε β) : ((.ok a : Except ε α) >>= f) = f a := rfl

/-- After a failure, no step goes on. -/
@[simp] theorem error_bind (e : ε) (f : α → Except ε β) :
    ((.error e : Except ε α) >>= f) = .error e := rfl

/-- Two steps succeed if the first one does and the second one does with its result. -/
theorem bind_eq_ok {x : Except ε α} {f : α → Except ε β} {b : β} :
    (x >>= f) = .ok b ↔ ∃ a, x = .ok a ∧ f a = .ok b := by
  cases x with
  | error e => simp [bind, Except.bind]
  | ok a => simp [bind, Except.bind]

/-- Of two checks in a row, both pass. -/
theorem bind_unit_eq_ok {x : Except ε Unit} {f : Unit → Except ε β} {b : β} :
    (x >>= f) = .ok b ↔ x = .ok () ∧ f () = .ok b := by
  rw [bind_eq_ok]
  exact ⟨fun ⟨_, h⟩ => h, fun h => ⟨(), h⟩⟩

/-- What has a result succeeds. -/
theorem eq_ok_of_toOption {x : Except ε α} {a : α} (h : x.toOption = some a) : x = .ok a := by
  cases x with
  | error e => cases h
  | ok a' => exact congrArg Except.ok (Option.some.inj h)

/-- What succeeds has a result. -/
theorem exists_of_isOk {x : Except ε α} (h : x.isOk = true) : ∃ a, x = .ok a := by
  cases x with
  | error e => cases h
  | ok a => exact ⟨a, rfl⟩

/-- A step for every member of a list succeeds if each of them does. -/
theorem mapM_eq_ok {f : α → Except ε β} {xs : List α} {ys : List β} (h : xs.mapM f = .ok ys) :
    List.Forall₂ (fun x y => f x = .ok y) xs ys := by
  induction xs generalizing ys with
  | nil =>
    simp only [List.mapM_nil, pure, Except.pure, Except.ok.injEq] at h
    subst h
    exact .nil
  | cons x xs ih =>
    rw [List.mapM_cons] at h
    obtain ⟨y, hy, h⟩ := bind_eq_ok.1 h
    obtain ⟨rest, hrest, h⟩ := bind_eq_ok.1 h
    simp only [pure, Except.pure, Except.ok.injEq] at h
    subst h
    exact .cons hy (ih hrest)

end Pure

section Related

variable {α β : Type} {R : α → β → Prop} {xs : List α} {ys : List β}

/-- Every member of the first of two related lists has a partner in the second one. -/
theorem exists_right (h : List.Forall₂ R xs ys) {x : α} (hx : x ∈ xs) : ∃ y ∈ ys, R x y := by
  induction h with
  | nil => cases hx
  | @cons a b _ _ hab _ ih =>
    rcases List.mem_cons.1 hx with rfl | hx
    · exact ⟨b, by simp, hab⟩
    · obtain ⟨y, hy, hxy⟩ := ih hx
      exact ⟨y, List.mem_cons_of_mem _ hy, hxy⟩

/-- Every member of the second of two related lists has a partner in the first one. -/
theorem exists_left (h : List.Forall₂ R xs ys) {y : β} (hy : y ∈ ys) : ∃ x ∈ xs, R x y :=
  exists_right h.flip hy

end Related

section State

variable {ε σ α β : Type}

/-- Two steps succeed if the first one does and the second one does from there. -/
theorem run_bind_eq_ok {x : EStateM ε σ α} {f : α → EStateM ε σ β} {s u : σ} {b : β} :
    (x >>= f).run s = .ok b u ↔ ∃ a t, x.run s = .ok a t ∧ (f a).run t = .ok b u := by
  rw [EStateM.run_bind]
  cases x.run s with
  | error e t => simp
  | ok a t => simp

/-- A step that looks at the state first. -/
theorem run_get_bind (f : σ → EStateM ε σ α) (s : σ) : (get >>= f).run s = (f s).run s := rfl

/-- Whether a computation succeeds in a state that passes a test. -/
def endsIn (x : EStateM ε σ α) (s : σ) (test : σ → Bool) : Bool :=
  match x.run s with
  | .ok _ t => test t
  | .error _ _ => false

/-- A computation that ends in a state that passes a test succeeds. -/
theorem exists_of_endsIn {x : EStateM ε σ α} {s : σ} {test : σ → Bool}
    (h : endsIn x s test = true) : ∃ a t, x.run s = .ok a t ∧ test t = true := by
  rw [endsIn] at h
  split at h
  · rename_i a t hrun
    exact ⟨a, t, hrun, h⟩
  · cases h

/-- Whether a computation fails, with an error and in a state that pass a test. -/
def failsIn (x : EStateM ε σ α) (s : σ) (test : ε → σ → Bool) : Bool :=
  match x.run s with
  | .ok _ _ => false
  | .error e t => test e t

/-- A computation that fails with an error and in a state that pass a test fails. -/
theorem exists_of_failsIn {x : EStateM ε σ α} {s : σ} {test : ε → σ → Bool}
    (h : failsIn x s test = true) : ∃ e t, x.run s = .error e t ∧ test e t = true := by
  rw [failsIn] at h
  split at h
  · cases h
  · rename_i e t hrun
    exact ⟨e, t, hrun, h⟩

end State

end ContractIR.Outcome

namespace ContractIR

/-! ## Steps of compilation -/

/-- A step of the builder as a step of the lowering. -/
theorem run_liftM {α : Type} {b : Builder} (x : Build α) :
    (liftM x : Lower α).run b =
      match x.run b with
      | .ok a c => .ok a c
      | .error e c => .error (.ir e) c := rfl

/-- A rewrite as a step of compilation. -/
theorem run_liftM_eq_ok {α : Type} {x : Rewrite α} {m n : Module} {a : α} :
    (liftM x : Transform α).run m = .ok a n ↔ x.run m = .ok a n := by
  simp only [liftM, monadLift, MonadLift.monadLift, EStateM.run]
  cases x m with
  | ok a' n' => simp
  | error e n' => simp

/-- What is expected to be there is there. -/
theorem run_expect_eq_ok {σ α : Type} {found : Option α} {otherwise : Invariant} {s t : σ} {a : α}
    (h : (Transform.expect found otherwise).run s = .ok a t) : found = some a ∧ t = s := by
  cases found with
  | none => cases h
  | some a' =>
    cases h
    exact ⟨rfl, rfl⟩

/-- Asking for a body succeeds if there is one, and changes nothing. -/
theorem run_needBody_eq_ok {m n : Module} {a : Unit} :
    Transform.needBody.run m = .ok a n ↔ m.hasBody = true ∧ n = m := by
  rw [Transform.needBody, Outcome.run_get_bind]
  cases m.hasBody with
  | false => exact ⟨nofun, fun h => nomatch h.1⟩
  | true =>
    constructor
    · intro h
      cases h
      exact ⟨rfl, rfl⟩
    · rintro ⟨-, rfl⟩
      rfl

/-- Running a step that uses a builder keeps the builder's module. -/
theorem run_build {α : Type} (start : Module → Builder) (step : Lower α) (m : Module) :
    (Transform.build start step).run m =
      match step.run (start m) with
      | .ok a b => .ok a b.ir
      | .error e b => .error e b.ir := by
  unfold Transform.build EStateM.run
  beta_reduce
  cases step (start m) <;> rfl

end ContractIR
