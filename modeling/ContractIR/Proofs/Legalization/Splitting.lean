import ContractIR.Proofs.Legalization.Containers
import ContractIR.Proofs.Legalization.Declaring
import ContractIR.Proofs.Typing.Lowered

/-!
# Splitting decides

The containers of a lowered module hold no code, so that splitting them only declares symbols.  It
succeeds unless a deployable container comes when the name of the entry function is taken, be it by
an earlier deployable container or by a container of that name.

## Main definitions

* `ContractIR.EraVM.Decides` — a step succeeds under a condition, and is not supported otherwise.
* `ContractIR.EraVM.SplitsOnce` — at most one container in a list of names is deployable.

## Main results

* `ContractIR.EraVM.decides_splitContainers` — when containers are split.
-/

set_option autoImplicit false

namespace ContractIR.EraVM

open ContractIR.Module (Extends)

/-! ## Steps that decide -/

section Decides

variable {α β : Type}

/-- A step succeeds if a condition holds, and reports something that is not supported if it does
not. -/
inductive Decides (x : Transform α) (m : Module) (P : Prop) (Q : α → Module → Prop) : Prop
  | succeeds (a : α) (n : Module) (hP : P) (hrun : x.run m = .ok a n) (hQ : Q a n)
  | fails (what : Unsupported) (location : Location) (n : Module) (hP : ¬P)
    (hrun : x.run m = .error (.unsupported what location) n)

namespace Decides

variable {x : Transform α} {m : Module} {P R : Prop} {Q S : α → Module → Prop}

/-- A step that succeeds. -/
theorem of_run {a : α} {n : Module} (hrun : x.run m = .ok a n) (hQ : Q a n) :
    Decides x m True Q := .succeeds a n trivial hrun hQ

/-- One step after another. -/
theorem bind {f : α → Transform β} {T : β → Module → Prop} (hx : Decides x m P Q)
    (hf : ∀ a n, Q a n → Decides (f a) n R T) : Decides (x >>= f) m (P ∧ R) T := by
  cases hx with
  | succeeds a n hP hrun hQ =>
    cases hf a n hQ with
    | succeeds b p hR hrun' hT =>
      exact .succeeds b p ⟨hP, hR⟩ (by rw [EStateM.run_bind, hrun]; exact hrun') hT
    | fails what location p hR hrun' =>
      exact .fails what location p (fun h => hR h.2) (by rw [EStateM.run_bind, hrun]; exact hrun')
  | fails what location n hP hrun =>
    exact .fails what location n (fun h => hP h.1) (by rw [EStateM.run_bind, hrun])

/-- A step that succeeds, and then another one. -/
theorem of_run_bind {f : α → Transform β} {T : β → Module → Prop} {a : α} {n : Module}
    (hrun : x.run m = .ok a n) (hf : Decides (f a) n P T) : Decides (x >>= f) m P T := by
  cases hf with
  | succeeds b p hP hrun' hT =>
    exact .succeeds b p hP (by rw [EStateM.run_bind, hrun]; exact hrun') hT
  | fails what location p hP hrun' =>
    exact .fails what location p hP (by rw [EStateM.run_bind, hrun]; exact hrun')

/-- What holds of the outcome of a step that succeeds. -/
theorem of_ok (h : Decides x m P Q) {a : α} {n : Module} (hrun : x.run m = .ok a n) :
    P ∧ Q a n := by
  cases h with
  | succeeds b p hP hrun' hQ =>
    obtain ⟨rfl, rfl⟩ := EStateM.Result.ok.inj (hrun'.symm.trans hrun)
    exact ⟨hP, hQ⟩
  | fails what location p hP hrun' => cases hrun'.symm.trans hrun

/-- The outcome is that of the step. -/
theorem with_run (h : Decides x m P Q) : Decides x m P fun a n => x.run m = .ok a n ∧ Q a n := by
  cases h with
  | succeeds a n hP hrun hQ => exact .succeeds a n hP hrun ⟨hrun, hQ⟩
  | fails what location n hP hrun => exact .fails what location n hP hrun

/-- The same condition in other words, and less about the outcome. -/
theorem congr (h : Decides x m P Q) (hP : P ↔ R) (hQ : ∀ a n, Q a n → S a n) :
    Decides x m R S := by
  cases h with
  | succeeds a n hP₀ hrun hQ₀ => exact .succeeds a n (hP.1 hP₀) hrun (hQ a n hQ₀)
  | fails what location n hP₀ hrun => exact .fails what location n (fun h => hP₀ (hP.2 h)) hrun

end Decides

end Decides

/-! ## One container -/

section Containers

variable {env : Env} {containers : List OpId} {source : Source} {contracts : List Contract}
  {sites : List ContractSite} {m p : Module}

/-- Moving the code of a contract does nothing. -/
theorem run_moveCode {c : ContractSite} (hin : c.In p) (target : BlockId) (location : Location) :
    (moveCode c.body target location).run p = .ok () p := by
  have hany : (p.block c.body).ops.any (isCode p) = false := by
    rw [List.any_eq_false]
    intro o ho
    rw [isCode, hin.isFunction ho]
    simp [OpKind.isFunction]
  have hrun : (moveCode c.body target location).run p =
      .ok () (p.moveWhere c.body target isCode).2 := by
    rw [moveCode, Outcome.run_get_bind]
    simp only [hany, Bool.false_and, Bool.false_eq_true, ↓reduceIte]
    rfl
  rw [hrun, run_moveCode_contract hin hrun]

/-- There are no runtime objects where there are no containers. -/
theorem run_runtimeObjects {ids : List OpId} (hids : ∀ id ∈ ids, (p.kind id).isContainer = false) :
    (runtimeObjects ids).run p = .ok [] p := by
  induction ids with
  | nil => rfl
  | cons id ids ih =>
    rw [runtimeObjects, Outcome.run_get_bind]
    simp only [hids id (.head _), Bool.false_eq_true, ↓reduceIte]
    exact ih fun j hj => hids j (.tail _ hj)

/-- A contract with runtime code only adds the function for runtime code. -/
theorem exists_splitRuntime (hlayout : Layout source contracts sites m)
    (hext : Extends (· = ⟨0⟩) m p) (hp : Splitting env containers IsRoutine p) {c : ContractSite}
    (hc : c ∈ sites) (location : Location) :
    ∃ n, (splitRuntime c.body location).run p = .ok () n ∧
      Gains env containers p n (· = runtimeName) := by
  obtain ⟨e, n, hrun, hgains⟩ := exists_codeFunction hp (.inr rfl) .runtime
  refine ⟨n, ?_, hgains⟩
  rw [splitRuntime, EStateM.run_bind, hrun]
  exact run_moveCode ((hlayout.sites c hc).mono (hext.trans hgains.grown)) e location

/-- A deployable contract adds the entry function and both functions for code, unless the name of
the entry function is taken.

**Proof sketch.** By whether the name of the entry function is taken.  If not, the entry function
is built, code moves to the function for deploy code, and the function for runtime code is found
or made; each step succeeds and gains what it declares. -/
theorem decides_splitDeployable (hlayout : Layout source contracts sites m)
    (hext : Extends (· = ⟨0⟩) m p) (hp : Splitting env containers IsRoutine p)
    (hglobals : ∀ g : Global, env.symbols g.name) (hdeploy : env.symbols deployName)
    (hruntime : env.symbols runtimeName) {c : ContractSite} (hc : c ∈ sites)
    (location : Location) :
    Decides (splitDeployable c.name c.body location) p (¬p.Declared entryName) fun _ n =>
      Gains env containers p n fun x => x = entryName ∨ x = deployName ∨ x = runtimeName := by
  by_cases hdeclared : p.Declared entryName
  · refine .fails (.secondDeployable c.name) location p (not_not.2 hdeclared) ?_
    rw [splitDeployable, Outcome.run_get_bind, if_pos (hp.top.isSome_lookupTop?_iff.2 hdeclared)]
    rfl
  · have hin := (hlayout.sites c hc).mono hext
    have hnone : ¬(p.lookupTop? entryName).isSome = true := fun h =>
      hdeclared (hp.top.isSome_lookupTop?_iff.1 h)
    have hobjects : (runtimeObjects (p.block c.body).ops).run p = .ok [] p :=
      run_runtimeObjects fun o ho => by rw [hin.isFunction ho]; rfl
    obtain ⟨id, n₁, hentry, hgains₁⟩ :=
      gains_buildEntry hp hglobals hdeploy hruntime hdeclared location
    obtain ⟨e₂, n₂, hcode₂, hgains₂⟩ := exists_codeFunction hgains₁.splitting (.inl rfl) .deploy
    have hgains₁₂ := hgains₁.trans hgains₂
    have hmove := run_moveCode ((hlayout.sites c hc).mono (hext.trans hgains₁₂.grown)) e₂ location
    obtain ⟨e₃, n₃, hcode₃, hgains₃⟩ := exists_codeFunction hgains₂.splitting (.inr rfl) .runtime
    refine .succeeds () n₃ hdeclared ?_ ((hgains₁₂.trans hgains₃).congr fun x => or_assoc)
    rw [splitDeployable, Outcome.run_get_bind, if_neg hnone]
    simp only [EStateM.run_bind, hobjects, hentry, hcode₂, hmove, hcode₃]
    rfl

/-! ## All containers -/

/-- At most one name of a list is that of a deployable container, and none if the name of the
entry function is taken. -/
def SplitsOnce (taken : Prop) : List String → Prop
  | [] => True
  | x :: xs =>
    if CodeContext.isRuntimeName x then SplitsOnce taken xs else ¬taken ∧ SplitsOnce True xs

/-- The names of deployable containers. -/
def deployables (names : List String) : List String :=
  names.filter fun x => !CodeContext.isRuntimeName x

/-- Containers are split if they are not deployable, or if one is and the name is free. -/
theorem splitsOnce_iff (taken : Prop) (names : List String) :
    SplitsOnce taken names ↔ deployables names = [] ∨ ¬taken ∧ (deployables names).length = 1 := by
  induction names generalizing taken with
  | nil => simp [SplitsOnce, deployables]
  | cons x xs ih =>
    cases hx : CodeContext.isRuntimeName x with
    | true =>
      have hsame : deployables (x :: xs) = deployables xs := by simp [deployables, hx]
      rw [SplitsOnce, if_pos hx, ih, hsame]
    | false =>
      have hcons : deployables (x :: xs) = x :: deployables xs := by simp [deployables, hx]
      rw [SplitsOnce, if_neg (by simp [hx]), ih, hcons]
      simp

/-- **When containers are split**: if at most one of them is deployable, and none if the name of
the entry function is taken.

**Proof sketch.** Induction along the containers; what one of them adds is what the next one finds
declared. -/
theorem decides_splitContainers (hlayout : Layout source contracts sites m)
    (hext : Extends (· = ⟨0⟩) m p) (hp : Splitting env containers IsRoutine p)
    (hglobals : ∀ g : Global, env.symbols g.name) (hruntime : env.symbols runtimeName)
    {rest : List ContractSite} (hrest : ∀ c ∈ rest, c ∈ sites)
    (hdeploy : deployables (rest.map ContractSite.name) ≠ [] → env.symbols deployName) :
    Decides (splitContainers (rest.map ContractSite.id)) p
      (SplitsOnce (p.Declared entryName) (rest.map ContractSite.name)) fun _ n =>
        Gains env containers p n fun x => rest ≠ [] ∧ x = runtimeName ∨
          deployables (rest.map ContractSite.name) ≠ [] ∧ (x = entryName ∨ x = deployName) := by
  induction rest generalizing p with
  | nil => exact .of_run rfl (.refl hp (by simp [deployables]))
  | cons c rest ih =>
    have hin := (hlayout.sites c (hrest c (.head _))).mono hext
    have hname : p.symName? c.id = some c.name := by
      rw [Module.symName?, Module.attr?, hin.op]
      rfl
    have hcontainer : (containerName c.id).run p = .ok c.name p := by
      rw [containerName, Outcome.run_get_bind, hname]
      rfl
    have hbody : (Transform.expect (p.entryBlock? c.id) (.containerBody c.name) :
        Transform BlockId).run p = .ok c.body p := by
      rw [hin.entryBlock?_eq]
      rfl
    have hrest' : ∀ d ∈ rest, d ∈ sites := fun d hd => hrest d (.tail _ hd)
    refine .of_run_bind hcontainer ?_
    refine .of_run_bind (x := get) rfl ?_
    refine .of_run_bind hbody ?_
    cases hx : CodeContext.isRuntimeName c.name with
    | true =>
      have hsame : deployables ((c :: rest).map ContractSite.name) =
          deployables (rest.map ContractSite.name) := by simp [deployables, hx]
      obtain ⟨n, hrun, hgains⟩ :=
        exists_splitRuntime hlayout hext hp (hrest c (.head _)) (p.op c.id).location
      simp only [↓reduceIte]
      refine .of_run_bind hrun ?_
      refine (ih (hext.trans hgains.grown) hgains.splitting hrest' (hsame ▸ hdeploy)).congr ?_ ?_
      · rw [List.map_cons, SplitsOnce, if_pos hx, hgains.declared]
        simp [entryName, runtimeName]
      · intro _ q hq
        refine (hgains.trans hq).congr fun x => ?_
        rw [hsame]
        grind
    | false =>
      have hcons : deployables ((c :: rest).map ContractSite.name) =
          c.name :: deployables (rest.map ContractSite.name) := by simp [deployables, hx]
      simp only [Bool.false_eq_true, ↓reduceIte]
      have hsymbol := hdeploy (by rw [hcons]; simp)
      have hsplit := decides_splitDeployable hlayout hext hp hglobals hsymbol
        hruntime (hrest c (.head _)) (p.op c.id).location
      refine (hsplit.bind (R := SplitsOnce True (rest.map ContractSite.name)) ?_).congr ?_
        fun _ _ h => h
      · intro _ n hgains
        refine (ih (hext.trans hgains.grown) hgains.splitting hrest' fun _ => hsymbol).congr ?_ ?_
        · rw [hgains.declared]
          simp
        · intro _ q hq
          refine (hgains.trans hq).congr fun x => ?_
          rw [hcons]
          grind
      · rw [List.map_cons, SplitsOnce, if_neg (by simp [hx])]

end Containers

end ContractIR.EraVM
