import ContractIR.Proofs.Legalization.Assigning
import ContractIR.Proofs.Legalization.Conservation

/-!
# Legalizing twice

A module with a body, without anything but low-level operations, that is verified, is a fixed point
of legalization: there is no container to split, no function to hoist, and a single sweep finds that
every operation may stay.  What legalization leaves is such a module, whatever it started from.

## Main definitions

* `ContractIR.EraVM.Legalized` — legalization has nothing to do.

## Main results

* `ContractIR.EraVM.Legalized.run_eq` — legalization leaves such a module alone.
* `ContractIR.EraVM.legalized_of_legalize` — legalization leads to such a module.
* `ContractIR.EraVM.legalize_idempotent` — the second run changes nothing.
-/

set_option autoImplicit false

namespace ContractIR

/-! ## The body stays -/

namespace Module

variable {m n : Module}

/-- Taking an operation out keeps the body. -/
@[simp] theorem hasBody_detachOp (m : Module) (id : OpId) :
    (m.detachOp id).hasBody = m.hasBody := by
  simp [hasBody]

/-- Putting an operation in place keeps the body. -/
@[simp] theorem hasBody_insertOp (m : Module) (b : BlockId) (index : Option Nat) (id : OpId) :
    (m.insertOp b index id).hasBody = m.hasBody := by
  simp [hasBody, insertOp]

/-- A module with a body that grows has a body. -/
theorem Extends.hasBody {B : BlockId → Prop} (h : Extends B m n) (hm : m.hasBody = true) :
    n.hasBody = true := by
  have hlt : body.index < m.regions.size := index_lt_of_region_ne fun hd => by
    rw [Module.hasBody, hd] at hm
    cases hm
  rw [Module.hasBody, h.regions _ hlt]
  exact hm

end Module

namespace EraVM

open Conversion

variable {m n : Module}

/-- Hoisting some functions. -/
theorem hasBody_of_hoistFunctions {container : OpId} {ids : List OpId} {count : Nat}
    (h : (hoistFunctions container ids).run m = .ok count n) : n.hasBody = m.hasBody := by
  induction ids generalizing m count with
  | nil =>
    cases h
    rfl
  | cons id ids ih =>
    obtain ⟨-, p, rest, hmove, hrest⟩ := steps_of_hoistFunctions h
    obtain ⟨b, -, rfl⟩ := Module.eq_of_moveBefore hmove
    rw [ih hrest, Module.hasBody_insertOp, Module.hasBody_detachOp]

/-- Hoisting the functions of some containers. -/
theorem hasBody_of_hoistFrom {containers : List OpId} {count : Nat}
    (h : (hoistFrom containers).run m = .ok count n) : n.hasBody = m.hasBody := by
  induction containers generalizing m count with
  | nil =>
    cases h
    rfl
  | cons k ids ih =>
    obtain ⟨_, p, q, _, hhoist, herase, hrest⟩ := steps_of_hoistFrom h
    rw [ih hrest, Module.eq_of_eraseOp herase, Module.hasBody_detachOp]
    exact hasBody_of_hoistFunctions hhoist

/-- Hoisting needs a body, and leaves it. -/
theorem hasBody_of_hoist {count : Nat} (h : hoist.run m = .ok count n) : n.hasBody = true := by
  obtain ⟨hbody, hfrom⟩ := steps_of_hoist h
  exact (hasBody_of_hoistFrom hfrom).trans hbody

/-- Every pattern leaves the body.

**Proof sketch.** One case for each pattern: a return grows the module and is taken out, the
others change one operation, and none of them touches the list of the body's blocks. -/
theorem maintains_hasBody (contexts : Contexts) :
    ∀ p ∈ patterns contexts, Maintains (fun m => m.hasBody = true) p := by
  intro p hp m n x a hm hattached hkind hrun
  obtain ⟨b, hb⟩ := Module.exists_parent_of_isAttached hattached
  have hx := Module.op_lt_of_parent hb
  rcases mem_patterns.1 hp with rfl | rfl | rfl | ⟨r, hr, rfl⟩
  · obtain ⟨rfl, q, hext, rfl⟩ :=
      run_lowerReturnOp_eq_ok (B := fun _ => True) hx (fun _ _ => trivial) trivial hrun
    exact ⟨(Module.hasBody_detachOp q x).trans (hext.hasBody hm), fun h => Bool.noConfusion h⟩
  · have hrun : (lowerFuncOp x).run m = .ok a n := hrun
    rw [run_lowerFuncOp] at hrun
    split at hrun <;> cases hrun <;> exact ⟨hm, fun h => Bool.noConfusion h⟩
  · have hrun : (lowerAllocaOp x).run m = .ok a n := hrun
    rcases run_lowerAllocaOp_eq_ok hrun with ⟨-, rfl, -⟩ | ⟨rfl, v, elem, -, -, rfl⟩
    · exact ⟨hm, fun _ => rfl⟩
    · exact ⟨hm, fun h => Bool.noConfusion h⟩
  · cases hrun
    exact ⟨hm, fun h => Bool.noConfusion h⟩

/-! ## Fixed points -/

/-- Legalization has nothing to do: there is a body, everything in it is low-level, and the module
is verified. -/
structure Legalized (m : Module) : Prop where
  body : m.hasBody = true
  low : ∀ o ∈ m.walk, (m.kind o).dialect = .llvm
  verified : m.verify = .ok ()

/-- **Legalization leads to a module on which it has nothing to do**, whatever it started from. -/
theorem legalized_of_legalize {stats : Stats} (h : legalize.run m = .ok stats n) : Legalized n := by
  obtain ⟨s, t, count, -, hhoist, hconvert, hverify⟩ := steps_of_legalize h
  obtain ⟨hbody, hlegal⟩ := maintained_of_convert (maintains_hasBody (classify s))
    (hasBody_of_hoist hhoist) hconvert
  exact ⟨hbody, illegalOps_eq_nil_iff.1 hlegal, hverify⟩

namespace Legalized

/-- What stands directly in the body is part of the tree. -/
theorem mem_walk_of_mem_topLevel (h : Legalized m) {o : OpId} (ho : o ∈ m.topLevel) :
    o ∈ m.walk := by
  rw [Module.walk, Module.depthBound, Module.walkRegion]
  exact List.mem_flatMap.2 ⟨m.bodyBlock, Module.bodyBlock_mem h.body,
    List.mem_flatMap.2 ⟨o, ho, by simp⟩⟩

/-- There are no containers. -/
theorem topContainers_eq (h : Legalized m) : topContainers m = [] := by
  refine List.filter_eq_nil_iff.2 fun o ho => ?_
  rw [isContainer_of_dialect (h.low o (h.mem_walk_of_mem_topLevel ho))]
  exact Bool.false_ne_true

/-- No container is split. -/
theorem run_lowerContainers (h : Legalized m) : lowerContainers.run m = .ok () m := by
  refine Outcome.run_bind_eq_ok.2 ⟨(), m, run_needBody_eq_ok.2 ⟨h.body, rfl⟩, ?_⟩
  rw [Outcome.run_get_bind, h.topContainers_eq]
  rfl

/-- No function is hoisted. -/
theorem run_hoist (h : Legalized m) : hoist.run m = .ok 0 m := by
  refine Outcome.run_bind_eq_ok.2 ⟨(), m, run_needBody_eq_ok.2 ⟨h.body, rfl⟩, ?_⟩
  rw [Outcome.run_get_bind, h.topContainers_eq]
  rfl

end Legalized

/-- A sweep over low-level operations changes nothing. -/
theorem run_sweep_of_low {ps : List Pattern} {ids : List OpId}
    (h : ∀ o ∈ ids, (m.kind o).dialect = .llvm) (stats : Stats) (changed : Bool) :
    (sweep lowLevelTarget ps ids stats changed).run m = .ok (stats, changed) m := by
  induction ids with
  | nil => rfl
  | cons id ids ih =>
    have hlegal : lowLevelTarget.isLegal (m.kind id) = true := (isLegal_iff _).2 (h id (by simp))
    rw [sweep, Outcome.run_get_bind, hlegal, Bool.not_true, Bool.and_false]
    exact ih fun o ho => h o (by simp [ho])

namespace Legalized

/-- **The conversion comes to rest** in the first sweep. -/
theorem run_convert (h : Legalized m) (ps : List Pattern) :
    (convert lowLevelTarget ps).run m = .ok { sweeps := 1, rewrites := [] } m := by
  refine Outcome.run_bind_eq_ok.2 ⟨{ sweeps := 1, rewrites := [] }, m, ?_, ?_⟩
  · rw [maxSweeps, sweepUntilRest, Outcome.run_get_bind]
    exact Outcome.run_bind_eq_ok.2 ⟨_, m, run_sweep_of_low h.low _ _, rfl⟩
  · rw [Outcome.run_get_bind, illegalOps_eq_nil_iff.2 h.low]
    rfl

/-- **Legalization leaves a module alone** on which it has nothing to do. -/
theorem run_eq (h : Legalized m) :
    legalize.run m = .ok { sweeps := 1, rewrites := [] } m := by
  refine Outcome.run_bind_eq_ok.2 ⟨(), m, h.run_lowerContainers, ?_⟩
  rw [Outcome.run_get_bind]
  refine Outcome.run_bind_eq_ok.2 ⟨0, m, h.run_hoist, ?_⟩
  refine Outcome.run_bind_eq_ok.2 ⟨_, m, h.run_convert _, ?_⟩
  refine Outcome.run_bind_eq_ok.2 ⟨(), m, ?_, rfl⟩
  rw [run_verified, h.verified]

/-- Where the links agree, everything in the tree is low-level. -/
theorem dialect_eq (h : Legalized m) (hm : m.Linked) {o : OpId} (ho : m.isAttached o = true) :
    (m.kind o).dialect = .llvm :=
  h.low o (hm.mem_walk_iff.2 ho)

end Legalized

/-- Links that agree do so after legalization. -/
theorem linked_of_legalize (hm : m.Linked) {stats : Stats} (h : legalize.run m = .ok stats n) :
    n.Linked := by
  obtain ⟨s, t, count, hlower, hhoist, hconvert, -⟩ := steps_of_legalize h
  have hs := (assigns_of_lowerContainers hm hlower).2.linked
  exact (reworks_of_convert (lifts_of_hoist hs hhoist).1.linked hconvert).1

/-! ## Twice -/

/-- **Legalization is idempotent.**  Whatever module it started from, everything that a walk finds
in the result is low-level, and so is everything that belongs to the tree if the links agreed.
Legalizing the result succeeds after a single sweep without a rewrite, and gives the same module. -/
theorem legalize_idempotent {stats : Stats} (h : legalize.run m = .ok stats n) :
    (∀ o ∈ n.walk, (n.kind o).dialect = .llvm) ∧
      (m.Linked → ∀ o, n.isAttached o = true → (n.kind o).dialect = .llvm) ∧
      legalize.run n = .ok { sweeps := 1, rewrites := [] } n := by
  have hlegalized := legalized_of_legalize h
  exact ⟨hlegalized.low, fun hm o ho => hlegalized.dialect_eq (linked_of_legalize hm h) ho,
    hlegalized.run_eq⟩

/-- A contract with a function and some code is legalized, and then stays as it is. -/
theorem reachableCode_legalizedTwice :
    ∃ stats n, legalize.run reachableCode.ir = .ok stats n ∧
      (∀ o, n.isAttached o = true → (n.kind o).dialect = .llvm) ∧
      legalize.run n = .ok { sweeps := 1, rewrites := [] } n := by
  have hm : reachableCode.ir.Linked :=
    ((Builder.Reachable.new .unknown).foldl (by decide +kernel)).sound.linked
  have hends : Outcome.endsIn legalize reachableCode.ir (fun _ => true) = true := by decide +kernel
  obtain ⟨stats, n, h, -⟩ := Outcome.exists_of_endsIn hends
  obtain ⟨-, hlow, hagain⟩ := legalize_idempotent h
  exact ⟨stats, n, h, hlow hm, hagain⟩

end EraVM

end ContractIR
