import ContractIR.Proofs.Builder.Growth
import ContractIR.Proofs.Legalization.Success
import ContractIR.Proofs.Module.Rewriting

/-!
# What legalization builds

The symbols of the ABI, the entry function, the functions for the code of containers and the returns
from contract code are all built at one place, in new blocks, or both.  So the module grows in that
place only.

## Main results

* `ContractIR.EraVM.extends_declareSymbols`, `ContractIR.EraVM.extends_buildEntry` — the symbols and
  the entry function, in the first block of the body.
* `ContractIR.EraVM.extends_codeFunction` — functions for the code of a context.
* `ContractIR.EraVM.extends_terminate` — ends of functions.
* `ContractIR.EraVM.run_lowerReturnOp_eq_ok` — returns from contract code.
-/

set_option autoImplicit false

namespace ContractIR.EraVM

variable {B : BlockId → Prop} {m : Module}

/-! ## Steps -/

/-- What is expected to be there is there. -/
theorem adds_expect {α : Type} (found : Option α) (otherwise : Invariant) :
    Adds B m (Transform.expect found otherwise : Lower α) fun a => found = some a := by
  unfold Transform.expect
  split
  · exact .pure rfl
  · exact .throw _

/-- Writing a value to a global. -/
theorem adds_storeGlobal (v : ValueId) (g : Global) : Adds B m (storeGlobal v g) :=
  (Llvm.adds_addressOf _ _).bind fun _ _ => (Llvm.adds_store _ _).bind fun _ _ => .pure trivial

/-- Writing a value to some globals. -/
theorem adds_storeGlobals (v : ValueId) (gs : List Global) : Adds B m (storeGlobals v gs) := by
  induction gs with
  | nil => exact .pure trivial
  | cons g gs ih => exact (adds_storeGlobal v g).bind fun _ _ => ih

/-- The address of an extra word is computed by new operations. -/
theorem adds_extraSlot (base : ValueId) (slot : Nat) : Adds B m (extraSlot base slot) :=
  (Llvm.adds_constant _ _).bind fun _ _ => (Llvm.adds_constant _ _).bind fun _ _ =>
    Llvm.adds_gep _ _ _

/-- The extra words are stored by new operations. -/
theorem adds_storeExtra (base : ValueId) (slot : Nat) (vs : List ValueId) :
    Adds B m (storeExtra base slot vs) := by
  induction vs generalizing slot with
  | nil => exact .pure trivial
  | cons v vs ih =>
    exact (adds_extraSlot base slot).bind fun _ _ => (Llvm.adds_store _ _).bind fun _ _ =>
      ih (slot + 1)

/-- The call data is stored by new operations. -/
theorem adds_storeCalldata (calldata : ValueId) : Adds B m (storeCalldata calldata) :=
  (adds_storeGlobal _ _).bind fun _ _ => (Llvm.adds_ptrToInt _ _).bind fun _ _ =>
    (Llvm.adds_constant _ _).bind fun _ _ => (Llvm.adds_binary _ _ _).bind fun _ _ =>
    (Llvm.adds_constant _ _).bind fun _ _ => (Llvm.adds_binary _ _ _).bind fun _ _ =>
    (Llvm.adds_addressOf _ _).bind fun _ _ => (Llvm.adds_store _ _).bind fun _ _ =>
    (Llvm.adds_load _ _).bind fun _ _ => (Llvm.adds_gep _ _ _).bind fun _ _ =>
    adds_storeGlobals _ _

/-- A call in a block of its own, which is new. -/
theorem adds_callForever {block : BlockId} (hblock : m.blocks.size ≤ block.index)
    (callee : String) : Adds B m (callForever block callee) :=
  (adds_goTo (.inr hblock) none).bind fun _ _ => (adds_op _).bind fun _ _ =>
    (adds_op _).bind fun _ _ => .pure trivial

/-- The body of the entry function, in three new blocks. -/
theorem adds_buildEntryBody {entry deployBlock runtimeBlock : BlockId}
    (hentry : m.blocks.size ≤ entry.index) (hdeploy : m.blocks.size ≤ deployBlock.index)
    (hruntime : m.blocks.size ≤ runtimeBlock.index) :
    Adds B m (buildEntryBody entry deployBlock runtimeBlock) := by
  refine (adds_goTo (.inr hentry) none).bind fun _ _ => (adds_argsOf entry).bind fun args _ => ?_
  refine (Llvm.adds_constant _ _).bind fun zero _ => (adds_storeGlobals zero _).bind fun _ _ => ?_
  refine (Llvm.adds_addressOf _ _).bind fun extra _ => ?_
  refine (adds_storeExtra extra 0 _).bind fun _ _ => ?_
  refine (adds_storeCalldata _).bind fun _ _ => (adds_storeGlobal _ _).bind fun _ _ => ?_
  refine (adds_storeExtra extra 0 _).bind fun _ _ => ?_
  refine (Llvm.adds_constant _ _).bind fun one _ => (Llvm.adds_binary _ _ _).bind fun bit _ => ?_
  refine (Llvm.adds_icmp _ _ _).bind fun isDeploy _ => (Llvm.adds_condBr _ _ _).bind fun _ _ => ?_
  exact (adds_callForever hdeploy _).bind fun _ _ => adds_callForever hruntime _

/-! ## Symbols and the entry function -/

/-- Declaring those globals that are not there yet. -/
theorem adds_declareGlobals (gs : List Global) : Adds B m (declareGlobals gs) := by
  induction gs with
  | nil => exact .pure trivial
  | cons g gs ih =>
    refine adds_ir.bind fun n _ => ?_
    split
    · exact (adds_op _).bind fun _ _ => ih
    · exact ih

/-- The body of a module keeps its first block while the module grows. -/
theorem bodyBlock_of_extends {n : Module} {b : BlockId} (hext : Module.Extends B m n)
    (hbody : m.region Module.body = ⟨[b], none⟩) : n.bodyBlock = b := by
  have hlt : Module.body.index < m.regions.size :=
    Module.index_lt_of_region_ne fun hd => by
      rw [hd] at hbody
      cases congrArg Region.blocks hbody
  rw [Module.bodyBlock, hext.regions _ hlt, hbody]
  rfl

/-- A builder at the end of the body. -/
theorem grows_new {b : BlockId} (hbody : m.region Module.body = ⟨[b], none⟩) (hB : B b)
    (location : Location) : Builder.Grows B m { Builder.new m with location := location } where
  extends_ir := .refl B m
  place p hp := by
    obtain rfl := Option.some.inj hp
    rw [bodyBlock_of_extends (.refl B m) hbody]
    exact .inl hB

/-- Declaring the symbols of the ABI lets the body grow. -/
theorem extends_declareSymbols {n : Module} {b : BlockId} {a : Unit}
    (hbody : m.region Module.body = ⟨[b], none⟩) (hB : B b)
    (h : declareSymbols.run m = .ok a n) : Module.Extends B m n := by
  refine (extends_of_build (Q := fun _ => True) (grows_new hbody hB _) ?_ h).1
  refine adds_ir.liftM.bind fun n hn => ?_
  rw [bodyBlock_of_extends hn hbody]
  refine (adds_goTo (.inl hB) (some 0)).liftM.bind fun _ _ => ?_
  refine (adds_declareGlobals _).liftM.bind fun _ _ => adds_ir.liftM.bind fun _ _ => ?_
  split
  · exact (Llvm.adds_func _ _ _ _).liftM.bind fun _ _ => .pure trivial
  · exact .pure trivial

/-- Building the entry function lets the body grow. -/
theorem extends_buildEntry {n : Module} {b : BlockId} {location : Location} {id : OpId}
    (hbody : m.region Module.body = ⟨[b], none⟩) (hB : B b)
    (h : (buildEntry location).run m = .ok id n) : Module.Extends B m n := by
  refine (extends_of_build (Q := fun _ => True) (grows_new hbody hB _) ?_ h).1
  refine (Llvm.adds_func _ _ _ _).liftM.bind fun made hmade => ?_
  obtain ⟨function, entry⟩ := made
  refine (adds_expect entry _).bind fun entry' hentry => ?_
  refine (adds_appendBlock hmade.1 0 []).liftM.bind fun deployBlock hdeploy => ?_
  refine (adds_appendBlock hmade.1 0 []).liftM.bind fun runtimeBlock hruntime => ?_
  refine (adds_buildEntryBody (hmade.2 entry' hentry) hdeploy hruntime).liftM.bind fun _ _ => ?_
  exact .pure trivial

/-! ## Code of containers -/

/-- The function for the code of a context is there already, or the body grows by it. -/
theorem extends_codeFunction {n : Module} {b target : BlockId} {name : String}
    {context : CodeContext} (hbody : m.region Module.body = ⟨[b], none⟩) (hB : B b)
    (h : (codeFunction name context).run m = .ok target n) : Module.Extends B m n := by
  rcases steps_of_codeFunction h with ⟨rfl, -⟩ | ⟨-, f, p, hbuild, rfl⟩
  · exact .refl B n
  · obtain ⟨hext, hfunction, -⟩ := extends_of_build (grows_new hbody hB _)
      (Llvm.adds_func _ _ _ _).liftM hbuild
    exact hext.modifyOp hfunction (fun _ => rfl) (fun _ => rfl) (fun _ => rfl)

/-- Ending a function lets the block grow at which it is entered.

**Proof sketch.** Without an entry block, or with one that is ended, nothing happens.  Otherwise
a constant and a return are written at its end, both of which only add (`Adds`). -/
theorem extends_terminate {n : Module} {function : OpId} {a : Unit}
    (hB : ∀ entry, m.entryBlock? function = some entry → B entry)
    (h : (terminate function).run m = .ok a n) : Module.Extends B m n := by
  rw [terminate, Outcome.run_get_bind] at h
  cases hentry : m.entryBlock? function with
  | none =>
    rw [hentry] at h
    cases h
    exact .refl B _
  | some entry =>
    simp only [hentry] at h
    split at h
    · cases h
      exact .refl B _
    · refine (extends_of_build (Q := fun _ => True) ?_ ?_ h).1
      · refine ⟨.refl B m, fun p hp => ?_⟩
        obtain rfl := Option.some.inj hp
        exact .inl (hB entry hentry)
      · exact (adds_constant _ _).liftM.bind fun _ _ => (adds_solReturn _ _).liftM.bind fun _ _ =>
          .pure trivial

/-! ## Returns from contract code -/

/-- A word of the auxiliary memory is stored by new operations. -/
theorem adds_storeAux (offset word : Nat) : Adds B m (storeAux offset word) :=
  (adds_constant _ _).bind fun _ _ => (Llvm.adds_intToPtr _ _).bind fun _ _ =>
    (adds_constant _ _).bind fun _ _ => (Llvm.adds_store _ _).bind fun _ _ => .pure trivial

/-- The length of what is returned is read by new operations. -/
theorem adds_returnedLength : Adds B m returnedLength :=
  (adds_constant _ _).bind fun _ _ => (adds_constant _ _).bind fun _ _ =>
    (adds_binary _ _ _).bind fun _ _ => (adds_constant _ _).bind fun _ _ => adds_binary _ _ _

/-- Deployment returns by new operations. -/
theorem adds_deployReturn : Adds B m deployReturn :=
  (adds_storeAux _ _).bind fun _ _ => (adds_storeAux _ _).bind fun _ _ =>
    adds_returnedLength.bind fun _ _ => (adds_constant _ _).bind fun _ _ =>
    (adds_constant _ _).bind fun _ _ => (adds_funcCall _ _ _).bind fun _ _ => .pure trivial

/-- A call returns by new operations. -/
theorem adds_runtimeReturn (offset length : ValueId) : Adds B m (runtimeReturn offset length) :=
  (adds_constant _ _).bind fun _ _ => (adds_funcCall _ _ _).bind fun _ _ => .pure trivial

/-- A return from contract code: its block grows by what it becomes, and it is taken out.

**Proof sketch.** By the number of operands: two, or the rewrite refuses.  The code is written in
front of the return, or in the body for a declaration (`Adds`), and then the return is erased. -/
theorem run_lowerReturnOp_eq_ok {n : Module} {contexts : Contexts} {id : OpId} {a : Bool}
    (hid : id.index < m.ops.size) (hparent : ∀ block, (m.op id).parent = some block → B block)
    (hbody : B m.bodyBlock)
    (h : (lowerReturnOp contexts id).run m = .ok a n) :
    a = true ∧ ∃ p, Module.Extends B m p ∧ n = p.detachOp id := by
  rw [lowerReturnOp, Outcome.run_get_bind] at h
  obtain ⟨context, q, hcontext, h⟩ := Outcome.run_bind_eq_ok.1 h
  obtain ⟨_, rfl⟩ := run_expect_eq_ok hcontext
  split at h
  · obtain ⟨_, p, hbuild, herase⟩ := Outcome.run_bind_eq_ok.1 h
    obtain ⟨_, q, herase, hpure⟩ := Outcome.run_bind_eq_ok.1 herase
    cases hpure
    refine ⟨rfl, p, (extends_of_build (Q := fun _ => True) ?_ ?_ hbuild).1,
      Module.eq_of_eraseOp (run_liftM_eq_ok.1 herase)⟩
    · refine ⟨.refl B q, fun p hp => ?_⟩
      obtain rfl := Option.some.inj hp
      exact .inl hbody
    · refine (adds_before hid hparent).liftM.bind fun _ _ =>
        (adds_setLocation _).liftM.bind fun _ _ => ?_
      split
      · exact (adds_runtimeReturn _ _).liftM.bind fun _ _ => (adds_op _).liftM.bind fun _ _ =>
          .pure trivial
      · exact adds_deployReturn.liftM.bind fun _ _ => (adds_op _).liftM.bind fun _ _ =>
          .pure trivial
  · cases h

end ContractIR.EraVM
