import ContractIR.EraVM.Patterns
import ContractIR.Proofs.Outcome

/-!
# Steps that succeed

The steps that split containers, hoist functions and rewrite operations are sequences of smaller
steps, any of which may fail.  A step that succeeds went through all of them, each from the module
that the one before it left.  This is said once for each step here, so that what the smaller steps
keep is kept by the larger one without another look at how it is made up.

## Main results

* `ContractIR.EraVM.steps_of_lowerContainers`, `steps_of_splitContainers`,
  `steps_of_splitDeployable` — splitting, from all containers to a single one.
* `ContractIR.EraVM.steps_of_hoist`, `steps_of_hoistFrom`, `steps_of_hoistFunctions` — hoisting.
* `ContractIR.EraVM.run_runtimeObjects_eq_ok` — which operations are taken for runtime objects.
* `ContractIR.EraVM.run_lowerAllocaOp_eq_ok` — what becomes of a memory cell.
-/

set_option autoImplicit false

namespace ContractIR

namespace EraVM

variable {m n : Module} {a : Unit}

/-! ## Code -/

/-- The function for the code of a context was there, or it was made and marked. -/
theorem steps_of_codeFunction {name : String} {context : CodeContext} {e : BlockId}
    (h : (codeFunction name context).run m = .ok e n) :
    (n = m ∧ ∃ f, m.lookupTop? name = some f ∧ m.entryBlock? f = some e) ∨
      m.lookupTop? name = none ∧ ∃ f p,
        (Transform.build (fun m => { Builder.new m with location := m.location })
          (Build.Llvm.func name ⟨[], []⟩ "private" true)).run m = .ok (f, some e) p ∧
        n = p.setAttr f AttrName.isRuntime (.bool (decide (context = .runtime))) := by
  rw [codeFunction, Outcome.run_get_bind] at h
  cases hname : m.lookupTop? name with
  | some f =>
    rw [hname] at h
    obtain ⟨hentry, rfl⟩ := run_expect_eq_ok h
    exact .inl ⟨rfl, f, rfl, hentry⟩
  | none =>
    rw [hname] at h
    obtain ⟨⟨f, entry⟩, p, hbuild, h⟩ := Outcome.run_bind_eq_ok.1 h
    obtain ⟨e', q, hentry, hmark⟩ := Outcome.run_bind_eq_ok.1 h
    obtain ⟨rfl, rfl⟩ := run_expect_eq_ok hentry
    cases hmark
    exact .inr ⟨rfl, f, q, hbuild, rfl⟩

/-- Moving code moves the operations of the block that are code. -/
theorem run_moveCode_eq_ok {source target : BlockId} {location : Location}
    (h : (moveCode source target location).run m = .ok a n) :
    n = (m.moveWhere source target isCode).2 := by
  rw [moveCode, Outcome.run_get_bind] at h
  split at h
  · cases h
  · cases h
    rfl

/-- The function of a name is ended, if there is one. -/
theorem steps_of_terminateNamed {name : String} (h : (terminateNamed name).run m = .ok a n) :
    n = m ∨ ∃ f, m.lookupTop? name = some f ∧ (terminate f).run m = .ok () n := by
  rw [terminateNamed, Outcome.run_get_bind] at h
  split at h
  · rename_i f hf
    exact .inr ⟨f, hf, h⟩
  · cases h
    exact .inl rfl

/-! ## Splitting -/

/-- **The runtime objects** among some operations are the containers among them, and each of them
goes by a name of runtime code.

**Proof sketch.** Induction on the operations.  A container must have a name of runtime code and
joins the objects; anything else is passed over. -/
theorem run_runtimeObjects_eq_ok {ids objects : List OpId}
    (h : (runtimeObjects ids).run m = .ok objects n) :
    n = m ∧ objects = ids.filter (fun o => (m.kind o).isContainer) ∧
      ∀ o ∈ objects, ∃ x, m.symName? o = some x ∧ CodeContext.isRuntimeName x = true := by
  induction ids generalizing objects n with
  | nil =>
    cases h
    exact ⟨rfl, rfl, by simp⟩
  | cons id ids ih =>
    rw [runtimeObjects, Outcome.run_get_bind] at h
    split at h
    · rename_i hid
      obtain ⟨name, q, hname, hbranch⟩ := Outcome.run_bind_eq_ok.1 h
      obtain ⟨hname, rfl⟩ := run_expect_eq_ok hname
      split at hbranch
      · rename_i hruntime
        obtain ⟨objects', q', hrest, hpure⟩ := Outcome.run_bind_eq_ok.1 hbranch
        obtain ⟨rfl, rfl, hnames⟩ := ih hrest
        cases hpure
        exact ⟨rfl, by rw [List.filter_cons, if_pos hid],
          List.forall_mem_cons.2 ⟨⟨name, hname, hruntime⟩, hnames⟩⟩
      · cases hbranch
    · rename_i hid
      obtain ⟨rfl, rfl, hnames⟩ := ih h
      exact ⟨rfl, by rw [List.filter_cons, if_neg hid], hnames⟩

/-- The code of an object moves, and then that of the others. -/
theorem steps_of_moveObjects {target : BlockId} {id : OpId} {ids : List OpId}
    (h : (moveObjects target (id :: ids)).run m = .ok a n) :
    ∃ e p, m.entryBlock? id = some e ∧
      (moveCode e target (m.op id).location).run m = .ok () p ∧
      (moveObjects target ids).run p = .ok () n := by
  rw [moveObjects, Outcome.run_get_bind] at h
  obtain ⟨e, q, he, hmove⟩ := Outcome.run_bind_eq_ok.1 h
  obtain ⟨he, rfl⟩ := run_expect_eq_ok he
  obtain ⟨_, p, hmove, hrest⟩ := Outcome.run_bind_eq_ok.1 hmove
  exact ⟨e, p, he, hmove, hrest⟩

/-- **Splitting a deployable container** finds no entry function.  It makes one, moves the code of
the container to deploy code, and the code of the objects in it to runtime code. -/
theorem steps_of_splitDeployable {name : String} {body : BlockId} {location : Location}
    (h : (splitDeployable name body location).run m = .ok a n) :
    m.lookupTop? entryName = none ∧ ∃ objects f p₁ deploy p₂ p₃ runtime p₄,
      (runtimeObjects (m.block body).ops).run m = .ok objects m ∧
      (buildEntry location).run m = .ok f p₁ ∧
      (codeFunction deployName .deploy).run p₁ = .ok deploy p₂ ∧
      (moveCode body deploy location).run p₂ = .ok () p₃ ∧
      (codeFunction runtimeName .runtime).run p₃ = .ok runtime p₄ ∧
      (moveObjects runtime objects).run p₄ = .ok () n := by
  rw [splitDeployable, Outcome.run_get_bind] at h
  split at h
  · cases h
  · rename_i hnone
    obtain ⟨objects, q, hobjects, hrest⟩ := Outcome.run_bind_eq_ok.1 h
    obtain rfl := (run_runtimeObjects_eq_ok hobjects).1
    obtain ⟨f, p₁, hentry, hrest⟩ := Outcome.run_bind_eq_ok.1 hrest
    obtain ⟨deploy, p₂, hdeploy, hrest⟩ := Outcome.run_bind_eq_ok.1 hrest
    obtain ⟨_, p₃, hmove, hrest⟩ := Outcome.run_bind_eq_ok.1 hrest
    obtain ⟨runtime, p₄, hruntime, hobjects'⟩ := Outcome.run_bind_eq_ok.1 hrest
    exact ⟨by simpa using hnone, objects, f, p₁, deploy, p₂, p₃, runtime, p₄, hobjects, hentry,
      hdeploy, hmove, hruntime, hobjects'⟩

/-- **Splitting containers** splits the first one, which has a name and a body, by what its name
says, and then the others. -/
theorem steps_of_splitContainers {id : OpId} {ids : List OpId}
    (h : (splitContainers (id :: ids)).run m = .ok a n) :
    ∃ name e p, m.symName? id = some name ∧ m.entryBlock? id = some e ∧
      (CodeContext.isRuntimeName name = true ∧
          (splitRuntime e (m.op id).location).run m = .ok () p ∨
        CodeContext.isRuntimeName name = false ∧
          (splitDeployable name e (m.op id).location).run m = .ok () p) ∧
      (splitContainers ids).run p = .ok () n := by
  rw [splitContainers] at h
  obtain ⟨name, q, hname, hbody⟩ := Outcome.run_bind_eq_ok.1 h
  obtain ⟨hname, rfl⟩ := run_expect_eq_ok hname
  rw [Outcome.run_get_bind] at hbody
  obtain ⟨e, q', he, hsplit⟩ := Outcome.run_bind_eq_ok.1 hbody
  obtain ⟨he, rfl⟩ := run_expect_eq_ok he
  split at hsplit
  · rename_i hruntime
    obtain ⟨_, p, hsplit, hrest⟩ := Outcome.run_bind_eq_ok.1 hsplit
    exact ⟨name, e, p, hname, he, .inl ⟨hruntime, hsplit⟩, hrest⟩
  · rename_i hdeploy
    obtain ⟨_, p, hsplit, hrest⟩ := Outcome.run_bind_eq_ok.1 hsplit
    exact ⟨name, e, p, hname, he, .inr ⟨Bool.eq_false_iff.2 hdeploy, hsplit⟩, hrest⟩

/-- **Splitting all containers** needs a body.  It leaves a module without containers; otherwise it
declares the symbols, splits the containers, and ends the functions for their code. -/
theorem steps_of_lowerContainers (h : lowerContainers.run m = .ok a n) :
    m.hasBody = true ∧ (topContainers m = [] ∧ n = m ∨
      ∃ q p₁ p₂, declareSymbols.run m = .ok () q ∧
        (splitContainers (topContainers m)).run q = .ok () p₁ ∧
        (terminateNamed deployName).run p₁ = .ok () p₂ ∧
        (terminateNamed runtimeName).run p₂ = .ok () n) := by
  rw [lowerContainers] at h
  obtain ⟨_, m', hneed, hlower⟩ := Outcome.run_bind_eq_ok.1 h
  obtain ⟨hbody, rfl⟩ := run_needBody_eq_ok.1 hneed
  refine ⟨hbody, ?_⟩
  rw [Outcome.run_get_bind] at hlower
  split at hlower
  · rename_i hnone
    cases hlower
    exact .inl ⟨hnone, rfl⟩
  · obtain ⟨_, q, hdeclare, hlower⟩ := Outcome.run_bind_eq_ok.1 hlower
    obtain ⟨_, p₁, hsplit, hlower⟩ := Outcome.run_bind_eq_ok.1 hlower
    obtain ⟨_, p₂, hdeploy, hruntime⟩ := Outcome.run_bind_eq_ok.1 hlower
    exact .inr ⟨q, p₁, p₂, hdeclare, hsplit, hdeploy, hruntime⟩

/-! ## Hoisting -/

section Hoisting

variable {k id : OpId} {ids containers : List OpId} {count : Nat}

/-- A function moves before its container if nothing in the body has its name, and then the others
do. -/
theorem steps_of_hoistFunctions (h : (hoistFunctions k (id :: ids)).run m = .ok count n) :
    m.lookupTop? ((m.symName? id).getD "") = none ∧ ∃ p rest,
      (Module.moveBefore id k).run m = .ok () p ∧
      (hoistFunctions k ids).run p = .ok rest n := by
  rw [hoistFunctions, Outcome.run_get_bind] at h
  dsimp only at h
  split at h
  · cases h
  · rename_i hnone
    obtain ⟨_, p, hmove, h⟩ := Outcome.run_bind_eq_ok.1 h
    obtain ⟨rest, q, hrest, hpure⟩ := Outcome.run_bind_eq_ok.1 h
    cases hpure
    exact ⟨by simpa using hnone, p, rest, run_liftM_eq_ok.1 hmove, hrest⟩

/-- The functions of a container move before it, and it is erased; then it is the turn of the
others. -/
theorem steps_of_hoistFrom (h : (hoistFrom (k :: containers)).run m = .ok count n) :
    ∃ moved p q rest,
      (hoistFunctions k ((m.walkOp k).filter fun o => (m.kind o).isFunction)).run m = .ok moved p ∧
      (Module.eraseOp k).run p = .ok () q ∧ (hoistFrom containers).run q = .ok rest n := by
  rw [hoistFrom, Outcome.run_get_bind] at h
  obtain ⟨moved, p, hmove, h⟩ := Outcome.run_bind_eq_ok.1 h
  obtain ⟨_, q, herase, h⟩ := Outcome.run_bind_eq_ok.1 h
  obtain ⟨rest, r, hrest, hpure⟩ := Outcome.run_bind_eq_ok.1 h
  cases hpure
  exact ⟨moved, p, q, rest, hmove, run_liftM_eq_ok.1 herase, hrest⟩

/-- Hoisting needs a body, and goes through the containers of it. -/
theorem steps_of_hoist (h : hoist.run m = .ok count n) :
    m.hasBody = true ∧ (hoistFrom (topContainers m)).run m = .ok count n := by
  rw [hoist] at h
  obtain ⟨_, m', hneed, hfrom⟩ := Outcome.run_bind_eq_ok.1 h
  obtain ⟨hbody, rfl⟩ := run_needBody_eq_ok.1 hneed
  exact ⟨hbody, hfrom⟩

end Hoisting

/-! ## Functions and cells -/

/-- A function becomes a low-level one that says who may see it. -/
theorem run_lowerFuncOp (m : Module) (id : OpId) :
    (lowerFuncOp id).run m = .ok true
      (if ((m.setKind id (.llvm .func)).attr? id AttrName.linkage).isNone then
        (m.setKind id (.llvm .func)).setAttr id AttrName.linkage (.str "external")
      else m.setKind id (.llvm .func)) := rfl

/-- **A memory cell** of which it is unknown what it holds stays; any other one becomes a stack
slot. -/
theorem run_lowerAllocaOp_eq_ok {id : OpId} {changed : Bool}
    (h : (lowerAllocaOp id).run m = .ok changed n) :
    changed = false ∧ n = m ∧ ((m.result? id 0).bind fun v => (m.typeOf v).element?) = none ∨
      changed = true ∧ ∃ v elem, m.result? id 0 = some v ∧ (m.typeOf v).element? = some elem ∧
        n = ((m.setType v AddressSpace.stack.ptr).setAttr id AttrName.elemType
          (.type elem)).setKind id (.llvm .alloca) := by
  rw [lowerAllocaOp, Outcome.run_get_bind] at h
  split at h
  · rename_i hv
    cases h
    exact .inl ⟨rfl, rfl, by rw [hv, Option.bind_none]⟩
  · rename_i v hv
    split at h
    · rename_i helem
      cases h
      exact .inl ⟨rfl, rfl, by rw [hv, Option.bind_some, helem]⟩
    · rename_i elem helem
      cases h
      exact .inr ⟨rfl, v, elem, hv, helem, rfl⟩

/-! ## All patterns -/

/-- **The patterns**: one each for returns from contract code, functions and cells, and those that
only change a kind. -/
theorem mem_patterns {contexts : Contexts} {p : Conversion.Pattern} :
    p ∈ patterns contexts ↔
      p = ⟨"sol-return", .sol .ret, lowerReturnOp contexts⟩ ∨
        p = ⟨"func-func", .func .func, lowerFuncOp⟩ ∨
        p = ⟨"memref-alloca", .memref .alloca, lowerAllocaOp⟩ ∨
        ∃ r ∈ renames, p = renamePattern r.1 r.2.1 r.2.2 := by
  simp only [patterns, List.cons_append, List.nil_append, List.mem_cons, List.mem_map, eq_comm]

end EraVM

end ContractIR
