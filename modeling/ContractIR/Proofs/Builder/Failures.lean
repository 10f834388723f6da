import ContractIR.Proofs.Builder.Growth
import ContractIR.Proofs.Module.Reachable

/-!
# Failed steps of a builder

Every step of a builder looks at the module first and refuses before it creates anything.  So a step
that fails leaves the builder as it was: the module, the place, and the location.  What follows the
creation of an operation cannot fail any more; for the entry block of a function or a container this
is so because the operation was created with the region that the block goes to.

## Main definitions

* `ContractIR.Build.Clean` — a step that fails leaves the builder as it was.
* `ContractIR.Build.Reads`, `ContractIR.Build.Total` — steps that leave the builder as it was, and
  steps that do not fail.
* `ContractIR.Helper.step` — a step of a builder with its outcome.

## Main results

* `ContractIR.Build.Clean.after_reads`, `ContractIR.Build.Clean.then_total` — what may be put in
  front of a step and behind it.
* `ContractIR.Helper.clean_step` — no failed step changes anything.
-/

set_option autoImplicit false

namespace ContractIR

/-- Two steps fail if the first one does, or the second one does from where the first one leads. -/
theorem Outcome.run_bind_eq_error {ε σ α β : Type} {x : EStateM ε σ α} {f : α → EStateM ε σ β}
    {s t : σ} {e : ε} :
    (x >>= f).run s = .error e t ↔
      x.run s = .error e t ∨ ∃ a u, x.run s = .ok a u ∧ (f a).run u = .error e t := by
  rw [EStateM.run_bind]
  cases x.run s with
  | error e' t' => simp
  | ok a t' => simp

namespace Build

variable {α β : Type}

/-- A step that fails leaves the builder as it was. -/
def Clean (x : Build α) : Prop := ∀ b c e, x.run b = .error e c → c = b

/-- A step leaves the builder as it was, whether it succeeds or fails. -/
def Reads (x : Build α) : Prop := ∀ b, leave x b = b

/-- A step does not fail. -/
def Total (x : Build α) : Prop := ∀ b c e, x.run b ≠ .error e c

/-- A step without its answer. -/
def forget (x : Build α) : Build Unit := do
  let _ ← x
  return ()

/-! ## Steps after each other -/

namespace Total

/-- An answer does not fail. -/
theorem pure (a : α) : Total (pure a) := fun _ _ _ h => nomatch h

/-- A change of the builder does not fail. -/
theorem modify (f : Builder → Builder) : Total (modify f) := fun _ _ _ h => nomatch h

/-- Two steps that do not fail do not fail after each other. -/
theorem bind {x : Build α} {f : α → Build β} (hx : Total x) (hf : ∀ a, Total (f a)) :
    Total (x >>= f) := by
  intro b c e h
  rcases Outcome.run_bind_eq_error.1 h with h | ⟨a, u, -, h⟩
  · exact hx b c e h
  · exact hf a u c e h

/-- Looking at the module does not fail. -/
theorem ir : Total ir := fun _ _ _ h => nomatch h

end Total

namespace Reads

/-- An answer leaves the builder as it was. -/
theorem pure (a : α) : Reads (pure a) := fun _ => rfl

/-- A failure leaves the builder as it was. -/
theorem throw (e : IrError) : Reads (throw e : Build α) := fun _ => rfl

/-- Two steps that leave the builder as it was do so after each other. -/
theorem bind {x : Build α} {f : α → Build β} (hx : Reads x) (hf : ∀ a, Reads (f a)) :
    Reads (x >>= f) := by
  intro b
  have hb := hx b
  rw [leave_bind]
  unfold leave at hb
  split
  · rename_i a c hrun
    rw [hrun] at hb
    rw [show c = b from hb, hf a b]
  · rename_i e c hrun
    rwa [hrun] at hb

/-- So does a choice of two such steps. -/
theorem ite {p : Prop} [Decidable p] {x y : Build α} (hx : Reads x) (hy : Reads y) :
    Reads (if p then x else y) := by
  split
  · exact hx
  · exact hy

/-- Looking at the module leaves the builder as it was. -/
theorem ir : Reads ir := fun _ => rfl

/-- Looking at a type leaves the builder as it was. -/
theorem typeOf (v : ValueId) : Reads (typeOf v) := fun _ => rfl

end Reads

namespace Clean

/-- A step that only fails is clean. -/
theorem throw (e : IrError) : Clean (throw e : Build α) := by
  intro b c e' h
  cases h
  rfl

/-- A step that does not fail is clean. -/
theorem of_total {x : Build α} (h : Total x) : Clean x := fun b c e hrun => absurd hrun (h b c e)

/-- A step may look at the builder first. -/
theorem after_reads {x : Build α} {f : α → Build β} (hx : Reads x) (hf : ∀ a, Clean (f a)) :
    Clean (x >>= f) := by
  intro b c e h
  have hb := hx b
  unfold leave at hb
  rcases Outcome.run_bind_eq_error.1 h with h | ⟨a, u, hrun, h⟩
  · rwa [h] at hb
  · rw [hrun] at hb
    rw [hf a u c e h, show u = b from hb]

/-- A step may be followed by one that does not fail. -/
theorem then_total {x : Build α} {f : α → Build β} (hx : Clean x) (hf : ∀ a, Total (f a)) :
    Clean (x >>= f) := by
  intro b c e h
  rcases Outcome.run_bind_eq_error.1 h with h | ⟨a, u, -, h⟩
  · exact hx b c e h
  · exact absurd h (hf a u c e)

/-- A step is clean without its answer. -/
theorem forget {x : Build α} (hx : Clean x) : Clean (forget x) :=
  hx.then_total fun _ => .pure ()

/-- A choice of two clean steps is clean. -/
theorem ite {p : Prop} [Decidable p] {x y : Build α} (hx : Clean x) (hy : Clean y) :
    Clean (if p then x else y) := by
  split
  · exact hx
  · exact hy

end Clean

/-! ## Checks -/

/-- The check of two integers only looks at types. -/
theorem reads_sameInteger (kind : OpKind) (lhs rhs : ValueId) : Reads (sameInteger kind lhs rhs) :=
  (Reads.typeOf lhs).bind fun _ => (Reads.typeOf rhs).bind fun _ => .ite (.pure _) (.throw _)

/-- The check of an extension only looks at types. -/
theorem reads_checkWidening (kind : OpKind) (v : ValueId) (target : Ty) :
    Reads (checkWidening kind v target) :=
  (Reads.typeOf v).bind fun _ => .ite (.pure _) (.throw _)

/-- Looking for the place of an operation changes nothing. -/
theorem reads_positionOf (id : OpId) : Reads (positionOf id) := by
  refine Reads.ir.bind fun m => ?_
  split
  · exact .throw _
  · split
    · exact .throw _
    · exact .pure _

/-! ## Operations and blocks -/

/-- An operation is refused before it is created. -/
theorem clean_op (spec : Module.OpSpec) : Clean (op spec) := by
  rintro ⟨ir, point, location⟩ c e h
  cases point with
  | none =>
    cases h
    rfl
  | some p => cases h

/-- An operation with a result is refused before it is created. -/
theorem clean_value (spec : Module.OpSpec) : Clean (value spec) :=
  (clean_op spec).then_total fun _ => Total.ir.bind fun _ => .pure _

/-- Putting an operation at the place is refused before anything moves. -/
theorem clean_place (id : OpId) : Clean (place id) := by
  rintro ⟨ir, point, location⟩ c e h
  cases point with
  | none =>
    cases h
    rfl
  | some p =>
    unfold place at h
    rw [EStateM.run_bind, EStateM.run_get] at h
    dsimp only at h
    split at h
    · cases h
      rfl
    · cases h

/-- A block is refused before it is created. -/
theorem clean_appendBlock (id : OpId) (index : Nat) (argTypes : List Ty) :
    Clean (appendBlock id index argTypes) := by
  intro b c e h
  unfold appendBlock at h
  rw [EStateM.run_bind, EStateM.run_get] at h
  dsimp only at h
  split at h
  · cases h
    rfl
  · cases h

/-- A block for a region that is there. -/
theorem run_appendBlock_ne_error {b c : Builder} {e : IrError} {id : OpId} {index : Nat}
    {r : RegionId} (hr : (b.ir.op id).regions[index]? = some r) (argTypes : List Ty) :
    (appendBlock id index argTypes).run b ≠ .error e c := by
  intro h
  unfold appendBlock at h
  rw [EStateM.run_bind, EStateM.run_get] at h
  simp only [hr] at h
  cases h

/-- **An operation with a region and its first block** are created both or not at all. -/
theorem clean_op_appendBlock {spec : Module.OpSpec} (hregions : spec.regions = 1)
    (argTypes : List Ty) (answer : OpId → BlockId → α) :
    Clean (do
      let id ← op spec
      let block ← appendBlock id 0 argTypes
      return answer id block) := by
  intro b c e h
  rcases Outcome.run_bind_eq_error.1 h with h | ⟨id, u, hop, h⟩
  · exact clean_op spec b c e h
  · obtain ⟨p, -, rfl, -, hir⟩ := run_op_eq_ok hop
    have hr : (u.ir.op ⟨b.ir.ops.size⟩).regions[0]? = some ⟨b.ir.regions.size⟩ := by
      rw [hir, Module.op_addOp, if_pos rfl]
      simp [Module.OpSpec.toOp, hregions]
    rcases Outcome.run_bind_eq_error.1 h with h | ⟨block, w, -, h⟩
    · exact absurd h (run_appendBlock_ne_error hr argTypes)
    · cases h

/-! ## The dialects -/

/-- A container is refused before it is created, and its block cannot be refused any more. -/
theorem clean_container (kind : SolOp) (name : String) : Clean (container kind name) :=
  .ite (clean_op_appendBlock rfl [] Prod.mk) (.throw _)

/-- A constant is refused before it is created. -/
theorem clean_integer (kind : OpKind) (n : Int) (ty : Ty) : Clean (integer kind n ty) :=
  .ite (clean_value _) (.throw _)

/-- Arithmetic is refused before it is created. -/
theorem clean_binary (kind : OpKind) (lhs rhs : ValueId) : Clean (binary kind lhs rhs) :=
  .after_reads (reads_sameInteger kind lhs rhs) fun _ => clean_value _

/-- A comparison is refused before it is created. -/
theorem clean_compare (kind : OpKind) (p : Predicate) (lhs rhs : ValueId) :
    Clean (compare kind p lhs rhs) :=
  .after_reads (reads_sameInteger kind lhs rhs) fun _ => clean_value _

/-- An extension is refused before it is created. -/
theorem clean_extend (kind : OpKind) (v : ValueId) (target : Ty) : Clean (extend kind v target) :=
  .after_reads (reads_checkWidening kind v target) fun _ => clean_value _

/-- A reading of a cell is refused before it is created. -/
theorem clean_loadCell (cell : ValueId) : Clean (loadCell cell) := by
  refine .after_reads (.typeOf cell) fun ty => ?_
  split
  · exact clean_value _
  · exact .throw _

/-- A writing of a cell is refused before it is created. -/
theorem clean_storeCell (v cell : ValueId) : Clean (storeCell v cell) :=
  .after_reads (.typeOf cell) fun _ => .after_reads (.typeOf v) fun _ =>
    .ite (clean_op _) (.throw _)

/-- A low-level function is refused before it is created, and its block cannot be refused any
more. -/
theorem clean_llvmFunc (name : String) (signature : Signature) (linkage : String)
    (hasBody : Bool) : Clean (Llvm.func name signature linkage hasBody) := by
  cases hasBody with
  | true => exact clean_op_appendBlock rfl signature.inputs fun id entry => (id, some entry)
  | false => exact (clean_op _).then_total fun _ => .pure _

/-- A branch gets its successors after it was created. -/
theorem clean_condBr (condition : ValueId) (thenBlock elseBlock : BlockId) :
    Clean (Llvm.condBr condition thenBlock elseBlock) :=
  .after_reads (.typeOf condition) fun _ =>
    .ite ((clean_op _).then_total fun _ => (Total.modify _).bind fun _ => .pure _) (.throw _)

end Build

/-! ## All steps -/

namespace Helper

open Build

/-- A step of a builder, with its outcome but without its answer. -/
def step : Helper → Build Unit
  | .setLocation location => Build.setLocation location
  | .toEnd block => Build.toEnd block
  | .toStart block => Build.toStart block
  | .nowhere => Build.nowhere
  | .before id => Build.before id
  | .after id => Build.after id
  | .place id => Build.place id
  | .op spec => forget (Build.op spec)
  | .value spec => forget (Build.value spec)
  | .appendBlock id index argTypes => forget (Build.appendBlock id index argTypes)
  | .container kind name => forget (Build.container kind name)
  | .solReturn offset length => forget (Build.solReturn offset length)
  | .func name signature => forget (Build.func name signature)
  | .funcReturn values => forget (Build.funcReturn values)
  | .funcCall callee args results => forget (Build.funcCall callee args results)
  | .constant n ty => forget (Build.constant n ty)
  | .addi lhs rhs => forget (Build.addi lhs rhs)
  | .muli lhs rhs => forget (Build.muli lhs rhs)
  | .andi lhs rhs => forget (Build.andi lhs rhs)
  | .cmpi p lhs rhs => forget (Build.cmpi p lhs rhs)
  | .extsi v target => forget (Build.extsi v target)
  | .extui v target => forget (Build.extui v target)
  | .allocaCell elem => forget (Build.allocaCell elem)
  | .loadCell cell => forget (Build.loadCell cell)
  | .storeCell v cell => forget (Build.storeCell v cell)
  | .llvmFunc name signature linkage hasBody =>
    forget (Llvm.func name signature linkage hasBody)
  | .llvmGlobal name ty linkage start => forget (Llvm.global name ty linkage start)
  | .llvmAddressOf name ptrTy => forget (Llvm.addressOf name ptrTy)
  | .llvmConstant n ty => forget (Llvm.constant n ty)
  | .llvmBinary kind lhs rhs => forget (Llvm.binary kind lhs rhs)
  | .llvmIcmp p lhs rhs => forget (Llvm.icmp p lhs rhs)
  | .llvmExtend kind v target => forget (Llvm.extend kind v target)
  | .llvmAlloca elem => forget (Llvm.alloca elem)
  | .llvmLoad ptr ty => forget (Llvm.load ptr ty)
  | .llvmStore v ptr => forget (Llvm.store v ptr)
  | .llvmPtrToInt ptr target => forget (Llvm.ptrToInt ptr target)
  | .llvmIntToPtr v target => forget (Llvm.intToPtr v target)
  | .llvmGep base indices elem => forget (Llvm.gep base indices elem)
  | .llvmCall callee args results => forget (Llvm.call callee args results)
  | .llvmRet values => forget (Llvm.ret values)
  | .llvmUnreachable => forget Llvm.unreachable
  | .llvmCondBr condition thenBlock elseBlock =>
    forget (Llvm.condBr condition thenBlock elseBlock)
  | .llvmBr dest => forget (Llvm.br dest)

/-- **No failed step changes anything**: the module, the place and the location are as they were.

**Proof sketch.** Steps that go somewhere look for the place first.  Steps that create something
look at the types of their operands first (`Build.Clean.after_reads`), then create an operation,
which fails without a place only, and what comes behind it cannot fail (`Build.Clean.then_total`,
`Build.clean_op_appendBlock`). -/
theorem clean_step (h : Helper) : Clean h.step := by
  cases h with
  | setLocation | toEnd | toStart | nowhere => exact .of_total (.modify _)
  | before id | after id => exact .after_reads (reads_positionOf id) fun _ => .of_total (.modify _)
  | place id => exact clean_place id
  | op spec => exact (clean_op spec).forget
  | value spec => exact (clean_value spec).forget
  | appendBlock id index argTypes => exact (clean_appendBlock id index argTypes).forget
  | container kind name => exact (clean_container kind name).forget
  | solReturn v w => exact (Clean.after_reads (reads_sameInteger _ v w) fun _ => clean_op _).forget
  | func name signature =>
    exact (clean_op_appendBlock rfl signature.inputs Prod.mk).forget
  | llvmFunc name signature linkage hasBody =>
    exact (clean_llvmFunc name signature linkage hasBody).forget
  | funcReturn | funcCall | llvmGlobal | llvmCall | llvmRet | llvmUnreachable =>
    exact (clean_op _).forget
  | allocaCell | llvmAddressOf | llvmAlloca => exact (clean_value _).forget
  | constant n ty | llvmConstant n ty => exact (clean_integer _ n ty).forget
  | addi v w | muli v w | andi v w => exact (clean_binary _ v w).forget
  | cmpi p v w | llvmIcmp p v w => exact (clean_compare _ p v w).forget
  | extsi v target | extui v target => exact (clean_extend _ v target).forget
  | loadCell cell => exact (clean_loadCell cell).forget
  | storeCell v cell => exact (clean_storeCell v cell).forget
  | llvmBinary kind v w => exact (Clean.ite (clean_binary _ v w) (.throw _)).forget
  | llvmExtend kind v target => exact (Clean.ite (clean_extend _ v target) (.throw _)).forget
  | llvmLoad v | llvmPtrToInt v | llvmIntToPtr v | llvmGep v =>
    exact (Clean.after_reads (.typeOf v) fun _ => .ite (clean_value _) (.throw _)).forget
  | llvmStore v ptr =>
    exact (Clean.after_reads (.typeOf ptr) fun _ => .ite (clean_op _) (.throw _)).forget
  | llvmCondBr condition thenBlock elseBlock =>
    exact (clean_condBr condition thenBlock elseBlock).forget
  | llvmBr dest =>
    exact ((clean_op _).then_total fun _ => (Total.modify _).bind fun _ => .pure _).forget

end Helper

end ContractIR
