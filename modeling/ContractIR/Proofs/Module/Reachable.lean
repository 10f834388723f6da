import ContractIR.Builder.Ops
import ContractIR.Proofs.Module.Rewriting

/-!
# Reachable modules

The interface of a module is a list of commands: creating and moving operations and blocks, the
steps of rewriting, and the steps of a builder.  A command is valid if what it names exists, an
operation that it puts into a block stands in none, and nothing is put into itself.  In every module
that valid commands lead to, also failing ones, the links agree, and so do the two directions of a
walk.

## Main definitions

* `ContractIR.Helper`, `ContractIR.Command` — the steps of a builder, and all commands.
* `ContractIR.Command.Valid`, `ContractIR.Command.run` — when a command may be given, and what it
  leaves behind.
* `ContractIR.Builder.Reachable` — what valid commands lead to.

## Main results

* `ContractIR.Command.sound_run` — what one command keeps.
* `ContractIR.Builder.Reachable.sound` — what every sequence of commands keeps.
* `ContractIR.linked_of_reachable` — the links of a reachable module agree, and its walk lists the
  attached operations.
-/

set_option autoImplicit false

namespace ContractIR

/-! ## Commands -/

/-- A step of a builder.  A builder is started by going to a block and setting the location. -/
inductive Helper where
  | setLocation (location : Location)
  | toEnd (block : BlockId)
  | toStart (block : BlockId)
  | nowhere
  | before (id : OpId)
  | after (id : OpId)
  | place (id : OpId)
  | op (spec : Module.OpSpec)
  | value (spec : Module.OpSpec)
  | appendBlock (id : OpId) (index : Nat) (argTypes : List Ty)
  | container (kind : SolOp) (name : String)
  | solReturn (offset length : ValueId)
  | func (name : String) (signature : Signature)
  | funcReturn (values : List ValueId)
  | funcCall (callee : String) (args : List ValueId) (results : List Ty)
  | constant (n : Int) (ty : Ty)
  | addi (lhs rhs : ValueId)
  | muli (lhs rhs : ValueId)
  | andi (lhs rhs : ValueId)
  | cmpi (p : Predicate) (lhs rhs : ValueId)
  | extsi (v : ValueId) (target : Ty)
  | extui (v : ValueId) (target : Ty)
  | allocaCell (elem : Ty)
  | loadCell (cell : ValueId)
  | storeCell (v cell : ValueId)
  | llvmFunc (name : String) (signature : Signature) (linkage : String) (hasBody : Bool)
  | llvmGlobal (name : String) (ty : Ty) (linkage : String) (start : Option Attr)
  | llvmAddressOf (name : String) (ptrTy : Ty)
  | llvmConstant (n : Int) (ty : Ty)
  | llvmBinary (kind : LlvmOp) (lhs rhs : ValueId)
  | llvmIcmp (p : Predicate) (lhs rhs : ValueId)
  | llvmExtend (kind : LlvmOp) (v : ValueId) (target : Ty)
  | llvmAlloca (elem : Ty)
  | llvmLoad (ptr : ValueId) (ty : Ty)
  | llvmStore (v ptr : ValueId)
  | llvmPtrToInt (ptr : ValueId) (target : Ty)
  | llvmIntToPtr (v : ValueId) (target : Ty)
  | llvmGep (base : ValueId) (indices : List ValueId) (elem : Ty)
  | llvmCall (callee : String) (args : List ValueId) (results : List Ty)
  | llvmRet (values : List ValueId)
  | llvmUnreachable
  | llvmCondBr (condition : ValueId) (thenBlock elseBlock : BlockId)
  | llvmBr (dest : BlockId)

namespace Helper

/-- What a step leaves behind. -/
def run : Helper → Builder → Builder
  | .setLocation location => leave (Build.setLocation location)
  | .toEnd block => leave (Build.toEnd block)
  | .toStart block => leave (Build.toStart block)
  | .nowhere => leave Build.nowhere
  | .before id => leave (Build.before id)
  | .after id => leave (Build.after id)
  | .place id => leave (Build.place id)
  | .op spec => leave (Build.op spec)
  | .value spec => leave (Build.value spec)
  | .appendBlock id index argTypes => leave (Build.appendBlock id index argTypes)
  | .container kind name => leave (Build.container kind name)
  | .solReturn offset length => leave (Build.solReturn offset length)
  | .func name signature => leave (Build.func name signature)
  | .funcReturn values => leave (Build.funcReturn values)
  | .funcCall callee args results => leave (Build.funcCall callee args results)
  | .constant n ty => leave (Build.constant n ty)
  | .addi lhs rhs => leave (Build.addi lhs rhs)
  | .muli lhs rhs => leave (Build.muli lhs rhs)
  | .andi lhs rhs => leave (Build.andi lhs rhs)
  | .cmpi p lhs rhs => leave (Build.cmpi p lhs rhs)
  | .extsi v target => leave (Build.extsi v target)
  | .extui v target => leave (Build.extui v target)
  | .allocaCell elem => leave (Build.allocaCell elem)
  | .loadCell cell => leave (Build.loadCell cell)
  | .storeCell v cell => leave (Build.storeCell v cell)
  | .llvmFunc name signature linkage hasBody =>
    leave (Build.Llvm.func name signature linkage hasBody)
  | .llvmGlobal name ty linkage start => leave (Build.Llvm.global name ty linkage start)
  | .llvmAddressOf name ptrTy => leave (Build.Llvm.addressOf name ptrTy)
  | .llvmConstant n ty => leave (Build.Llvm.constant n ty)
  | .llvmBinary kind lhs rhs => leave (Build.Llvm.binary kind lhs rhs)
  | .llvmIcmp p lhs rhs => leave (Build.Llvm.icmp p lhs rhs)
  | .llvmExtend kind v target => leave (Build.Llvm.extend kind v target)
  | .llvmAlloca elem => leave (Build.Llvm.alloca elem)
  | .llvmLoad ptr ty => leave (Build.Llvm.load ptr ty)
  | .llvmStore v ptr => leave (Build.Llvm.store v ptr)
  | .llvmPtrToInt ptr target => leave (Build.Llvm.ptrToInt ptr target)
  | .llvmIntToPtr v target => leave (Build.Llvm.intToPtr v target)
  | .llvmGep base indices elem => leave (Build.Llvm.gep base indices elem)
  | .llvmCall callee args results => leave (Build.Llvm.call callee args results)
  | .llvmRet values => leave (Build.Llvm.ret values)
  | .llvmUnreachable => leave Build.Llvm.unreachable
  | .llvmCondBr condition thenBlock elseBlock =>
    leave (Build.Llvm.condBr condition thenBlock elseBlock)
  | .llvmBr dest => leave (Build.Llvm.br dest)

/-- The values that a step names. -/
def values : Helper → List ValueId
  | .op spec | .value spec => spec.operands
  | .solReturn v w | .addi v w | .muli v w | .andi v w | .cmpi _ v w | .storeCell v w
  | .llvmBinary _ v w | .llvmIcmp _ v w | .llvmStore v w => [v, w]
  | .funcReturn vs | .funcCall _ vs _ | .llvmCall _ vs _ | .llvmRet vs => vs
  | .extsi v _ | .extui v _ | .loadCell v | .llvmExtend _ v _ | .llvmLoad v _ | .llvmPtrToInt v _
  | .llvmIntToPtr v _ | .llvmCondBr v _ _ => [v]
  | .llvmGep v vs _ => v :: vs
  | _ => []

/-- The blocks that a step names. -/
def blocks : Helper → List BlockId
  | .toEnd b | .toStart b | .llvmBr b => [b]
  | .llvmCondBr _ b c => [b, c]
  | _ => []

/-- The operations that a step names. -/
def ops : Helper → List OpId
  | .before id | .after id | .place id | .appendBlock id _ _ => [id]
  | _ => []

/-- The operations that a step puts into the block that the builder stands in. -/
def placed : Helper → List OpId
  | .place id => [id]
  | _ => []

end Helper

/-- A command to a module, or to a builder that works on it. -/
inductive Command where
  | createOp (spec : Module.OpSpec) (location : Location)
  | appendBlock (region : RegionId) (argTypes : List Ty)
  | insertOp (block : BlockId) (index : Option Nat) (id : OpId)
  | detachOp (id : OpId)
  | takeBlocks (source target : RegionId)
  | setAttr (id : OpId) (name : String) (value : Attr)
  | setType (id : ValueId) (ty : Ty)
  | setKind (id : OpId) (kind : OpKind)
  | setOperands (id : OpId) (operands : List ValueId)
  | setSuccessors (id : OpId) (successors : List BlockId)
  | replaceUses (old new : ValueId)
  | eraseOp (id : OpId)
  | replaceOp (id : OpId) (values : List ValueId)
  | moveToEnd (id : OpId) (block : BlockId)
  | moveBefore (id anchor : OpId)
  | moveWhere (source target : BlockId) (test : Module → OpId → Bool)
  | build (step : Helper)

namespace Command

/-- Changes the module of a builder. -/
def onModule (f : Module → Module) (b : Builder) : Builder := { b with ir := f b.ir }

/-- What a command leaves behind. -/
def run : Command → Builder → Builder
  | .createOp spec location => onModule fun m => (m.createOp spec location).2
  | .appendBlock region argTypes => onModule fun m => (m.appendBlock region argTypes).2
  | .insertOp block index id => onModule fun m => m.insertOp block index id
  | .detachOp id => onModule fun m => m.detachOp id
  | .takeBlocks source target => onModule fun m => m.takeBlocks source target
  | .setAttr id name value => onModule fun m => m.setAttr id name value
  | .setType id ty => onModule fun m => m.setType id ty
  | .setKind id kind => onModule fun m => m.setKind id kind
  | .setOperands id operands => onModule fun m => m.setOperands id operands
  | .setSuccessors id successors => onModule fun m => m.setSuccessors id successors
  | .replaceUses old new => onModule fun m => m.replaceUses old new
  | .eraseOp id => onModule (leave (Module.eraseOp id))
  | .replaceOp id values => onModule (leave (Module.replaceOp id values))
  | .moveToEnd id block => onModule fun m => m.moveToEnd id block
  | .moveBefore id anchor => onModule (leave (Module.moveBefore id anchor))
  | .moveWhere source target test => onModule fun m => (m.moveWhere source target test).2
  | .build step => step.run

end Command

namespace Module

/-- The operation exists. -/
def HasOp (m : Module) (id : OpId) : Prop := id.index < m.ops.size

/-- The block exists. -/
def HasBlock (m : Module) (b : BlockId) : Prop := b.index < m.blocks.size

/-- The region exists. -/
def HasRegion (m : Module) (r : RegionId) : Prop := r.index < m.regions.size

/-- The value exists. -/
def HasValue (m : Module) (v : ValueId) : Prop := v.index < m.values.size

/-- The operation may be put into the block: both exist, and the block is not inside it. -/
def Fits (m : Module) (id : OpId) (b : BlockId) : Prop :=
  m.HasOp id ∧ m.HasBlock b ∧ id ∉ m.around (m.block b).parent

end Module

/-- A step of a builder may be made: what it names exists, and an operation that it puts into a
block stands in none and fits there. -/
def Helper.Valid (b : Builder) (h : Helper) : Prop :=
  (∀ v ∈ h.values, b.ir.HasValue v) ∧ (∀ x ∈ h.blocks, b.ir.HasBlock x) ∧
    (∀ id ∈ h.ops, b.ir.HasOp id) ∧
    ∀ id ∈ h.placed, ∀ p ∈ b.point, (b.ir.op id).parent = none ∧ b.ir.Fits id p.block

/-- A command may be given: what it names exists, an operation that it inserts stands in no block,
and nothing is put into itself. -/
def Command.Valid (b : Builder) : Command → Prop
  | .createOp spec _ => ∀ v ∈ spec.operands, b.ir.HasValue v
  | .appendBlock region _ => b.ir.HasRegion region
  | .insertOp block _ id => (b.ir.op id).parent = none ∧ b.ir.Fits id block
  | .detachOp id | .setAttr id _ _ | .setKind id _ | .eraseOp id => b.ir.HasOp id
  | .takeBlocks source target =>
    b.ir.HasRegion source ∧ b.ir.HasRegion target ∧
      ∀ x ∈ (b.ir.region source).blocks, ∀ o ∈ (b.ir.block x).ops, o ∉ b.ir.around target
  | .setType v _ => b.ir.HasValue v
  | .setOperands id operands | .replaceOp id operands =>
    b.ir.HasOp id ∧ ∀ v ∈ operands, b.ir.HasValue v
  | .setSuccessors id successors => b.ir.HasOp id ∧ ∀ x ∈ successors, b.ir.HasBlock x
  | .replaceUses old new => b.ir.HasValue old ∧ b.ir.HasValue new
  | .moveToEnd id block => b.ir.Fits id block
  | .moveBefore id anchor => b.ir.HasOp id ∧ b.ir.HasOp anchor ∧
      ∀ block ∈ (b.ir.op anchor).parent, b.ir.Fits id block
  | .moveWhere source target test => b.ir.HasBlock source ∧ b.ir.HasBlock target ∧
      ∀ o ∈ (b.ir.block source).ops, test b.ir o = true → b.ir.Fits o target
  | .build step => step.Valid b

section Decide

variable (m : Module) (b : Builder)

instance (id : OpId) : Decidable (m.HasOp id) := inferInstanceAs (Decidable (_ < _))

instance (x : BlockId) : Decidable (m.HasBlock x) := inferInstanceAs (Decidable (_ < _))

instance (r : RegionId) : Decidable (m.HasRegion r) := inferInstanceAs (Decidable (_ < _))

instance (v : ValueId) : Decidable (m.HasValue v) := inferInstanceAs (Decidable (_ < _))

instance (id : OpId) (x : BlockId) : Decidable (m.Fits id x) :=
  inferInstanceAs (Decidable (_ ∧ _ ∧ _))

instance (h : Helper) : Decidable (h.Valid b) := inferInstanceAs (Decidable (_ ∧ _ ∧ _ ∧ _))

instance (c : Command) : Decidable (c.Valid b) :=
  match c with
  | .createOp _ _ => inferInstanceAs (Decidable (∀ v ∈ _, _))
  | .appendBlock _ _ | .detachOp _ | .setAttr _ _ _ | .setKind _ _ | .eraseOp _ | .setType _ _ =>
    inferInstanceAs (Decidable (_ < _))
  | .insertOp _ _ _ | .replaceUses _ _ => inferInstanceAs (Decidable (_ ∧ _))
  | .takeBlocks _ _ => inferInstanceAs (Decidable (_ ∧ _ ∧ ∀ x ∈ _, ∀ o ∈ _, _))
  | .setOperands _ _ | .replaceOp _ _ | .setSuccessors _ _ =>
    inferInstanceAs (Decidable (_ ∧ ∀ v ∈ _, _))
  | .moveToEnd id x => inferInstanceAs (Decidable (b.ir.Fits id x))
  | .moveBefore _ _ => inferInstanceAs (Decidable (_ ∧ _ ∧ ∀ x ∈ _, _))
  | .moveWhere _ _ _ => inferInstanceAs (Decidable (_ ∧ _ ∧ ∀ o ∈ _, _ → _))
  | .build step => inferInstanceAs (Decidable (step.Valid b))

end Decide

/-- What valid commands lead to, starting with a builder at the body of the smallest module. -/
inductive Builder.Reachable : Builder → Prop where
  | new (location : Location) : Reachable (.new (.new location))
  | step {b : Builder} (c : Command) (hb : Reachable b) (hc : c.Valid b) : Reachable (c.run b)

/-- Commands may be given one after another. -/
def Command.ValidAll (b : Builder) : List Command → Prop
  | [] => True
  | c :: cs => c.Valid b ∧ ValidAll (c.run b) cs

instance Command.decidableValidAll (b : Builder) : (cs : List Command) → Decidable (ValidAll b cs)
  | [] => inferInstanceAs (Decidable True)
  | c :: cs =>
    have := decidableValidAll (c.run b) cs
    inferInstanceAs (Decidable (c.Valid b ∧ _))

/-- Valid commands lead from a reachable builder to a reachable one. -/
theorem Builder.Reachable.foldl {b : Builder} (hb : b.Reachable) {cs : List Command}
    (hcs : Command.ValidAll b cs) : (cs.foldl (fun b c => c.run b) b).Reachable := by
  induction cs generalizing b with
  | nil => exact hb
  | cons c cs ih => exact ih (hb.step c hcs.1) hcs.2

/-! ## What a builder keeps -/

/-- The links of a builder's module agree, the builder stands in a block that exists, and there are
at least so many values. -/
structure Builder.Sound (values : Nat) (b : Builder) : Prop where
  linked : b.ir.Linked
  place : ∀ p ∈ b.point, b.ir.HasBlock p.block
  values_le : values ≤ b.ir.values.size

section Steps

variable {n : Nat}

/-- Looking at the module keeps the links. -/
theorem preserves_ir : Preserves (Builder.Sound n) Build.ir := .get_bind fun _ hb => hb

/-- Looking at a type keeps the links. -/
theorem preserves_typeOf (v : ValueId) : Preserves (Builder.Sound n) (Build.typeOf v) :=
  preserves_ir.bind fun _ => .pure _

/-- The check of two integers keeps the links. -/
theorem preserves_sameInteger (kind : OpKind) (lhs rhs : ValueId) :
    Preserves (Builder.Sound n) (Build.sameInteger kind lhs rhs) :=
  (preserves_typeOf lhs).bind fun _ => (preserves_typeOf rhs).bind fun _ =>
    .ite (.pure _) (.throw _)

/-- The check of an extension keeps the links. -/
theorem preserves_checkWidening (kind : OpKind) (v : ValueId) (target : Ty) :
    Preserves (Builder.Sound n) (Build.checkWidening kind v target) :=
  (preserves_typeOf v).bind fun _ => .ite (.pure _) (.throw _)

/-- Going to a block that exists. -/
theorem Builder.Sound.goTo {b : Builder} (h : b.Sound n) {block : BlockId}
    (hblock : b.ir.HasBlock block) (index : Option Nat) :
    Builder.Sound n { b with point := some ⟨block, index⟩ } where
  linked := h.linked
  place p hp := by
    obtain rfl := Option.some.inj hp
    exact hblock
  values_le := h.values_le

/-- Asking for the position of an operation changes nothing, and the answer names its block. -/
theorem run_positionOf (id : OpId) (b : Builder) :
    (∃ e, (Build.positionOf id).run b = .error e b) ∨
      ∃ block i, (b.ir.op id).parent = some block ∧
        (Build.positionOf id).run b = .ok (block, i) b := by
  unfold Build.positionOf Build.ir
  cases hparent : (b.ir.op id).parent with
  | none =>
    refine .inl ⟨.place (.detached id), ?_⟩
    simp only [EStateM.run_bind, EStateM.run_get, EStateM.run_pure, hparent]
    rfl
  | some block =>
    cases hindex : b.ir.indexOf? id with
    | none =>
      refine .inl ⟨.place (.notListed id block), ?_⟩
      simp only [EStateM.run_bind, EStateM.run_get, EStateM.run_pure, hparent, hindex]
      rfl
    | some i => exact .inr ⟨block, i, rfl, by simp [hparent, hindex]⟩

/-- Going to a place next to an operation. -/
theorem preserves_nextTo (id : OpId) (index : Nat → Nat) :
    Preserves (Builder.Sound n) (do
      let (block, i) ← Build.positionOf id
      modify fun b => { b with point := some ⟨block, some (index i)⟩ }) := by
  intro b hb
  rw [leave_bind]
  rcases run_positionOf id b with ⟨e, hrun⟩ | ⟨block, i, hparent, hrun⟩
  · rw [hrun]
    exact hb
  · rw [hrun]
    exact hb.goTo (hb.linked.block_lt hparent) (some (index i))

/-! ### Operations and blocks -/

/-- Putting an operation that was made before in place. -/
theorem Builder.Sound.place_op {b : Builder} (hb : b.Sound n) {id : OpId}
    (hid : ∀ p ∈ b.point, (b.ir.op id).parent = none ∧ b.ir.Fits id p.block) :
    (leave (Build.place id) b).Sound n := by
  unfold Build.place leave
  rw [Outcome.run_get_bind]
  cases hpoint : b.point with
  | none => exact hb
  | some p =>
    obtain ⟨hdetached, hop, hblock, haround⟩ := hid p hpoint
    rw [hb.linked.mem_around_iff] at haround
    simp only [hdetached]
    refine ⟨hb.linked.insertOp hblock p.index hop hdetached haround, fun q hq => ?_, hb.values_le⟩
    obtain rfl := Option.some.inj hq
    show p.block.index < (b.ir.insertOp p.block p.index id).blocks.size
    rw [Module.size_blocks_insertOp]
    exact hblock

/-- Creating an operation whose operands exist.

**Proof sketch.** Without an insertion point nothing happens.  With one, the operation is added
to an existing block and reads existing values, so the links stay (`Linked.addOp`), and the point
behind it is in the same block. -/
theorem preserves_op {spec : Module.OpSpec} (hspec : ∀ v ∈ spec.operands, v.index < n) :
    Preserves (Builder.Sound n) (Build.op spec) := by
  refine .get_bind fun b hb => ?_
  cases hpoint : b.point with
  | none => exact hb
  | some p =>
    have hblock := hb.place p hpoint
    have hoperands : ∀ v ∈ spec.operands, v.index < b.ir.values.size :=
      fun v hv => Nat.lt_of_lt_of_le (hspec v hv) hb.values_le
    refine ⟨hb.linked.addOp spec b.location hoperands hblock p.index, ?_, ?_⟩
    · intro q hq
      obtain rfl := Option.some.inj hq
      show p.block.index < (b.ir.addOp spec b.location p.block p.index).blocks.size
      rw [Module.size_blocks_addOp]
      exact hblock
    · show n ≤ (b.ir.addOp spec b.location p.block p.index).values.size
      rw [Module.size_values_addOp]
      exact Nat.le_add_right_of_le hb.values_le

/-- Building an operation with a result keeps the links. -/
theorem preserves_value {spec : Module.OpSpec} (hspec : ∀ v ∈ spec.operands, v.index < n) :
    Preserves (Builder.Sound n) (Build.value spec) :=
  (preserves_op hspec).bind fun _ => preserves_ir.bind fun _ => .pure _

/-- Adding a block to an operation. -/
theorem preserves_appendBlock (id : OpId) (index : Nat) (argTypes : List Ty) :
    Preserves (Builder.Sound n) (Build.appendBlock id index argTypes) := by
  refine .get_bind fun b hb => ?_
  cases hregion : (b.ir.op id).regions[index]? with
  | none => exact hb
  | some r =>
    have hr := hb.linked.regions_lt (List.mem_of_getElem? hregion)
    refine ⟨hb.linked.appendBlock hr argTypes, fun p hp => ?_, ?_⟩
    · show p.block.index < (b.ir.appendBlock r argTypes).2.blocks.size
      rw [Module.size_blocks_appendBlock]
      exact Nat.lt_succ_of_lt (hb.place p hp)
    · show n ≤ (b.ir.appendBlock r argTypes).2.values.size
      rw [Module.size_values_appendBlock]
      exact Nat.le_add_right_of_le hb.values_le

/-- An operation gets successors. -/
theorem preserves_setSuccessors (id : OpId) (successors : List BlockId) :
    Preserves (Builder.Sound n) (Build.edit fun m => m.setSuccessors id successors) :=
  .modify fun _ hb =>
    ⟨hb.linked.modifyOp id (fun _ => rfl) (fun _ => rfl) (fun _ => rfl)
      (hb.linked.operands_lt id), hb.place, hb.values_le⟩

/-! ### The dialects -/

/-- Building a constant keeps the links. -/
theorem preserves_integer (kind : OpKind) (k : Int) (ty : Ty) :
    Preserves (Builder.Sound n) (Build.integer kind k ty) :=
  .ite (preserves_value (by simp)) (.throw _)

/-- Building arithmetic keeps the links. -/
theorem preserves_binary (kind : OpKind) {lhs rhs : ValueId} (hl : lhs.index < n)
    (hr : rhs.index < n) : Preserves (Builder.Sound n) (Build.binary kind lhs rhs) :=
  (preserves_sameInteger kind lhs rhs).bind fun _ => preserves_value (by simp [hl, hr])

/-- Building a comparison keeps the links. -/
theorem preserves_compare (kind : OpKind) (p : Predicate) {lhs rhs : ValueId} (hl : lhs.index < n)
    (hr : rhs.index < n) : Preserves (Builder.Sound n) (Build.compare kind p lhs rhs) :=
  (preserves_sameInteger kind lhs rhs).bind fun _ => preserves_value (by simp [hl, hr])

/-- Building an extension keeps the links. -/
theorem preserves_extend (kind : OpKind) {v : ValueId} (hv : v.index < n) (target : Ty) :
    Preserves (Builder.Sound n) (Build.extend kind v target) :=
  (preserves_checkWidening kind v target).bind fun _ => preserves_value (by simp [hv])

/-- Building a container keeps the links. -/
theorem preserves_container (kind : SolOp) (name : String) :
    Preserves (Builder.Sound n) (Build.container kind name) :=
  .ite ((preserves_op (by simp)).bind fun _ => (preserves_appendBlock _ _ _).bind fun _ => .pure _)
    (.throw _)

/-- Building a reading of a cell keeps the links. -/
theorem preserves_loadCell {cell : ValueId} (hcell : cell.index < n) :
    Preserves (Builder.Sound n) (Build.loadCell cell) := by
  refine (preserves_typeOf cell).bind fun ty => ?_
  split
  · exact preserves_value (by simp [hcell])
  · exact .throw _

/-- A function, with the block that it is entered at, if it has one. -/
theorem preserves_llvmFunc (name : String) (signature : Signature) (linkage : String)
    (hasBody : Bool) :
    Preserves (Builder.Sound n) (Build.Llvm.func name signature linkage hasBody) :=
  (preserves_op (by simp)).bind fun _ =>
    .ite ((preserves_appendBlock _ _ _).bind fun _ => .pure _) (.pure _)

/-- A branch gets its successors after it was created. -/
theorem preserves_condBr {condition : ValueId} (hcondition : condition.index < n)
    (thenBlock elseBlock : BlockId) :
    Preserves (Builder.Sound n) (Build.Llvm.condBr condition thenBlock elseBlock) :=
  (preserves_typeOf condition).bind fun _ =>
    .ite ((preserves_op (by simp [hcondition])).bind fun _ =>
      (preserves_setSuccessors _ _).bind fun _ => .pure _) (.throw _)

/-- **A step of a builder keeps the links.**

**Proof sketch.** One case for each helper.  Those that move the cursor go to a block that is
there; those that write are made of `op` and `value`, whose preservation lemmas are chained by
`Preserves.bind`. -/
theorem Helper.sound_run {b : Builder} (hb : b.Sound n) (h : Helper)
    (hvalid : h.Valid b) (hvalues : ∀ v ∈ h.values, v.index < n) : (h.run b).Sound n := by
  obtain ⟨_, hblocks, _, hplaced⟩ := hvalid
  cases h with
  | setLocation location => exact ⟨hb.linked, hb.place, hb.values_le⟩
  | toEnd block => exact hb.goTo (hblocks block (by simp [Helper.blocks])) none
  | toStart block => exact hb.goTo (hblocks block (by simp [Helper.blocks])) (some 0)
  | nowhere => exact ⟨hb.linked, nofun, hb.values_le⟩
  | before id => exact preserves_nextTo id (fun i => i) b hb
  | after id => exact preserves_nextTo id (fun i => i + 1) b hb
  | place id =>
    exact hb.place_op (hplaced id (by simp [Helper.placed]))
  | op spec => exact preserves_op hvalues b hb
  | value spec => exact preserves_value hvalues b hb
  | appendBlock id index argTypes => exact preserves_appendBlock id index argTypes b hb
  | container kind name => exact preserves_container kind name b hb
  | solReturn offset length =>
    exact (preserves_sameInteger _ _ _).bind (fun _ => preserves_op hvalues) b hb
  | func name signature =>
    exact (preserves_op (by simp)).bind
      (fun _ => (preserves_appendBlock _ _ _).bind fun _ => .pure _) b hb
  | funcReturn values => exact preserves_op hvalues b hb
  | funcCall callee args results => exact preserves_op hvalues b hb
  | constant k ty => exact preserves_integer _ k ty b hb
  | addi lhs rhs | muli lhs rhs | andi lhs rhs =>
    exact preserves_binary _ (hvalues lhs (by simp [Helper.values]))
      (hvalues rhs (by simp [Helper.values])) b hb
  | cmpi p lhs rhs =>
    exact preserves_compare _ p (hvalues lhs (by simp [Helper.values]))
      (hvalues rhs (by simp [Helper.values])) b hb
  | extsi v target | extui v target =>
    exact preserves_extend _ (hvalues v (by simp [Helper.values])) target b hb
  | allocaCell elem => exact preserves_value (by simp) b hb
  | loadCell cell => exact preserves_loadCell (hvalues cell (by simp [Helper.values])) b hb
  | storeCell v cell =>
    exact (preserves_typeOf cell).bind (fun _ => (preserves_typeOf v).bind fun _ =>
      .ite (preserves_op hvalues) (.throw _)) b hb
  | llvmFunc name signature linkage hasBody =>
    exact preserves_llvmFunc name signature linkage hasBody b hb
  | llvmGlobal name ty linkage start => exact preserves_op (by simp) b hb
  | llvmAddressOf name ptrTy => exact preserves_value (by simp) b hb
  | llvmConstant k ty => exact preserves_integer _ k ty b hb
  | llvmBinary kind lhs rhs =>
    exact Preserves.ite (preserves_binary _ (hvalues lhs (by simp [Helper.values]))
      (hvalues rhs (by simp [Helper.values]))) (.throw _) b hb
  | llvmIcmp p lhs rhs =>
    exact preserves_compare _ p (hvalues lhs (by simp [Helper.values]))
      (hvalues rhs (by simp [Helper.values])) b hb
  | llvmExtend kind v target =>
    exact Preserves.ite (preserves_extend _ (hvalues v (by simp [Helper.values])) target)
      (.throw _) b hb
  | llvmAlloca elem => exact preserves_value (by simp) b hb
  | llvmLoad ptr ty | llvmPtrToInt ptr ty | llvmIntToPtr ptr ty =>
    exact (preserves_typeOf ptr).bind
      (fun _ => .ite (preserves_value hvalues) (.throw _)) b hb
  | llvmStore v ptr =>
    exact (preserves_typeOf ptr).bind (fun _ => .ite (preserves_op hvalues) (.throw _)) b hb
  | llvmGep base indices elem =>
    exact (preserves_typeOf base).bind
      (fun _ => .ite (preserves_value hvalues) (.throw _)) b hb
  | llvmCall callee args results => exact preserves_op hvalues b hb
  | llvmRet values => exact preserves_op hvalues b hb
  | llvmUnreachable => exact preserves_op (by simp) b hb
  | llvmCondBr condition thenBlock elseBlock =>
    exact preserves_condBr (hvalues condition (by simp [Helper.values])) thenBlock elseBlock b hb
  | llvmBr dest =>
    exact (preserves_op (by simp)).bind
      (fun _ => (preserves_setSuccessors _ _).bind fun _ => .pure _) b hb

end Steps

/-! ## What every command keeps -/

/-- Another module whose links agree, with at least as many blocks. -/
theorem Builder.Sound.withModule {b : Builder} (hb : b.Sound 0) {m : Module} (hm : m.Linked)
    (hblocks : b.ir.blocks.size ≤ m.blocks.size) : Builder.Sound 0 { b with ir := m } :=
  ⟨hm, fun p hp => Nat.lt_of_lt_of_le (hb.place p hp) hblocks, Nat.zero_le _⟩

/-- What a step of rewriting leaves behind, if it keeps the links. -/
theorem Builder.Sound.withRewrite {b : Builder} (hb : b.Sound 0) {x : Rewrite Unit}
    (hx : Preserves (Module.LinkedWith b.ir.blocks.size b.ir.values.size) x) :
    Builder.Sound 0 { b with ir := leave x b.ir } := by
  have hstep := hx b.ir ⟨hb.linked, Nat.le_refl _, Nat.le_refl _⟩
  exact hb.withModule hstep.linked hstep.blocks_le

/-- **A valid command keeps the links.**

**Proof sketch.** One case for each command.  The commands of modules have the lemma that they
keep the links under what `Valid` asks for, those of builders have `Helper.sound_run`. -/
theorem Command.sound_run {b : Builder} (hb : b.Sound 0) {c : Command} (hc : c.Valid b) :
    (c.run b).Sound 0 := by
  have hm := hb.linked
  cases c with
  | createOp spec location =>
    exact hb.withModule (hm.createOp spec location hc) (by simp)
  | appendBlock region argTypes =>
    exact hb.withModule (hm.appendBlock hc argTypes) (by simp)
  | insertOp block index id =>
    obtain ⟨hdetached, hop, hblock, haround⟩ := hc
    rw [hm.mem_around_iff] at haround
    exact hb.withModule (hm.insertOp hblock index hop hdetached haround) (by simp)
  | detachOp id => exact hb.withModule (hm.detachOp id) (by simp)
  | takeBlocks source target =>
    obtain ⟨hsource, htarget, hinside⟩ := hc
    refine hb.withModule (hm.takeBlocks hsource htarget fun x hx o ho => ?_) (by simp)
    rw [← hm.mem_around_iff]
    exact hinside x hx o ho
  | setAttr id name value =>
    exact hb.withModule (hm.modifyOp id (fun _ => rfl) (fun _ => rfl) (fun _ => rfl)
      (hm.operands_lt id)) (Nat.le_refl _)
  | setType v ty => exact hb.withModule (hm.setType v ty) (Nat.le_refl _)
  | setKind id kind =>
    exact hb.withModule (hm.modifyOp id (fun _ => rfl) (fun _ => rfl) (fun _ => rfl)
      (hm.operands_lt id)) (Nat.le_refl _)
  | setOperands id operands =>
    exact hb.withModule (hm.modifyOp id (fun _ => rfl) (fun _ => rfl) (fun _ => rfl) hc.2)
      (Nat.le_refl _)
  | setSuccessors id successors =>
    exact hb.withModule (hm.modifyOp id (fun _ => rfl) (fun _ => rfl) (fun _ => rfl)
      (hm.operands_lt id)) (Nat.le_refl _)
  | replaceUses old new =>
    refine hb.withModule (hm.replaceUses old hc.2) ?_
    rw [(Module.size_replaceUses b.ir old new).2.1]
  | eraseOp id => exact hb.withRewrite (Module.preserves_eraseOp id)
  | replaceOp id values => exact hb.withRewrite (Module.preserves_replaceOp id hc.2)
  | moveToEnd id block =>
    obtain ⟨hop, hblock, haround⟩ := hc
    rw [hm.mem_around_iff] at haround
    exact hb.withModule (hm.move hop hblock haround none) (by simp [Module.moveToEnd])
  | moveBefore id anchor =>
    obtain ⟨hop, _, hfits⟩ := hc
    obtain ⟨hmoved, hblocks⟩ := hm.leave_moveBefore hop fun block hblock => by
      rw [← hm.mem_around_iff]
      exact (hfits block hblock).2.2
    exact hb.withModule hmoved hblocks.ge
  | moveWhere source target test =>
    obtain ⟨_, htarget, hfits⟩ := hc
    have hmem : ∀ o ∈ (b.ir.block source).ops.filter (test b.ir), b.ir.Fits o target := by
      intro o ho
      obtain ⟨hos, htest⟩ := List.mem_filter.1 ho
      exact hfits o hos htest
    refine hb.withModule
      (hm.foldl_moveToEnd htarget _ (fun o ho => (hmem o ho).1) fun o ho => ?_) ?_
    · rw [← hm.mem_around_iff]
      exact (hmem o ho).2.2
    · exact (Module.size_foldl_moveToEnd ..).ge
  | build step =>
    have hrun := step.sound_run ⟨hm, hb.place, Nat.le_refl _⟩ hc hc.1
    exact ⟨hrun.linked, hrun.place, Nat.zero_le _⟩

/-- **Every sequence of valid commands keeps the links.** -/
theorem Builder.Reachable.sound {b : Builder} (h : b.Reachable) : b.Sound 0 := by
  induction h with
  | new location =>
    refine ⟨Module.Linked.new location, fun p hp => ?_, Nat.zero_le _⟩
    obtain rfl := Option.some.inj hp
    exact Nat.one_pos
  | step c _ hc ih => exact Command.sound_run ih hc

/-- **The links of a reachable module agree at both ends, and its walk lists the attached
operations, each of them once.** -/
theorem linked_of_reachable {b : Builder} (h : b.Reachable) :
    b.ir.Linked ∧ b.ir.walk.Nodup ∧ ∀ o : OpId, o ∈ b.ir.walk ↔ b.ir.isAttached o = true :=
  ⟨h.sound.linked, h.sound.linked.nodup_walk, fun _ => h.sound.linked.mem_walk_iff⟩

/-- A function is built inside a contract and moved to the body, and the contract is erased. -/
def movedFunction : Builder :=
  [Command.build (.container .contract "C"), .build (.toEnd ⟨1⟩),
    .build (.func "f" ⟨[], [.word]⟩), .build (.toEnd ⟨2⟩), .build (.constant 7 .word),
    .build (.funcReturn [⟨0⟩]), .moveToEnd ⟨1⟩ ⟨0⟩, .eraseOp ⟨0⟩].foldl
    (fun b c => c.run b) (.new (.new .unknown))

/-- The module of the example is built by valid commands. -/
theorem reachable_movedFunction : movedFunction.Reachable :=
  (Builder.Reachable.new .unknown).foldl (by decide +kernel)

/-- The walk meets the function, and then what is nested in it. -/
theorem linked_movedFunction :
    movedFunction.ir.walk = [⟨1⟩, ⟨2⟩, ⟨3⟩] ∧ movedFunction.ir.Linked ∧
      movedFunction.ir.walk.Nodup ∧
      ∀ o : OpId, o ∈ movedFunction.ir.walk ↔ movedFunction.ir.isAttached o = true :=
  ⟨by decide +kernel, linked_of_reachable reachable_movedFunction⟩

end ContractIR
