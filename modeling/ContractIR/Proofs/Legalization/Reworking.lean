import ContractIR.Proofs.Legalization.Returning
import ContractIR.Proofs.Legalization.Rewrites

/-!
# What conversion makes of a module

Conversion changes operations in place, each into its low-level form, and replaces every return from
contract code by a sequence of new operations in the same block.  This is said of any module whose
links agree, whether it is well-typed or not: each block lists what became of the operations that it
listed, in the same order.

## Main definitions

* `ContractIR.EraVM.LowForm` — an operation in its low-level form.
* `ContractIR.EraVM.ReturnCode` — the sequence that a return from contract code becomes.
* `ContractIR.EraVM.Reworks` — what became of each operation of a module.
* `ContractIR.EraVM.ReturnsFor` — returns from contract code were replaced for their contexts.

## Main results

* `ContractIR.EraVM.Reworks.trans` — conversions follow each other.
* `ContractIR.EraVM.reworks_of_convert` — what a conversion that succeeds makes of a module.
-/

set_option autoImplicit false

namespace ContractIR.EraVM

open Conversion
open ContractIR.Module (Extends OpSpec)

/-! ## Low-level forms -/

/-- Low-level operations are no containers. -/
theorem isContainer_of_dialect {k : OpKind} (h : k.dialect = .llvm) : k.isContainer = false := by
  rcases k with k | k | k | k | k <;> first | rfl | cases h

/-- Low-level operations are their own low-level form. -/
theorem low_of_dialect {k : OpKind} (h : k.dialect = .llvm) : k.low = k := by
  rcases k with k | k | k | k | k <;> first | rfl | cases h

/-- One operation is another one in its low-level form: it has a new kind, and may have got another
linkage or element type. -/
structure LowForm (o p : Op) : Prop where
  kind : p.kind.low = o.kind.low
  operands : p.operands = o.operands
  results : p.results = o.results
  regions : p.regions = o.regions
  successors : p.successors = o.successors
  parent : p.parent = o.parent
  attrs : ∀ name, name ≠ AttrName.linkage → name ≠ AttrName.elemType →
    p.attrs.get? name = o.attrs.get? name

namespace LowForm

variable {o p q : Op}

/-- An operation that does not change is in its low-level form. -/
theorem refl (o : Op) : LowForm o o := ⟨rfl, rfl, rfl, rfl, rfl, rfl, fun _ _ _ => rfl⟩

/-- The low-level form of a low-level form is one. -/
theorem trans (h : LowForm o p) (k : LowForm p q) : LowForm o q where
  kind := k.kind.trans h.kind
  operands := k.operands.trans h.operands
  results := k.results.trans h.results
  regions := k.regions.trans h.regions
  successors := k.successors.trans h.successors
  parent := k.parent.trans h.parent
  attrs name hlinkage helem := (k.attrs name hlinkage helem).trans (h.attrs name hlinkage helem)

/-- Only a return from contract code has such a return as its low-level form. -/
theorem ne_return (h : LowForm o p) (ho : o.kind ≠ .sol .ret) : p.kind ≠ .sol .ret := by
  intro hp
  have hlow : o.kind.low = .sol .ret := by
    rw [← h.kind, hp]
    rfl
  revert hlow ho
  rcases o.kind with k | k | k | k | k <;> cases k <;> simp [OpKind.low]

/-- Containers have no low-level form. -/
theorem isContainer_eq (h : LowForm o p) (hp : p.kind.dialect = .llvm) :
    o.kind.isContainer = false := by
  cases hk : p.kind with
  | llvm k =>
    have hlow : (OpKind.llvm k).low = o.kind.low := by
      rw [← hk]
      exact h.kind
    revert hlow
    rcases o.kind with k' | k' | k' | k' | k' <;> cases k' <;> simp [OpKind.low, OpKind.isContainer]
  | _ =>
    rw [hk] at hp
    cases hp

/-- Functions have functions as their low-level form. -/
theorem kind_of_isFunction (h : LowForm o p) (ho : o.kind.isFunction = true)
    (hp : p.kind.dialect = .llvm) : p.kind = .llvm .func := by
  rw [← low_of_dialect hp, h.kind]
  revert ho
  rcases o.kind with k | k | k | k | k <;> cases k <;> simp [OpKind.low, OpKind.isFunction]

end LowForm

/-! ## Returns from contract code -/

/-- The kinds of the operations that write a word to the auxiliary heap. -/
def storeKinds : List LlvmOp := [.constant, .intToPtr, .constant, .store]

/-- The kinds of the operations that a return from contract code becomes. -/
def returnKinds : CodeContext → List LlvmOp
  | .runtime => [.constant, .call, .unreachable]
  | .deploy => storeKinds ++ storeKinds ++
      [.constant, .constant, .mul, .constant, .add, .constant, .constant, .call, .unreachable]

/-- Operations are the sequence that the return of a stretch of memory becomes in a context: they
end with a call of the return function, which gets the stretch where it is that of runtime code. -/
structure ReturnCode (n : Module) (context : CodeContext) (offset length : ValueId)
    (code : List OpId) : Prop where
  kinds : code.map (fun o => (n.kind o).low) = (returnKinds context).map OpKind.llvm
  calls : ∃ init call last, code = init ++ [call, last] ∧ n.callee? call = some returnName ∧
    (context = .runtime → ∃ mode, (n.op call).operands = [offset, length, mode])

/-- The sequence of a return stays one in low-level form. -/
theorem ReturnCode.of_lowForm {m n : Module} {context : CodeContext} {offset length : ValueId}
    {code : List OpId} (h : ReturnCode m context offset length code)
    (hcode : ∀ o ∈ code, LowForm (m.op o) (n.op o)) : ReturnCode n context offset length code where
  kinds := by
    rw [← h.kinds]
    exact List.map_congr_left fun o ho => (hcode o ho).kind
  calls := by
    obtain ⟨init, call, last, rfl, hcallee, hruntime⟩ := h.calls
    have hcall := hcode call (by simp)
    refine ⟨init, call, last, rfl, ?_, fun hcontext => ?_⟩
    · rw [Module.callee?, Module.attr?, hcall.attrs _ (by decide) (by decide)]
      exact hcallee
    · rw [hcall.operands]
      exact hruntime hcontext

section Returns

variable {x : BlockId} {b : Builder}

/-- A word. -/
theorem lays_constant (n : Int) :
    Lays x (Build.constant n Ty.word) b [.arith .constant] fun v c =>
      v.index < c.ir.values.size := by
  refine lays_value _ rfl ?_
  simp

/-- An operation on two words. -/
theorem lays_binary (kind : OpKind) {v w : ValueId} (hv : v.index < b.ir.values.size)
    (hw : w.index < b.ir.values.size) :
    Lays x (Build.binary kind v w) b [kind] fun v c => v.index < c.ir.values.size :=
  .read_bind (run_sameInteger_eq kind v w) fun _ => lays_value _ rfl (by simp [hv, hw])

/-- Writing a word to the auxiliary heap. -/
theorem lays_storeAux (offset word : Nat) :
    Lays x (storeAux offset word) b
      [.arith .constant, .llvm .intToPtr, .arith .constant, .llvm .store] fun _ _ => True := by
  refine (lays_constant _).bind fun address c₁ _ haddress => ?_
  have hpointer : Lays x (Build.Llvm.intToPtr address AddressSpace.auxHeap.ptr) c₁
      [.llvm .intToPtr] fun v c => v.index < c.ir.values.size :=
    .read_bind (run_typeOf_eq address) fun _ => .ite (lays_value _ rfl (by simp [haddress]))
  refine hpointer.bind fun pointer c₂ _ hpointer => ?_
  refine (lays_constant _).bind fun content c₃ h₃ hcontent => ?_
  have hoperands : ∀ v ∈ [content, pointer], v.index < c₃.ir.values.size := by
    simp only [List.forall_mem_cons, List.not_mem_nil, false_implies, implies_true, and_true]
    exact ⟨hcontent, Nat.lt_of_lt_of_le hpointer h₃⟩
  have hstore : Lays x (Build.Llvm.store content pointer) c₃ [.llvm .store] fun _ _ => True :=
    .read_bind (run_typeOf_eq pointer) fun _ => .ite (lays_op _ hoperands)
  exact hstore.bind fun _ _ _ _ => .pure trivial

/-- Computing the length of what a constructor returns. -/
theorem lays_returnedLength :
    Lays x returnedLength b [.arith .constant, .arith .constant, .arith .muli, .arith .constant,
      .arith .addi] fun v c => v.index < c.ir.values.size := by
  refine (lays_constant _).bind fun size c₁ _ hsize => ?_
  refine (lays_constant _).bind fun two c₂ h₂ htwo => ?_
  refine (lays_binary _ (Nat.lt_of_lt_of_le hsize h₂) htwo).bind fun doubled c₃ _ hdoubled => ?_
  refine (lays_constant _).bind fun header c₄ h₄ hheader => ?_
  exact lays_binary _ (Nat.lt_of_lt_of_le hdoubled h₄) hheader

/-- A step writes code of given kinds, and then a call of the return function. -/
def LaysCall {α : Type} (x : BlockId) (y : Build α) (b : Builder) (kinds : List OpKind)
    (P : List ValueId → Prop) : Prop :=
  Inserts x y b fun _ c code => ∃ init call, code = init ++ [call] ∧
    init.map c.ir.kind = kinds ∧ c.ir.kind call = .func .call ∧
    c.ir.callee? call = some returnName ∧ P (c.ir.op call).operands

/-- Code in front of a call. -/
theorem LaysCall.behind {α β : Type} {y : Build α} {f : α → Build β} {kinds more : List OpKind}
    {Q : α → Builder → Prop} {P : List ValueId → Prop} (hy : Lays x y b kinds Q)
    (hf : ∀ a c, b.ir.values.size ≤ c.ir.values.size → Q a c → LaysCall x (f a) c more P) :
    LaysCall x (y >>= f) b (kinds ++ more) P := by
  refine Inserts.bind hy fun a c code hcode ha => ?_
  refine Inserts.weaken (hf a c hcode.extends_ir.size_values ha.2) fun _ d new hnew hcall => ?_
  obtain ⟨init, call, rfl, hinit, hcall⟩ := hcall
  have hold : code.map d.ir.kind = code.map c.ir.kind :=
    List.map_congr_left fun o ho => congrArg Op.kind (hcode.op_eq hnew ho)
  exact ⟨code ++ init, call, by simp, by rw [List.map_append, hold, ha.1, hinit], hcall⟩

/-- The call itself. -/
theorem laysCall_funcCall {args : List ValueId} (hargs : ∀ v ∈ args, v.index < b.ir.values.size)
    {P : List ValueId → Prop} (hP : P args) :
    LaysCall x (do let _ ← Build.funcCall returnName args []) b [] P := by
  refine Inserts.bind (inserts_op _ hargs) fun call c code _ hcall => Inserts.pure ?_
  obtain ⟨rfl, hmade⟩ := hcall
  refine ⟨[], call, rfl, rfl, ?_⟩
  rw [Module.kind, Module.callee?, Module.attr?, hmade.op]
  exact ⟨rfl, rfl, hP⟩

/-- The kinds of what stands in front of the call of the return function. -/
def frontKinds : CodeContext → List OpKind
  | .runtime => [.arith .constant]
  | .deploy =>
    [.arith .constant, .llvm .intToPtr, .arith .constant, .llvm .store, .arith .constant,
      .llvm .intToPtr, .arith .constant, .llvm .store, .arith .constant, .arith .constant,
      .arith .muli, .arith .constant, .arith .addi, .arith .constant, .arith .constant]

/-- Returning from runtime code. -/
theorem laysCall_runtimeReturn {offset length : ValueId} (ho : offset.index < b.ir.values.size)
    (hl : length.index < b.ir.values.size) :
    LaysCall x (runtimeReturn offset length) b (frontKinds .runtime) fun args =>
      ∃ mode, args = [offset, length, mode] := by
  refine .behind (lays_constant _) fun mode c h hmode => laysCall_funcCall ?_ ⟨mode, rfl⟩
  simp only [List.forall_mem_cons, List.not_mem_nil, false_implies, implies_true, and_true]
  exact ⟨Nat.lt_of_lt_of_le ho h, Nat.lt_of_lt_of_le hl h, hmode⟩

/-- Returning from deploy code. -/
theorem laysCall_deployReturn :
    LaysCall x deployReturn b (frontKinds .deploy) fun _ => True := by
  refine .behind (lays_storeAux _ _) fun _ c₁ _ _ => ?_
  refine .behind (lays_storeAux _ _) fun _ c₂ _ _ => ?_
  refine .behind lays_returnedLength fun length c₃ _ hlength => ?_
  refine .behind (lays_constant _) fun offset c₄ h₄ hoffset => ?_
  refine .behind (lays_constant _) fun mode c₅ h₅ hmode => laysCall_funcCall ?_ trivial
  simp only [List.forall_mem_cons, List.not_mem_nil, false_implies, implies_true, and_true]
  exact ⟨Nat.lt_of_lt_of_le hoffset h₅, Nat.lt_of_lt_of_le hlength (Nat.le_trans h₄ h₅), hmode⟩

/-- Returning from code of either context. -/
theorem laysCall_returnBuild (context : CodeContext) {offset length : ValueId}
    (ho : offset.index < b.ir.values.size) (hl : length.index < b.ir.values.size) :
    LaysCall x (returnBuild context offset length) b (frontKinds context) fun args =>
      context = .runtime → ∃ mode, args = [offset, length, mode] := by
  cases context with
  | runtime =>
    refine Inserts.weaken (laysCall_runtimeReturn ho hl) fun _ c code _ hcode => ?_
    obtain ⟨init, call, hcode, hinit, hkind, hcallee, hargs⟩ := hcode
    exact ⟨init, call, hcode, hinit, hkind, hcallee, fun _ => hargs⟩
  | deploy =>
    refine Inserts.weaken laysCall_deployReturn fun _ c code _ hcode => ?_
    obtain ⟨init, call, hcode, hinit, hkind, hcallee, -⟩ := hcode
    exact ⟨init, call, hcode, hinit, hkind, hcallee, fun h => nomatch h⟩

/-- The kinds of the operations that a return is replaced by, as they are written. -/
def writtenKinds (context : CodeContext) : List OpKind :=
  frontKinds context ++ [.func .call, .llvm .unreachable]

/-- The low-level form of what is written for a return. -/
theorem map_low_writtenKinds (context : CodeContext) :
    (writtenKinds context).map OpKind.low = (returnKinds context).map OpKind.llvm := by
  cases context <;> rfl

/-- What is written for a return is no such return. -/
theorem ne_return_of_mem_writtenKinds (context : CodeContext) :
    ∀ k ∈ writtenKinds context, k ≠ .sol .ret := by
  cases context <;> decide

/-- **The sequence of a return** is written.

**Proof sketch.** The code up to the call is `laysCall_returnBuild`, and behind it stands the
operation that ends the block.  Writing that one leaves the operations in front as they are
(`op_eq`). -/
theorem inserts_returnBuild (context : CodeContext) {offset length : ValueId}
    (ho : offset.index < b.ir.values.size) (hl : length.index < b.ir.values.size) :
    Inserts x (do
      returnBuild context offset length
      let _ ← Build.Llvm.unreachable) b fun _ c code =>
        code.map c.ir.kind = writtenKinds context ∧
        ReturnCode c.ir context offset length code := by
  refine Inserts.bind (laysCall_returnBuild context ho hl) fun _ c code hcode hcall => ?_
  obtain ⟨init, call, rfl, hinit, hkind, hcallee, hargs⟩ := hcall
  refine Inserts.bind (inserts_op _ (by simp)) fun last d new hnew hlast => Inserts.pure ?_
  obtain ⟨rfl, hmade⟩ := hlast
  have hold : ∀ o ∈ init ++ [call], d.ir.op o = c.ir.op o := fun o ho => hcode.op_eq hnew ho
  have hfront : init.map d.ir.kind = frontKinds context := by
    rw [← hinit]
    exact List.map_congr_left fun o ho => congrArg Op.kind (hold o (by simp [ho]))
  have hcall : d.ir.kind call = .func .call := by
    rw [← hkind]
    exact congrArg Op.kind (hold call (by simp))
  have hlast : d.ir.kind last = .llvm .unreachable := by
    rw [Module.kind, hmade.op]
    rfl
  have hall : (init ++ [call] ++ ([last] ++ [])).map d.ir.kind = writtenKinds context := by
    simp [writtenKinds, hfront, hcall, hlast]
  refine ⟨hall, ?_, init, call, last, by simp, ?_, ?_⟩
  · have hlow := congrArg (List.map OpKind.low) hall
    rw [List.map_map, map_low_writtenKinds] at hlow
    exact hlow
  · rw [Module.callee?, Module.attr?, hold call (by simp)]
    exact hcallee
  · rw [hold call (by simp)]
    exact hargs

end Returns

/-- A return from contract code is replaced: its sequence is written in front of it, and then it is
dropped. -/
structure ReplacesReturn (m n : Module) (x : OpId) (b : BlockId) (context : CodeContext)
    (offset length : ValueId) (before behind code : List OpId) (p : Module) : Prop where
  operands : (m.op x).operands = [offset, length]
  ops : (m.block b).ops = before ++ x :: behind
  grown : Extends (· = b) m p
  linked : p.Linked
  size_blocks : p.blocks.size = m.blocks.size
  written : (p.block b).ops = before ++ code ++ x :: behind
  new : ∀ o : OpId, o ∈ code ↔ m.ops.size ≤ o.index ∧ o.index < p.ops.size
  kinds : code.map p.kind = writtenKinds context
  sequence : ReturnCode p context offset length code
  returns : Returns p context offset length code
  dropped : n = p.detachOp x

/-- Steps of building that follow each other may be lifted one by one. -/
theorem liftM_bind_build {α β : Type} (y : Build α) (f : α → Build β) :
    (liftM (y >>= f) : Lower β) = (liftM y >>= fun a => liftM (f a)) := by
  funext b
  have hrun := run_liftM (b := b) (y >>= f)
  refine hrun.trans ?_
  show _ = EStateM.run (liftM y >>= fun a => liftM (f a)) b
  rw [EStateM.run_bind, EStateM.run_bind, run_liftM]
  cases y.run b <;> rfl

/-- A return from contract code that is rewritten is replaced by its sequence.

**Proof sketch.** The run taken apart: the context is known and there are two operands, the
cursor moves in front of the return, the sequence is written there (`inserts_returnBuild`), and
the return is erased. -/
theorem replacesReturn_of_run {contexts : Contexts} {m n : Module} (hm : m.Linked) {x : OpId}
    {b : BlockId} (hb : (m.op x).parent = some b) {a : Bool}
    (h : (lowerReturnOp contexts x).run m = .ok a n) :
    a = true ∧ ∃ context offset length before behind code p,
      contexts.around? m x = some context ∧
      ReplacesReturn m n x b context offset length before behind code p := by
  rw [lowerReturnOp, Outcome.run_get_bind] at h
  obtain ⟨context, q, hcontext, h⟩ := Outcome.run_bind_eq_ok.1 h
  obtain ⟨hcontext, rfl⟩ := run_expect_eq_ok hcontext
  split at h
  case h_2 => cases h
  case h_1 offset length hoperands =>
    obtain ⟨_, p, hbuild, h⟩ := Outcome.run_bind_eq_ok.1 h
    obtain ⟨_, q', herase, hpure⟩ := Outcome.run_bind_eq_ok.1 h
    cases hpure
    obtain ⟨before, behind, hops⟩ := List.append_of_mem ((hm.op_parent x b).1 hb)
    have hlt := hm.operands_lt x
    rw [hoperands, List.forall_mem_cons, List.forall_mem_cons] at hlt
    rw [run_build] at hbuild
    split at hbuild
    case h_2 => cases hbuild
    case h_1 c hbuild' =>
      cases hbuild
      obtain ⟨_, b₁, hbefore, hrest⟩ := Outcome.run_bind_eq_ok.1 hbuild'
      rw [run_liftM, run_before hb (hm.indexOf?_eq hops)] at hbefore
      cases hbefore
      obtain ⟨_, b₂, hlocation, hrest⟩ := Outcome.run_bind_eq_ok.1 hrest
      cases hlocation
      have hat : Builder.At { Builder.new q with
          point := some ⟨b, some before.length⟩
          location := (q.op x).location } b before (x :: behind) :=
        ⟨hm.block_lt hb, hops, _, rfl, .inl rfl⟩
      have hinserts := ((inserts_returnBuild (x := b) (b := { Builder.new q with
          point := some ⟨b, some before.length⟩
          location := (q.op x).location }) context hlt.1 hlt.2.1).and
        (inserts_returns context hlt.1 hlt.2.1)).liftM
      simp only [liftM_bind_build] at hinserts
      obtain ⟨code, hcode, hc, ⟨hkinds, hsequence⟩, hreturns⟩ :=
        hinserts before (x :: behind) hat () c (by cases context <;> exact hrest)
      exact ⟨rfl, context, offset, length, before, behind, code, c.ir, hcontext, hoperands, hops,
        hcode.extends_ir, hcode.linked hm, hcode.size_blocks, hc.ops, hcode.new, hkinds, hsequence,
        hreturns, Module.eq_of_eraseOp (run_liftM_eq_ok.1 herase)⟩

/-! ## What becomes of a module -/

/-- A return from contract code was dropped, and operations that are new are its sequence. -/
structure Replaced (m n : Module) (o : OpId) (code : List OpId) : Prop where
  detached : (n.op o).parent = none
  sequence : ∃ context offset length, (m.op o).operands = [offset, length] ∧
    ReturnCode n context offset length code
  new : ∀ p ∈ code, m.ops.size ≤ p.index ∧ p.index < n.ops.size

/-- A return that was replaced is gone. -/
theorem Replaced.isAttached_eq_false {m n : Module} {o : OpId} {code : List OpId}
    (h : Replaced m n o code) : n.isAttached o = false := by
  refine Bool.eq_false_iff.2 fun hattached => ?_
  obtain ⟨b, hb⟩ := Module.exists_parent_of_isAttached hattached
  rw [h.detached] at hb
  cases hb

/-- What conversion makes of a module: each operation stays or gets its low-level form, but for
returns from contract code, which stay or are replaced.  Blocks list what became of the operations
that they listed. -/
structure Reworks (m n : Module) (become : OpId → List OpId) : Prop where
  size_ops : m.ops.size ≤ n.ops.size
  size_blocks : n.blocks.size = m.blocks.size
  size_regions : m.regions.size ≤ n.regions.size
  args : ∀ b, (n.block b).args = (m.block b).args
  parent : ∀ b, (n.block b).parent = (m.block b).parent
  listed : ∀ b, (n.block b).ops = (m.block b).ops.flatMap become
  regions : ∀ r : RegionId, r.index < m.regions.size → n.region r = m.region r
  low : ∀ o : OpId, o.index < m.ops.size → (m.kind o).dialect = .llvm →
    n.op o = m.op o ∧ ∀ v ∈ (m.op o).results, n.typeOf v = m.typeOf v
  code : ∀ o : OpId, o.index < m.ops.size → m.kind o ≠ .sol .ret →
    become o = [o] ∧ LowForm (m.op o) (n.op o)
  returns : ∀ o : OpId, o.index < m.ops.size → m.kind o = .sol .ret → n.kind o = .sol .ret ∧
    (become o = [o] ∧ n.op o = m.op o ∨ Replaced m n o (become o))
  new : ∀ o : OpId, m.ops.size ≤ o.index → o.index < n.ops.size → n.kind o ≠ .sol .ret

namespace Reworks

variable {m n p : Module} {become later : OpId → List OpId}

/-- Nothing is converted. -/
theorem refl (m : Module) : Reworks m m fun o => [o] where
  size_ops := Nat.le_refl _
  size_blocks := rfl
  size_regions := Nat.le_refl _
  args _ := rfl
  parent _ := rfl
  listed _ := by simp
  regions _ _ := rfl
  low _ _ _ := ⟨rfl, fun _ _ => rfl⟩
  code o _ _ := ⟨rfl, .refl _⟩
  returns o _ ho := ⟨ho, .inl ⟨rfl, rfl⟩⟩
  new o hle hlt := absurd hlt (Nat.not_lt.2 hle)

/-- Operations that are new are converted in place. -/
theorem flatMap_later (k : Reworks n p later) {code : List OpId}
    (hcode : ∀ o ∈ code, o.index < n.ops.size ∧ n.kind o ≠ .sol .ret) :
    code.flatMap later = code := by
  have hsame : code.flatMap later = code.flatMap fun o => [o] :=
    List.flatMap_congr fun o ho => (k.code o (hcode o ho).1 (hcode o ho).2).1
  rw [hsame]
  simp

/-- A return that was replaced stays so. -/
theorem replaced_trans (h : Reworks m n become) (k : Reworks n p later) {o : OpId}
    (ho : o.index < m.ops.size) (hkind : n.kind o = .sol .ret) {code : List OpId}
    (hcode : Replaced m n o code) : Replaced m p o (code.flatMap later) := by
  have hnew : ∀ x ∈ code, x.index < n.ops.size ∧ n.kind x ≠ .sol .ret := fun x hx =>
    ⟨(hcode.new x hx).2, h.new x (hcode.new x hx).1 (hcode.new x hx).2⟩
  obtain ⟨context, offset, length, hoperands, hsequence⟩ := hcode.sequence
  rw [k.flatMap_later hnew]
  refine ⟨?_, ⟨context, offset, length, hoperands, hsequence.of_lowForm fun x hx =>
    (k.code x (hnew x hx).1 (hnew x hx).2).2⟩, fun x hx =>
    ⟨(hcode.new x hx).1, Nat.lt_of_lt_of_le (hcode.new x hx).2 k.size_ops⟩⟩
  rcases (k.returns o (Nat.lt_of_lt_of_le ho h.size_ops) hkind).2 with ⟨-, hsame⟩ | hreplaced
  · rw [hsame]
    exact hcode.detached
  · exact hreplaced.detached

/-- **Conversions follow each other.**

**Proof sketch.** Field by field.  Low-level operations stay in both conversions and code keeps
its form in both; a return is replaced by the first one, by the second one, or by none. -/
theorem trans (h : Reworks m n become) (k : Reworks n p later) :
    Reworks m p fun o => (become o).flatMap later where
  size_ops := Nat.le_trans h.size_ops k.size_ops
  size_blocks := k.size_blocks.trans h.size_blocks
  size_regions := Nat.le_trans h.size_regions k.size_regions
  args b := (k.args b).trans (h.args b)
  parent b := (k.parent b).trans (h.parent b)
  listed b := by rw [k.listed, h.listed, List.flatMap_assoc]
  regions r hr := (k.regions r (Nat.lt_of_lt_of_le hr h.size_regions)).trans (h.regions r hr)
  low o ho hlow := by
    obtain ⟨hop, htypes⟩ := h.low o ho hlow
    obtain ⟨kop, ktypes⟩ := k.low o (Nat.lt_of_lt_of_le ho h.size_ops)
      (by rw [Module.kind, hop]; exact hlow)
    rw [hop] at kop ktypes
    exact ⟨kop, fun v hv => (ktypes v hv).trans (htypes v hv)⟩
  code o ho hkind := by
    obtain ⟨hbecome, hform⟩ := h.code o ho hkind
    obtain ⟨kbecome, kform⟩ := k.code o (Nat.lt_of_lt_of_le ho h.size_ops) (hform.ne_return hkind)
    exact ⟨by simp [hbecome, kbecome], hform.trans kform⟩
  returns o ho hkind := by
    obtain ⟨hn, hcases⟩ := h.returns o ho hkind
    obtain ⟨kn, kcases⟩ := k.returns o (Nat.lt_of_lt_of_le ho h.size_ops) hn
    refine ⟨kn, ?_⟩
    rcases hcases with ⟨hbecome, hop⟩ | hreplaced
    · rw [hbecome]
      rcases kcases with ⟨kbecome, kop⟩ | kreplaced
      · exact .inl ⟨by simp [kbecome], kop.trans hop⟩
      · obtain ⟨context, offset, length, hoperands, hsequence⟩ := kreplaced.sequence
        rw [hop] at hoperands
        refine .inr ⟨kreplaced.detached, ⟨context, offset, length, hoperands, by simpa⟩, ?_⟩
        intro x hx
        obtain ⟨hle, hlt⟩ := kreplaced.new x (by simpa using hx)
        exact ⟨Nat.le_trans h.size_ops hle, hlt⟩
    · exact .inr (h.replaced_trans k ho hn hreplaced)
  new o hle hlt := by
    by_cases hn : o.index < n.ops.size
    · exact (k.code o hn (h.new o hle hn)).2.ne_return (h.new o hle hn)
    · exact k.new o (Nat.not_lt.1 hn) hlt

/-- One operation gets its low-level form.

**Proof sketch.** Field by field.  A low-level operation and a return differ from the one that is
changed, and every other operation stays as it is. -/
theorem of_lowForm (hm : m.Linked) {x : OpId} (hdialect : (m.kind x).dialect ≠ .llvm)
    (hreturn : m.kind x ≠ .sol .ret) (hform : LowForm (m.op x) (n.op x))
    (hops : n.ops.size = m.ops.size) (hop : ∀ o, o ≠ x → n.op o = m.op o)
    (hblocks : n.blocks = m.blocks) (hregions : n.regions = m.regions)
    (htypes : ∀ v, v ∉ (m.op x).results → n.typeOf v = m.typeOf v) :
    Reworks m n fun o => [o] where
  size_ops := Nat.le_of_eq hops.symm
  size_blocks := by rw [hblocks]
  size_regions := by rw [hregions]
  args b := by rw [Module.block, hblocks]; rfl
  parent b := by rw [Module.block, hblocks]; rfl
  listed b := by
    rw [Module.block, hblocks]
    simp [Module.block]
  regions r _ := by rw [Module.region, hregions]; rfl
  low o ho hlow := by
    have hne : o ≠ x := by
      rintro rfl
      exact hdialect hlow
    exact ⟨hop o hne, fun v hv => htypes v fun hx => hne (hm.eq_of_mem_results hv hx)⟩
  code o _ _ := by
    refine ⟨rfl, ?_⟩
    by_cases hne : o = x
    · rw [hne]
      exact hform
    · rw [hop o hne]
      exact .refl _
  returns o _ hkind := by
    have hne : o ≠ x := by
      rintro rfl
      exact hreturn hkind
    rw [Module.kind, hop o hne]
    exact ⟨hkind, .inl ⟨rfl, rfl⟩⟩
  new o hle hlt := absurd hlt (Nat.not_lt.2 (hops ▸ hle))

end Reworks

/-! ## Patterns -/

section Patterns

variable {m n : Module} {x : OpId} {a : Bool}

/-- An operation only changes its kind. -/
theorem reworks_setKind (hm : m.Linked) {k : LlvmOp} (hx : x.index < m.ops.size)
    (hdialect : (m.kind x).dialect ≠ .llvm) (hreturn : m.kind x ≠ .sol .ret)
    (hlow : (m.kind x).low = .llvm k) :
    Reworks m (m.setKind x (.llvm k)) (fun o => [o]) ∧ (m.setKind x (.llvm k)).Linked := by
  refine ⟨.of_lowForm hm hdialect hreturn ?_ (Module.size_ops_modifyOp ..)
    (fun o ho => Module.op_modifyOp_of_ne _ _ ho) rfl rfl fun _ _ => rfl, ?_⟩
  · rw [Module.setKind, Module.op_modifyOp_self _ _ hx]
    exact ⟨hlow.symm, rfl, rfl, rfl, rfl, rfl, fun _ _ _ => rfl⟩
  · exact hm.modifyOp x (fun _ => rfl) (fun _ => rfl) (fun _ => rfl) (hm.operands_lt x)

/-- A function gets its linkage.

**Proof sketch.** By whether the linkage is missing.  If so, it is set besides the kind, and
neither attribute nor kind is more than a low form may change (`of_lowForm`). -/
theorem reworks_lowerFuncOp (hm : m.Linked) (hx : x.index < m.ops.size)
    (hkind : m.kind x = .func .func) (h : (lowerFuncOp x).run m = .ok a n) :
    a = true ∧ Reworks m n (fun o => [o]) ∧ n.Linked := by
  have hset := reworks_setKind (k := .func) hm hx (by rw [hkind]; decide) (by rw [hkind]; decide)
    (by rw [hkind]; rfl)
  rw [run_lowerFuncOp] at h
  split at h
  · cases h
    have hx' : x.index < (m.setKind x (.llvm .func)).ops.size := by
      rw [Module.setKind, Module.size_ops_modifyOp]
      exact hx
    refine ⟨rfl, .of_lowForm hm (by rw [hkind]; decide) (by rw [hkind]; decide) ?_ ?_ ?_ rfl rfl
      fun _ _ => rfl, ?_⟩
    · rw [Module.setAttr, Module.op_modifyOp_self _ _ hx', Module.setKind,
        Module.op_modifyOp_self _ _ hx]
      refine ⟨?_, rfl, rfl, rfl, rfl, rfl, fun name hlinkage _ => ?_⟩
      · show _ = (m.kind x).low
        rw [hkind]
        rfl
      · rw [AttrDict.get?_set, if_neg hlinkage]
    · simp [Module.setAttr, Module.setKind]
    · intro o ho
      rw [Module.setAttr, Module.op_modifyOp_of_ne _ _ ho, Module.setKind,
        Module.op_modifyOp_of_ne _ _ ho]
    · exact hset.2.modifyOp x (fun _ => rfl) (fun _ => rfl) (fun _ => rfl) (hset.2.operands_lt x)
  · cases h
    exact ⟨rfl, hset⟩

/-- A cell becomes a stack slot, or stays as it is.

**Proof sketch.** A cell whose contents are not known stays.  Otherwise its kind, an attribute
and the type of its value change (`asSlot`), which makes a low form of it. -/
theorem reworks_lowerAllocaOp (hm : m.Linked) (hx : x.index < m.ops.size)
    (hkind : m.kind x = .memref .alloca) (h : (lowerAllocaOp x).run m = .ok a n) :
    (a = false ∧ n = m) ∨ Reworks m n (fun o => [o]) ∧ n.Linked ∧ a = true := by
  rcases run_lowerAllocaOp_eq_ok h with ⟨rfl, rfl, -⟩ | ⟨rfl, v, elem, hv, helem, rfl⟩
  · exact .inl ⟨rfl, rfl⟩
  · have hmem : v ∈ (m.op x).results := List.mem_of_getElem? hv
    refine .inr ⟨.of_lowForm hm (by rw [hkind]; decide) (by rw [hkind]; decide) ?_ ?_
      (fun o ho => op_asSlot_of_ne ho) rfl rfl fun u hu => ?_, linked_asSlot hm x v elem, rfl⟩
    · rw [← asSlot, op_asSlot hx]
      refine ⟨?_, rfl, rfl, rfl, rfl, rfl, fun name _ helem => ?_⟩
      · show _ = (m.kind x).low
        rw [hkind]
        rfl
      · rw [AttrDict.get?_set, if_neg helem]
    · simp [Module.setAttr, Module.setKind, Module.setType]
    · rw [← asSlot, typeOf_asSlot (hm.results_lt x v hmem), if_neg]
      rintro rfl
      exact hu hmem

/-- What becomes of operations if a single one is replaced. -/
theorem flatMap_replace {ids code : List OpId} (hx : x ∉ ids) :
    (ids.flatMap fun o => if o = x then code else [o]) = ids := by
  have hsame : (ids.flatMap fun o => if o = x then code else [o]) = ids.flatMap fun o => [o] :=
    List.flatMap_congr fun o ho => if_neg fun h : o = x => hx (h ▸ ho)
  rw [hsame]
  simp

/-- Leaving out an operation that is not there. -/
theorem filter_ne_eq {ids : List OpId} (hx : x ∉ ids) :
    ids.filter (fun o => decide (o ≠ x)) = ids :=
  List.filter_eq_self.2 fun _ ho => decide_eq_true fun h => hx (h ▸ ho)

namespace ReplacesReturn

variable {b : BlockId} {context : CodeContext} {offset length : ValueId}
  {before behind code : List OpId} {p : Module}

/-- What a return is replaced by is no such return. -/
theorem plain (h : ReplacesReturn m n x b context offset length before behind code p) :
    ∀ o ∈ code, p.kind o ≠ .sol .ret := fun _ ho =>
  ne_return_of_mem_writtenKinds context _ (h.kinds ▸ List.mem_map_of_mem ho)

/-- What the blocks list when a return is replaced.

**Proof sketch.** In the block of the return, the code stands in front of the return, which is
then dropped; it occurs once there, and not in the code, which is new.  The other blocks are not
written. -/
theorem listed (h : ReplacesReturn m n x b context offset length before behind code p)
    (hm : m.Linked) (hb : (m.op x).parent = some b) (y : BlockId) :
    (n.block y).ops = (m.block y).ops.flatMap fun o => if o = x then code else [o] := by
  have hx : x.index < m.ops.size := Module.op_lt_of_parent hb
  have hxp : (p.op x).parent = some b := by
    rw [h.grown.ops x hx]
    exact hb
  rw [h.dropped, Module.block_detachOp, hxp]
  by_cases hy : y = b
  · subst hy
    have hnodup := hm.ops_nodup y
    rw [h.ops, List.nodup_middle, List.nodup_cons, List.mem_append, not_or] at hnodup
    have hcode : x ∉ code := fun hmem => absurd ((h.new x).1 hmem).1 (Nat.not_le.2 hx)
    rw [if_pos ⟨rfl, Module.block_lt_of_mem_ops ((h.linked.op_parent x y).1 hxp)⟩]
    simp only [h.written, h.ops, List.filter_append, List.flatMap_append, List.flatMap_cons,
      List.filter_cons, ne_eq, not_true_eq_false, decide_false, Bool.false_eq_true, if_false,
      if_true, flatMap_replace hnodup.1.1, flatMap_replace hnodup.1.2]
    rw [filter_ne_eq hnodup.1.1, filter_ne_eq hnodup.1.2, filter_ne_eq hcode, List.append_assoc]
  · rw [if_neg fun hc => hy (Option.some.inj hc.1).symm]
    have hsame : (p.block y).ops = (m.block y).ops := by
      by_cases hlt : y.index < m.blocks.size
      · rw [h.grown.blocks y hlt hy]
      · rw [Module.block_of_le (Nat.not_lt.1 hlt),
          Module.block_of_le (h.size_blocks ▸ Nat.not_lt.1 hlt)]
    rw [hsame, flatMap_replace]
    intro hmem
    rw [(hm.op_parent x y).2 hmem] at hb
    exact hy (Option.some.inj hb)

/-- Blocks keep their arguments and their regions when a return is replaced. -/
theorem block_eq (h : ReplacesReturn m n x b context offset length before behind code p)
    (y : BlockId) :
    (n.block y).args = (m.block y).args ∧ (n.block y).parent = (m.block y).parent := by
  have hp : (p.block y).args = (m.block y).args ∧ (p.block y).parent = (m.block y).parent := by
    by_cases hlt : y.index < m.blocks.size
    · obtain ⟨hargs, hparent, -⟩ := h.grown.grown y hlt
      exact ⟨hargs, hparent⟩
    · rw [Module.block_of_le (Nat.not_lt.1 hlt),
        Module.block_of_le (h.size_blocks ▸ Nat.not_lt.1 hlt)]
      exact ⟨rfl, rfl⟩
  rw [h.dropped, Module.block_detachOp]
  split <;> exact hp

/-- **A return from contract code becomes its sequence**, and nothing else changes.

**Proof sketch.** Old operations other than the return are not written, and the return only
leaves its block.  What is new is the code, whose form the replacement gives; nothing else is
new. -/
theorem reworks (h : ReplacesReturn m n x b context offset length before behind code p)
    (hm : m.Linked) (hb : (m.op x).parent = some b) (hkind : m.kind x = .sol .ret) :
    Reworks m n fun o => if o = x then code else [o] := by
  have hx : x.index < m.ops.size := Module.op_lt_of_parent hb
  have hop : ∀ o : OpId, o.index < m.ops.size → o ≠ x → n.op o = m.op o := by
    intro o ho hne
    rw [h.dropped, Module.op_detachOp, if_neg hne, h.grown.ops o ho]
  have hself : n.op x = { m.op x with parent := none } := by
    rw [h.dropped, Module.op_detachOp, if_pos rfl, h.grown.ops x hx]
  have hnew : ∀ o : OpId, m.ops.size ≤ o.index → n.op o = p.op o := by
    intro o ho
    rw [h.dropped, Module.op_detachOp, if_neg]
    rintro rfl
    exact absurd ho (Nat.not_le.2 hx)
  have hsize : n.ops.size = p.ops.size := by rw [h.dropped, Module.size_ops_detachOp]
  refine
    { size_ops := hsize ▸ h.grown.size_ops
      size_blocks := by rw [h.dropped, Module.size_blocks_detachOp, h.size_blocks]
      size_regions := by
        rw [h.dropped, Module.size_regions_detachOp]
        exact h.grown.size_regions
      args := fun y => (h.block_eq y).1
      parent := fun y => (h.block_eq y).2
      listed := h.listed hm hb
      regions := fun r hr => by rw [h.dropped, Module.region_detachOp, h.grown.regions r hr]
      low := fun o ho hlow => ?_
      code := fun o ho hne => ?_
      returns := fun o ho hret => ?_
      new := fun o hle hlt => ?_ }
  · have hne : o ≠ x := by
      rintro rfl
      rw [hkind] at hlow
      cases hlow
    refine ⟨hop o ho hne, fun v hv => ?_⟩
    rw [Module.typeOf, h.dropped, Module.value_detachOp, h.grown.values v (hm.results_lt o v hv)]
    rfl
  · have hox : o ≠ x := by
      rintro rfl
      exact hne hkind
    rw [hop o ho hox]
    exact ⟨if_neg hox, .refl _⟩
  · by_cases hox : o = x
    · subst hox
      rw [Module.kind, hself]
      refine ⟨hkind, .inr ⟨by rw [hself], ⟨context, offset, length, h.operands, ?_⟩, ?_⟩⟩
      · rw [if_pos rfl]
        refine h.sequence.of_lowForm fun q hq => ?_
        rw [hnew q ((h.new q).1 hq).1]
        exact .refl _
      · rw [if_pos rfl, hsize]
        exact fun q hq => (h.new q).1 hq
    · rw [Module.kind, hop o ho hox]
      exact ⟨hret, .inl ⟨if_neg hox, rfl⟩⟩
  · rw [Module.kind, hnew o hle]
    exact h.plain o ((h.new o).2 ⟨hle, hsize ▸ hlt⟩)

end ReplacesReturn

end Patterns

/-! ## Contexts of returns -/

namespace Reworks

variable {m n : Module} {become : OpId → List OpId} {o : OpId}

/-- What is converted in place acts as before. -/
theorem actsLike (h : Reworks m n become) (ho : o.index < m.ops.size)
    (hkind : m.kind o ≠ .sol .ret) : ActsLike m n o := by
  have hform := (h.code o ho hkind).2
  exact ⟨hform.kind, hform.operands, hform.results, hform.attrs, fun hlow => (h.low o ho hlow).2⟩

/-- What stands in a block stood there. -/
theorem parent_of_parent (h : Reworks m n become) (ho : o.index < m.ops.size) {b : BlockId}
    (hb : (n.op o).parent = some b) : (m.op o).parent = some b := by
  by_cases hkind : m.kind o = .sol .ret
  · rcases (h.returns o ho hkind).2 with ⟨-, hsame⟩ | hreplaced
    · rw [← hsame, hb]
    · rw [hreplaced.detached] at hb
      cases hb
  · rw [← (h.code o ho hkind).2.parent, hb]

/-- What has its regions is entered where it was. -/
theorem entryBlock?_eq (h : Reworks m n become) (hm : m.Linked)
    (hregions : (n.op o).regions = (m.op o).regions) : n.entryBlock? o = m.entryBlock? o :=
  Module.entryBlock?_congr hregions fun r hr => h.regions r (hm.regions_lt hr)

/-- What belongs to the tree belonged to it. -/
theorem isAttached_of_isAttached (h : Reworks m n become) (hm : m.Linked) (hn : n.Linked)
    (ho : o.index < m.ops.size) (hattached : n.isAttached o = true) : m.isAttached o = true :=
  hm.isAttached_of_isAttached hn (fun _ _ hlt hb => h.parent_of_parent hlt hb)
    (fun b _ => h.parent b) (fun r hr => by rw [h.regions r hr]) ho hattached

/-- **The operations around an operation of the tree** are those that were around it.

**Proof sketch.** Induction on what is around an operation.  It stands in the block in which it
stood, the block belongs to what it belonged to, and by induction that stays where it was. -/
theorem ancestors_eq (h : Reworks m n become) (hm : m.Linked) (hn : n.Linked)
    (ho : o.index < m.ops.size) (hattached : n.isAttached o = true) :
    n.ancestors o = m.ancestors o := by
  induction o using hn.acyclic.induction with
  | _ o ih =>
    obtain ⟨b, hb⟩ := Module.exists_parent_of_isAttached hattached
    have hmb := h.parent_of_parent ho hb
    have hparent : n.parentOp? o = m.parentOp? o := by
      rw [Module.parentOp?_eq_owner? hb, Module.parentOp?_eq_owner? hmb, Module.owner?, h.parent,
        h.regions _ (hm.parent_lt (hm.block_lt hmb))]
      rfl
    rw [hn.ancestors_eq, hm.ancestors_eq, hparent]
    split
    · rename_i p hp
      obtain ⟨b', -, howner⟩ := Module.up_iff.1 (show m.Up o p from hp)
      have hup : n.Up o p := hparent.trans hp
      rw [ih p hup (hm.owner_lt howner) (hn.isAttached_of_up hattached hup)]
    · rfl

end Reworks

/-- Returns from contract code that were replaced belonged to the tree, and what replaced them
returns for the context around them. -/
def ReturnsFor (contexts : Contexts) (m n : Module) (become : OpId → List OpId) : Prop :=
  ∀ o : OpId, o.index < m.ops.size → m.kind o = .sol .ret → Replaced m n o (become o) →
    m.isAttached o = true ∧ ∃ context offset length, contexts.around? m o = some context ∧
      (m.op o).operands = [offset, length] ∧ Returns n context offset length (become o)

namespace ReturnsFor

variable {contexts : Contexts} {m n p : Module} {become later : OpId → List OpId}

/-- Where nothing is replaced. -/
theorem of_same (m n : Module) : ReturnsFor contexts m n fun o => [o] :=
  fun o ho _ hreplaced => absurd (hreplaced.new o (by simp)).1 (Nat.not_le.2 ho)

/-- **Some returns are replaced, and then some more.**

**Proof sketch.** Operations that replaced a return are converted in place.  A return that is
replaced later on stands where it stood, so the same context is around it. -/
theorem trans (hfor : ReturnsFor contexts m n become) (h : Reworks m n become) (hm : m.Linked)
    (hn : n.Linked) (kfor : ReturnsFor contexts n p later) (k : Reworks n p later) :
    ReturnsFor contexts m p fun o => (become o).flatMap later := by
  intro o ho hkind hreplaced
  dsimp only at hreplaced ⊢
  obtain ⟨hnkind, ⟨hbecome, hsame⟩ | hbefore⟩ := h.returns o ho hkind
  · have honce : (become o).flatMap later = later o := by simp [hbecome]
    have hon := Nat.lt_of_lt_of_le ho h.size_ops
    rw [honce] at hreplaced ⊢
    rcases (k.returns o hon hnkind).2 with ⟨hlater, -⟩ | hlater
    · rw [hlater] at hreplaced
      exact absurd (hreplaced.new o (by simp)).1 (Nat.not_le.2 ho)
    · obtain ⟨hattached, context, offset, length, haround, hoperands, hreturns⟩ :=
        kfor o hon hnkind hlater
      refine ⟨h.isAttached_of_isAttached hm hn ho hattached, context, offset, length, ?_,
        hsame ▸ hoperands, hreturns⟩
      rw [Contexts.around?, ← h.ancestors_eq hm hn ho hattached]
      exact haround
  · obtain ⟨hattached, context, offset, length, haround, hoperands, hreturns⟩ :=
      hfor o ho hkind hbefore
    have hplain : ∀ q ∈ become o, q.index < n.ops.size ∧ n.kind q ≠ .sol .ret := fun q hq =>
      ⟨(hbefore.new q hq).2, h.new q (hbefore.new q hq).1 (hbefore.new q hq).2⟩
    refine ⟨hattached, context, offset, length, haround, hoperands, ?_⟩
    rw [k.flatMap_later hplain]
    exact hreturns.congr fun q hq => k.actsLike (hplain q hq).1 (hplain q hq).2

end ReturnsFor

/-! ## Sweeps -/

/-- **What a pattern does** to an operation of the tree.

**Proof sketch.** One case for each pattern: a return is replaced (`replacesReturn_of_run`), a
function, a cell or a renamed operation gets its low form.  Only the first case writes code for a
return, in the context that was recorded. -/
theorem reworks_of_rewrite {contexts : Contexts} {p : Pattern} (hp : p ∈ patterns contexts)
    {m n : Module} (hm : m.Linked) {x : OpId} (hattached : m.isAttached x = true)
    (hkind : m.kind x = p.root) {a : Bool} (hrun : (p.rewrite x).run m = .ok a n) :
    a = false ∧ n = m ∨
      a = true ∧ n.Linked ∧ ∃ become, Reworks m n become ∧ ReturnsFor contexts m n become := by
  obtain ⟨b, hb⟩ := Module.exists_parent_of_isAttached hattached
  have hx := Module.op_lt_of_parent hb
  rcases mem_patterns.1 hp with rfl | rfl | rfl | ⟨r, hr, rfl⟩
  · obtain ⟨rfl, context, offset, length, before, behind, code, p, hcontext, hreplaces⟩ :=
      replacesReturn_of_run hm hb hrun
    refine .inr ⟨rfl, by rw [hreplaces.dropped]; exact hreplaces.linked.detachOp x, _,
      hreplaces.reworks hm hb hkind, fun o ho hret hreplaced => ?_⟩
    by_cases hox : o = x
    · subst hox
      refine ⟨hattached, context, offset, length, hcontext, hreplaces.operands, ?_⟩
      rw [if_pos rfl]
      refine hreplaces.returns.congr fun q hq => ?_
      have hne : q ≠ o := fun hqo => absurd ((hreplaces.new q).1 hq).1 (Nat.not_le.2 (hqo ▸ hx))
      have hop : n.op q = p.op q := by rw [hreplaces.dropped, Module.op_detachOp, if_neg hne]
      refine ⟨by rw [Module.kind, hop]; rfl, by rw [hop], by rw [hop], fun _ _ _ => by rw [hop],
        fun _ v _ => ?_⟩
      rw [hreplaces.dropped, Module.typeOf, Module.value_detachOp]
      rfl
    · rw [if_neg hox] at hreplaced
      exact absurd (hreplaced.new o (by simp)).1 (Nat.not_le.2 ho)
  · obtain ⟨rfl, hreworks, hn⟩ := reworks_lowerFuncOp hm hx hkind hrun
    exact .inr ⟨rfl, hn, _, hreworks, .of_same m n⟩
  · rcases reworks_lowerAllocaOp hm hx hkind hrun with ⟨rfl, rfl⟩ | ⟨hreworks, hn, rfl⟩
    · exact .inl ⟨rfl, rfl⟩
    · exact .inr ⟨rfl, hn, _, hreworks, .of_same m n⟩
  · cases hrun
    obtain ⟨hreworks, hn⟩ := reworks_setKind hm hx
      (by rw [hkind]; exact (kind_of_mem_renames r hr).2.2)
      (by rw [hkind]; exact (ne_of_mem_renames r hr).2.2.1)
      (by rw [hkind]; exact low_of_mem_renames r hr)
    exact .inr ⟨rfl, hn, _, hreworks, .of_same _ _⟩

/-- What the sweeps keep: the links agree, the module was converted from the first one, and returns
were replaced for their contexts. -/
def ReworkedFrom (contexts : Contexts) (m n : Module) : Prop :=
  n.Linked ∧ ∃ become, Reworks m n become ∧ ReturnsFor contexts m n become

/-- Every pattern converts. -/
theorem maintains_patterns {m : Module} (hm : m.Linked) (contexts : Contexts) :
    ∀ p ∈ patterns contexts, Maintains (ReworkedFrom contexts m) p := by
  rintro p hp q n x a ⟨hq, become, hfrom, hfor⟩ hattached hkind hrun
  rcases reworks_of_rewrite hp hq hattached hkind hrun with
    ⟨rfl, rfl⟩ | ⟨rfl, hn, later, hlater, kfor⟩
  · exact ⟨⟨hq, become, hfrom, hfor⟩, fun _ => rfl⟩
  · exact ⟨⟨hn, _, hfrom.trans hlater, hfor.trans hfrom hm hq kfor hlater⟩, nofun⟩

/-- **What a conversion that succeeds makes of a module.**  Nothing illegal is left. -/
theorem reworks_of_convert {contexts : Contexts} {m n : Module} (hm : m.Linked) {stats : Stats}
    (h : (convert lowLevelTarget (patterns contexts)).run m = .ok stats n) :
    n.Linked ∧ lowLevelTarget.illegalOps n = [] ∧
      ∃ become, Reworks m n become ∧ ReturnsFor contexts m n become := by
  obtain ⟨⟨hn, hreworks⟩, hlegal⟩ := maintained_of_convert (maintains_patterns hm contexts)
    ⟨hm, _, .refl m, .of_same m m⟩ h
  exact ⟨hn, hlegal, hreworks⟩

end ContractIR.EraVM
