import ContractIR.Proofs.Verification.Congruence
import ContractIR.Proofs.Verification.Rules

/-!
# The shape of accepted operations

The verifier counts the regions of most operations, and asks where branches lead.  It does not look
at the successors of any other operation, and not at the arguments of the blocks that a branch leads
to.

## Main definitions

* `ContractIR.OpKind.branchWidth` — how many successors a branch has.
* `ContractIR.Module.MayLeadTo` — blocks that may be the successors of a branch.
* `ContractIR.Module.Shaped` — regions, operands and successors of an operation are as its kind
  asks.

## Main results

* `ContractIR.Module.regions_eq_nil_of_verifyOp` — which accepted operations own no region.
* `ContractIR.Module.verify_setSuccessors_iff` — which successors an operation may have.
* `ContractIR.Module.shaped_of_verify` — the shape of every operation of an accepted module.
-/

set_option autoImplicit false

namespace ContractIR

/-- How many successors a branch has. -/
def OpKind.branchWidth : OpKind → Nat
  | .llvm .br => 1
  | .llvm .condBr => 2
  | _ => 0

namespace Module

variable {m : Module} {o : OpId}

/-- Blocks that may be the successors of a branch: as many as its kind asks for, and all of them
belong to the region around the branch. -/
def MayLeadTo (m : Module) (o : OpId) (blocks : List BlockId) : Prop :=
  blocks.length = (m.kind o).branchWidth ∧
    ∀ b ∈ blocks, some (m.block b).parent = (m.op o).parent.map fun c => (m.block c).parent

/-- Regions, operands and successors of an operation are as its kind asks. -/
structure Shaped (m : Module) (o : OpId) : Prop where
  plain : (m.kind o).isFunction = false → (m.kind o).isContainer = false →
    (m.kind o).isCall = false → m.kind o ≠ .llvm .gep → (m.op o).regions = []
  function : (m.kind o).isFunction = true → ∃ r, (m.op o).regions = [r]
  container : (m.kind o).isContainer = true →
    ∃ r b, (m.op o).regions = [r] ∧ (m.region r).blocks = [b]
  br : m.kind o = .llvm .br → (m.op o).operands = []
  condBr : m.kind o = .llvm .condBr → ∃ v, (m.op o).operands = [v] ∧ m.typeOf v = Ty.i1
  successors : (m.kind o).isBranch = true → m.MayLeadTo o (m.op o).successors

/-! ## Regions -/

/-- **Which accepted operations own no region**: all but functions, containers, calls and address
arithmetic.

**Proof sketch.** One case for each kind.  All rules but those of the kinds that are excluded
start by counting, and they count no region. -/
theorem regions_eq_nil_of_verifyOp (h : m.verifyOp o = .ok ())
    (hfunction : (m.kind o).isFunction = false) (hcontainer : (m.kind o).isContainer = false)
    (hcall : (m.kind o).isCall = false) (hgep : m.kind o ≠ .llvm .gep) : (m.op o).regions = [] := by
  have hcounts : ∃ operands results, m.verifyCounts o operands results 0 = .ok () := by
    rw [verifyOp] at h
    cases hk : m.kind o with
    | sol op =>
      rw [hk] at h hcontainer
      cases op with
      | contract | object => cases hcontainer
      | ret => exact ⟨_, _, (Outcome.bind_unit_eq_ok.1 h).1⟩
    | func op =>
      rw [hk] at h hfunction hcall
      cases op with
      | func => cases hfunction
      | ret => exact ⟨_, _, (Outcome.bind_unit_eq_ok.1 h).1⟩
      | call => cases hcall
    | arith op =>
      rw [hk] at h
      cases op <;> exact ⟨_, _, (Outcome.bind_unit_eq_ok.1 h).1⟩
    | memref op =>
      rw [hk] at h
      cases op <;> exact ⟨_, _, (Outcome.bind_unit_eq_ok.1 h).1⟩
    | llvm op =>
      rw [hk] at h hfunction hcall hgep
      cases op with
      | func => cases hfunction
      | call => cases hcall
      | gep => exact absurd rfl hgep
      | unreachable => exact ⟨_, _, h⟩
      | _ => exact ⟨_, _, (Outcome.bind_unit_eq_ok.1 h).1⟩
  obtain ⟨operands, results, hcounts⟩ := hcounts
  exact List.length_eq_zero_iff.1 (verifyCounts_eq_ok_iff.1 hcounts).2.2

/-! ## Successors -/

/-- The two kinds of branches. -/
theorem kind_of_isBranch (h : (m.kind o).isBranch = true) :
    m.kind o = .llvm .br ∨ m.kind o = .llvm .condBr := by
  generalize m.kind o = kind at h
  cases kind with
  | llvm op =>
    cases op with
    | br => exact .inl rfl
    | condBr => exact .inr rfl
    | _ => cases h
  | _ => cases h

/-- The rule of a branch: it owns nothing, reads a truth value if it has two successors, and may
lead where it leads. -/
theorem verifyOp_eq_ok_iff_of_isBranch (hkind : (m.kind o).isBranch = true) :
    m.verifyOp o = .ok () ↔
      ((m.op o).operands.length + 1 = (m.kind o).branchWidth ∧ (m.op o).results.length = 0 ∧
        (m.op o).regions.length = 0) ∧
      (m.kind o = .llvm .condBr → m.operandType o 0 = Ty.i1) ∧
      m.MayLeadTo o (m.op o).successors := by
  rcases kind_of_isBranch hkind with hk | hk
  · simp [verifyOp, hk, Outcome.bind_unit_eq_ok, verifyCounts_eq_ok_iff,
      verifySuccessors_eq_ok_iff, MayLeadTo, OpKind.branchWidth]
  · simp [verifyOp, hk, Outcome.bind_unit_eq_ok, verifyCounts_eq_ok_iff, require_eq_ok,
      verifySuccessors_eq_ok_iff, MayLeadTo, OpKind.branchWidth]

/-- Giving an operation other successors. -/
theorem rewired_setSuccessors (m : Module) (o : OpId) (blocks : List BlockId) :
    m.Rewired (m.setSuccessors o blocks) := m.rewired_modifyOp o fun _ => rfl

/-- **Which successors an operation may have.**  An accepted module stays accepted with other
successors of an operation if and only if the operation is no branch, or it may lead there.

**Proof sketch.** No other operation notices, and neither do the checks of places and of operands
(`Rewired.verify_eq_ok`).  The rule of the operation itself asks for nothing but `MayLeadTo` of the
new successors if it is a branch, and for nothing otherwise (`Rewired.verifyOp_eq`). -/
theorem verify_setSuccessors_iff (hm : m.Linked) (hverify : m.verify = .ok ())
    (ho : m.isAttached o = true) (blocks : List BlockId) :
    (m.setSuccessors o blocks).verify = .ok () ↔
      ((m.kind o).isBranch = true → m.MayLeadTo o blocks) := by
  have h := m.rewired_setSuccessors o blocks
  have hwalk := hm.mem_walk_iff.2 ho
  have haccepted := (of_verify hverify hwalk).1
  have hoperands :
      ∀ p, ((m.setSuccessors o blocks).op p).operands = (m.op p).operands := fun p => by
    rw [setSuccessors, op_modifyOp]
    split <;> rfl
  have hrule : (m.setSuccessors o blocks).verify = .ok () ↔
      (m.setSuccessors o blocks).verifyOp o = .ok () := by
    refine ⟨fun hn => (of_verify hn (h.walk ▸ hwalk)).1, fun hn => ?_⟩
    refine h.verify_eq_ok hverify fun p hp => ?_
    obtain ⟨hop, hknown⟩ := of_verify hverify hp
    refine ⟨?_, fun v hv => hknown v (hoperands p ▸ hv)⟩
    by_cases heq : p = o
    · rwa [heq]
    · refine (h.verifyOp_eq ?_ fun _ => ?_).trans hop
      · rw [hoperands]
      · rw [setSuccessors, op_modifyOp_of_ne _ _ heq]
  rw [hrule]
  by_cases hkind : (m.kind o).isBranch = true
  · have hop := (verifyOp_eq_ok_iff_of_isBranch hkind).1 haccepted
    have hsuccessors : ((m.setSuccessors o blocks).op o).successors = blocks := by
      rw [setSuccessors, op_modifyOp_self _ _ (op_lt_of_isAttached ho)]
    have htype : (m.setSuccessors o blocks).operandType o 0 = m.operandType o 0 := by
      simp only [operandType, typeOf, h.value, hoperands]
    have hlead : (m.setSuccessors o blocks).MayLeadTo o blocks ↔ m.MayLeadTo o blocks := by
      simp only [MayLeadTo, h.kind, h.block, h.parent]
    rw [verifyOp_eq_ok_iff_of_isBranch (by rwa [h.kind]), hsuccessors, hlead, hoperands, h.results,
      h.regions, h.kind, htype]
    exact ⟨fun hn _ => hn.2.2, fun hn => ⟨hop.1, hop.2.1, hn hkind⟩⟩
  · have hsame : (m.setSuccessors o blocks).verifyOp o = m.verifyOp o :=
      h.verifyOp_eq (by rw [hoperands]) fun hbranch => absurd hbranch hkind
    rw [hsame]
    exact ⟨fun _ hbranch => absurd hbranch hkind, fun _ => haccepted⟩

/-! ## The shape of accepted modules -/

/-- **The shape of every operation of an accepted module.**  Only functions, containers, calls and
address arithmetic may own regions; a function owns one, and a container one of a single block.  A
branch has one successor, or two if it reads a truth value, and they belong to the region around it.
The verifier does not look at successors of other operations, and not at the arguments of the blocks
that a branch leads to: an operation may get any other successors that `MayLeadTo` allows, or any at
all if it is no branch, and the module stays accepted.

**Proof sketch.** Every part of the shape is the lemma about the kinds it speaks of, with the
rule of branches as an equivalence (`verifyOp_eq_ok_iff_of_isBranch`); what may be changed in the
successors is `verify_setSuccessors_iff`. -/
theorem shaped_of_verify (hm : m.Linked) (hverify : m.verify = .ok ())
    (ho : m.isAttached o = true) :
    m.Shaped o ∧ ∀ blocks, (m.setSuccessors o blocks).verify = .ok () ↔
      ((m.kind o).isBranch = true → m.MayLeadTo o blocks) := by
  have haccepted := (of_verify hverify (hm.mem_walk_iff.2 ho)).1
  refine ⟨?_, verify_setSuccessors_iff hm hverify ho⟩
  have hbranch := fun hkind => (verifyOp_eq_ok_iff_of_isBranch (o := o) hkind).1 haccepted
  exact
    { plain := regions_eq_nil_of_verifyOp haccepted
      function := exists_region_of_verifyOp haccepted
      container := fun hkind =>
        exists_block_of_verifyContainer (verifyContainer_of_verifyOp haccepted hkind)
      br := fun hk => by
        have hlength := (hbranch (by rw [hk]; rfl)).1.1
        rw [hk] at hlength
        exact List.length_eq_zero_iff.1 (Nat.succ.inj hlength)
      condBr := fun hk => by
        obtain ⟨⟨hlength, -⟩, htype, -⟩ := hbranch (by rw [hk]; rfl)
        rw [hk] at hlength
        obtain ⟨v, hv⟩ := List.length_eq_one_iff.1 (Nat.succ.inj hlength)
        refine ⟨v, hv, ?_⟩
        simpa [operandType, hv] using htype hk
      successors := fun hkind => (hbranch hkind).2.2 }

end Module

/-- The branch that closes the first block of the loop may lead to any two blocks of the
function. -/
theorem loopingFunction_shaped :
    loopingFunction.ir.Linked ∧ loopingFunction.ir.verify = .ok () ∧
      loopingFunction.ir.isAttached ⟨2⟩ = true ∧ loopingFunction.ir.Shaped ⟨2⟩ ∧
      ∀ blocks, (loopingFunction.ir.setSuccessors ⟨2⟩ blocks).verify = .ok () ↔
        ((loopingFunction.ir.kind ⟨2⟩).isBranch = true →
          loopingFunction.ir.MayLeadTo ⟨2⟩ blocks) := by
  have hm : loopingFunction.ir.Linked :=
    ((Builder.Reachable.new .unknown).foldl (by decide +kernel)).sound.linked
  have hverify : loopingFunction.ir.verify = .ok () := by decide +kernel
  have hattached : loopingFunction.ir.isAttached ⟨2⟩ = true := by decide +kernel
  exact ⟨hm, hverify, hattached, Module.shaped_of_verify hm hverify hattached⟩

/-- A function that calls itself, with a region at the call and a successor at its return, and one
that leads to a block with an argument.  The body of the module has a second block. -/
def looseShapes : Builder :=
  [Command.build (.func "f" ⟨[], []⟩), .build (.toEnd ⟨1⟩),
    .build (.op
      { kind := .func .call, attrs := .ofList [(AttrName.callee, .symbol "f")], regions := 1 }),
    .build (.funcReturn []), .setSuccessors ⟨2⟩ [⟨1⟩], .build (.toEnd ⟨0⟩),
    .build (.llvmFunc "g" ⟨[], []⟩ "external" true), .build (.appendBlock ⟨3⟩ 0 [.int 8]),
    .build (.toEnd ⟨2⟩), .build (.llvmBr ⟨3⟩), .build (.toEnd ⟨3⟩), .build (.llvmRet []),
    .appendBlock Module.body []].foldl (fun b c => c.run b) (.new (.new .unknown))

/-- The verifier accepts all this. -/
theorem looseShapes_accepted :
    looseShapes.ir.Linked ∧ looseShapes.ir.verify = .ok () ∧
      (looseShapes.ir.region Module.body).blocks = [⟨0⟩, ⟨4⟩] ∧
      (looseShapes.ir.isAttached ⟨1⟩ = true ∧ looseShapes.ir.kind ⟨1⟩ = .func .call ∧
        (looseShapes.ir.op ⟨1⟩).regions = [⟨2⟩]) ∧
      (looseShapes.ir.isAttached ⟨2⟩ = true ∧ looseShapes.ir.kind ⟨2⟩ = .func .ret ∧
        (looseShapes.ir.op ⟨2⟩).successors = [⟨1⟩]) ∧
      looseShapes.ir.isAttached ⟨4⟩ = true ∧ looseShapes.ir.kind ⟨4⟩ = .llvm .br ∧
        (looseShapes.ir.op ⟨4⟩).successors = [⟨3⟩] ∧ (looseShapes.ir.block ⟨3⟩).args = [⟨0⟩] := by
  have hm : looseShapes.ir.Linked :=
    ((Builder.Reachable.new .unknown).foldl (by decide +kernel)).sound.linked
  exact ⟨hm, by decide +kernel, by decide +kernel, by decide +kernel, by decide +kernel,
    by decide +kernel⟩

end ContractIR
