import ContractIR.Proofs.Module.Wiring
import ContractIR.Proofs.Verification.Paths
import Mathlib.Data.List.GetD

/-!
# What the verifier looks at

The rule of an operation looks at its types, not at the values that it reads, and at few things
around it: what names mean there, the signature of the function around it, the last operations of
the blocks of a function, and the region that a branch leads to.  Two modules that agree on all this
give the same verdict.

## Main definitions

* `ContractIR.Module.Resembles` — modules that differ in operands, successors and places only.
* `ContractIR.Module.ResemblesAt` — what rules look at is the same at an operation.

## Main results

* `ContractIR.Module.verify_eq_ok_iff` — when a module is accepted.
* `ContractIR.Module.verifyOp_congr` — the rule of an operation gives the same verdict.
* `ContractIR.Module.Rewired.verify_eq_ok` — what is asked of a module with other operands and
  successors.
-/

set_option autoImplicit false

namespace ContractIR

namespace Module

variable {m n : Module} {o : OpId}

/-! ## When a module is accepted -/

/-- The check of operands passes if each of them is defined. -/
theorem verifyDominance_eq_ok_iff {vs : List ValueId} {index : Nat} :
    m.verifyDominance o index vs = .ok () ↔ ∀ v ∈ vs, m.dominates v o = true :=
  ⟨fun h _ hv => of_verifyDominance h hv, fun h => verifyDominance_eq_ok h index⟩

/-- The check of a list passes if the check of each member does. -/
theorem verifyEach_eq_ok_iff {check : OpId → Check Unit} {ids : List OpId} :
    verifyEach check ids = .ok () ↔ ∀ id ∈ ids, check id = .ok () :=
  ⟨fun h _ hid => of_verifyEach h hid, verifyEach_eq_ok⟩

/-- **When a module is accepted**: the names of the body differ, every operation of the tree stands
where it may and satisfies its rule, and what it reads is defined. -/
theorem verify_eq_ok_iff :
    m.verify = .ok () ↔ m.verifySymbols body = .ok () ∧
      (∀ o ∈ m.walk, m.verifyPlacement o = .ok ()) ∧
      ∀ o ∈ m.walk, m.verifyOp o = .ok () ∧ ∀ v ∈ (m.op o).operands, m.dominates v o = true := by
  simp only [verify, Outcome.bind_unit_eq_ok, verifyEach_eq_ok_iff, verifyUse,
    verifyDominance_eq_ok_iff]

/-- A terminator is accepted where it is the last operation of its block. -/
theorem verifyPlacement_eq_ok_iff :
    m.verifyPlacement o = .ok () ↔ ((m.kind o).isTerminator = true →
      ((m.op o).parent.bind fun b => (m.block b).ops.getLast?) = some o) := by
  rw [verifyPlacement]
  split
  · rename_i h
    simp only [reduceCtorEq, false_iff]
    exact fun himp => h.2 (himp h.1)
  · rename_i h
    simp only [true_iff]
    exact not_and_not_right.1 h

/-! ## Modules that look alike -/

/-- Two modules differ in operands, in successors and in the places of operations only, and no
region got or lost a symbol. -/
structure Resembles (m n : Module) : Prop where
  kind : ∀ o, n.kind o = m.kind o
  attrs : ∀ o, (n.op o).attrs = (m.op o).attrs
  location : ∀ o, (n.op o).location = (m.op o).location
  results : ∀ o, (n.op o).results = (m.op o).results
  regions : ∀ o, (n.op o).regions = (m.op o).regions
  region : ∀ r, n.region r = m.region r
  args : ∀ b, (n.block b).args = (m.block b).args
  parent : ∀ b, (n.block b).parent = (m.block b).parent
  typeOf : n.typeOf = m.typeOf
  symbols : n.symbolsIn = m.symbolsIn

/-- What rules look at is the same at an operation: the types of its operands, its place, what names
mean there, where a branch leads to, and how the blocks of a function end. -/
structure ResemblesAt (m n : Module) (o : OpId) : Prop where
  operands : n.typesOf (n.op o).operands = m.typesOf (m.op o).operands
  place : (n.op o).parent = (m.op o).parent
  lookup : ∀ name, n.lookup? o name = m.lookup? o name
  successors : (m.kind o).isBranch = true → (n.op o).successors = (m.op o).successors
  ended : (m.kind o).isFunction = true →
    ∀ b ∈ (m.region ((m.op o).regions.headD default)).blocks, n.isTerminated b = m.isTerminated b

namespace Resembles

variable (h : m.Resembles n)

include h

/-! ### Parts of rules -/

/-- Operations have the same attributes. -/
theorem attr?_eq (o : OpId) (name : String) : n.attr? o name = m.attr? o name := by
  rw [attr?, attr?, h.attrs]

/-- Operations declare the same names. -/
theorem symName?_eq (o : OpId) : n.symName? o = m.symName? o := by
  rw [symName?, symName?, h.attr?_eq]

/-- Operations have the same signatures. -/
theorem signature?_eq (o : OpId) : n.signature? o = m.signature? o := by
  rw [signature?, signature?, h.attr?_eq]

/-- Operations call the same functions. -/
theorem callee?_eq (o : OpId) : n.callee? o = m.callee? o := by
  rw [callee?, callee?, h.attr?_eq]

/-- Rejections say the same. -/
theorem reject_eq {α : Type} (o : OpId) (fault : OpFault) :
    (n.reject o fault : Check α) = m.reject o fault := by
  rw [reject, reject, h.kind, h.location]

/-- Conditions are asked for in the same way. -/
theorem require_eq (o : OpId) (condition : Bool) (fault : OpFault) :
    n.require o condition fault = m.require o condition fault := by
  rw [require, require, h.reject_eq]

/-- What must be there is asked for in the same way. -/
theorem demand_eq {α : Type} (o : OpId) (found : Option α) (fault : OpFault) :
    n.demand o found fault = m.demand o found fault := by
  cases found with
  | none => exact h.reject_eq o fault
  | some a => rfl

/-- Undefined symbols are reported in the same way. -/
theorem undefined_eq {α : Type} (o : OpId) (name : String) :
    (n.undefined o name : Check α) = m.undefined o name := by
  rw [undefined, undefined, h.kind, h.location]

/-- Values have the same types. -/
theorem typesOf_eq (vs : List ValueId) : n.typesOf vs = m.typesOf vs := by
  rw [typesOf, typesOf, h.typeOf]

/-- Results have the same types. -/
theorem resultType_eq (o : OpId) : n.resultType o = m.resultType o := by
  rw [resultType, resultType, h.results, h.typeOf]

/-- The check of names answers the same. -/
theorem verifySymbols_eq (r : RegionId) : n.verifySymbols r = m.verifySymbols r := by
  rw [verifySymbols, verifySymbols, h.symbols]

/-- The blocks of a function end alike. -/
theorem verifyTerminated_eq {name : String} {blocks : List BlockId}
    (hblocks : ∀ b ∈ blocks, n.isTerminated b = m.isTerminated b) :
    n.verifyTerminated o name blocks = m.verifyTerminated o name blocks := by
  induction blocks with
  | nil => rfl
  | cons b blocks ih =>
    rw [verifyTerminated, verifyTerminated, hblocks b List.mem_cons_self, h.kind,
      ih fun c hc => hblocks c (List.mem_cons_of_mem _ hc)]

/-- The check of the regions of successors answers the same. -/
theorem verifySuccessorRegions_eq (around : Option RegionId) (blocks : List BlockId) :
    n.verifySuccessorRegions o around blocks = m.verifySuccessorRegions o around blocks := by
  induction blocks with
  | nil => rfl
  | cons b blocks ih =>
    rw [verifySuccessorRegions, verifySuccessorRegions, h.parent, ih, h.reject_eq]

/-- Values of the same types are words or not. -/
theorem verifyWords_eq {vs ws : List ValueId} (htypes : n.typesOf ws = m.typesOf vs) :
    n.verifyWords o ws = m.verifyWords o vs := by
  induction ws generalizing vs with
  | nil =>
    obtain rfl := List.map_eq_nil_iff.1 htypes.symm
    rfl
  | cons w ws ih =>
    cases vs with
    | nil => cases htypes
    | cons v vs =>
      obtain ⟨htype, htypes⟩ := List.cons.inj htypes
      rw [verifyWords, verifyWords, htype, ih htypes, h.reject_eq]

/-- What an operation needs of the operations around it to know what names mean. -/
theorem lookup?_eq (hancestors : n.ancestors o = m.ancestors o) (name : String) :
    n.lookup? o name = m.lookup? o name := by
  have hkind : n.kind = m.kind := funext h.kind
  have hregions : ∀ p, (n.op p).regions = (m.op p).regions := h.regions
  simp only [lookup?, lookupTop?, symbolIn?, hancestors, hkind, hregions, h.symbols]

end Resembles

namespace ResemblesAt

/-- The operation reads as many values. -/
theorem length_operands (ho : m.ResemblesAt n o) :
    (n.op o).operands.length = (m.op o).operands.length := by
  simpa [typesOf] using congrArg List.length ho.operands

variable (h : m.Resembles n) (ho : m.ResemblesAt n o)

include h ho

/-- The operation reads values of the same types. -/
theorem operandType_eq (i : Nat) : n.operandType o i = m.operandType o i := by
  have htypes := ho.operands
  rw [h.typesOf_eq, typesOf, typesOf] at htypes
  have hget : ∀ vs : List ValueId,
      (vs.map m.typeOf).getD i (m.typeOf default) = m.typeOf (vs.getD i default) := fun vs =>
    List.getD_map vs default m.typeOf
  rw [operandType, operandType, h.typeOf, ← hget, ← hget, htypes]

/-- The same operation is around the operation. -/
theorem parentOp?_eq : n.parentOp? o = m.parentOp? o := by
  simp only [parentOp?, ho.place, h.region, h.parent]

/-- The check of numbers answers the same. -/
theorem verifyCounts_eq (operands results regions : Nat) :
    n.verifyCounts o operands results regions = m.verifyCounts o operands results regions := by
  simp only [verifyCounts, h.require_eq, h.results, h.regions, ho.length_operands]

/-- The check of a pointer answers the same. -/
theorem verifyPointer_eq (i : Nat) : n.verifyPointer o i = m.verifyPointer o i := by
  rw [verifyPointer, verifyPointer, h.require_eq, ho.operandType_eq h]

/-! ### Rules -/

/-- The rule of containers answers the same. -/
theorem verifyContainer_eq : n.verifyContainer o = m.verifyContainer o := by
  simp only [verifyContainer, ho.verifyCounts_eq h, h.require_eq, h.symName?_eq, h.regions,
    h.region, h.verifySymbols_eq]

/-- The rule of functions answers the same. -/
theorem verifyFunction_eq (hkind : (m.kind o).isFunction = true) (needsBody : Bool) :
    n.verifyFunction o needsBody = m.verifyFunction o needsBody := by
  have hterminated : ∀ name,
      n.verifyTerminated o name (m.region ((m.op o).regions.headD default)).blocks =
        m.verifyTerminated o name (m.region ((m.op o).regions.headD default)).blocks := fun name =>
    h.verifyTerminated_eq (ho.ended hkind)
  simp only [verifyFunction, ho.verifyCounts_eq h, h.demand_eq, h.symName?_eq, h.signature?_eq,
    h.regions, h.region]
  cases hblocks : (m.region ((m.op o).regions.headD default)).blocks with
  | nil => simp only [h.require_eq]
  | cons entry blocks =>
    simp only [hblocks] at hterminated
    simp only [h.require_eq, h.typesOf_eq, h.args, hterminated]

/-- The rule of returns answers the same. -/
theorem verifyReturn_eq (function : OpKind) :
    n.verifyReturn o function = m.verifyReturn o function := by
  simp only [verifyReturn, ho.verifyCounts_eq h, ho.length_operands, ho.parentOp?_eq h, h.demand_eq,
    h.kind, h.signature?_eq, h.require_eq, ho.operands]

/-- The rule of calls answers the same. -/
theorem verifyCall_eq : n.verifyCall o = m.verifyCall o := by
  simp only [verifyCall, h.demand_eq, h.callee?_eq, ho.lookup, h.kind, h.undefined_eq,
    h.signature?_eq, h.require_eq, ho.operands, h.results, h.typesOf_eq]

/-- The rule of successors answers the same for a branch. -/
theorem verifySuccessors_eq (hkind : (m.kind o).isBranch = true) (count : Nat) :
    n.verifySuccessors o count = m.verifySuccessors o count := by
  simp only [verifySuccessors, h.require_eq, ho.successors hkind, ho.place, h.parent,
    h.verifySuccessorRegions_eq]

/-- The rule of constants answers the same. -/
theorem verifyConstant_eq : n.verifyConstant o = m.verifyConstant o := by
  simp only [verifyConstant, ho.verifyCounts_eq h, h.attr?_eq, h.reject_eq, h.require_eq,
    h.resultType_eq]

/-- The rule of arithmetic answers the same. -/
theorem verifyBinary_eq : n.verifyBinary o = m.verifyBinary o := by
  simp only [verifyBinary, ho.verifyCounts_eq h, ho.operandType_eq h, h.resultType_eq, h.require_eq]

/-- The rule of comparisons answers the same. -/
theorem verifyComparison_eq : n.verifyComparison o = m.verifyComparison o := by
  simp only [verifyComparison, ho.verifyCounts_eq h, ho.operandType_eq h, h.resultType_eq,
    h.require_eq, h.attr?_eq]

/-- The rule of extensions answers the same. -/
theorem verifyExtension_eq : n.verifyExtension o = m.verifyExtension o := by
  simp only [verifyExtension, ho.verifyCounts_eq h, ho.operandType_eq h, h.resultType_eq,
    h.require_eq]

/-- The rule of globals answers the same. -/
theorem verifyGlobal_eq : n.verifyGlobal o = m.verifyGlobal o := by
  simp only [verifyGlobal, ho.verifyCounts_eq h, h.attr?_eq, h.demand_eq, h.symName?_eq,
    h.require_eq]

/-- The rule of taken addresses answers the same. -/
theorem verifyAddressOf_eq : n.verifyAddressOf o = m.verifyAddressOf o := by
  simp only [verifyAddressOf, ho.verifyCounts_eq h, h.attr?_eq, h.demand_eq, h.resultType_eq,
    h.require_eq, ho.lookup, h.kind, h.undefined_eq]

/-- The rule of address arithmetic answers the same. -/
theorem verifyGep_eq : n.verifyGep o = m.verifyGep o := by
  have hsome : ((n.op o).operands ≠ []) = ((m.op o).operands ≠ []) := by
    rw [← List.length_pos_iff, ← List.length_pos_iff, ho.length_operands]
  have hindices : ((n.op o).operands.tail.all fun v => (n.typeOf v).isInt) =
      (m.op o).operands.tail.all fun v => (m.typeOf v).isInt := by
    have htail := congrArg (fun types => types.tail.all Ty.isInt) ho.operands
    simpa [typesOf, ← List.map_tail, List.all_map, Function.comp_def] using htail
  simp only [verifyGep, h.require_eq, hsome, h.results, ho.verifyPointer_eq h, h.resultType_eq,
    ho.operandType_eq h, hindices, verifyElemType, h.attr?_eq]

end ResemblesAt

/-- **The rule of an operation gives the same verdict** where all that rules look at is the same.

**Proof sketch.** One case per rule.  Each rule is made of checks that agree by themselves. -/
theorem verifyOp_congr (h : m.Resembles n) (ho : m.ResemblesAt n o) :
    n.verifyOp o = m.verifyOp o := by
  rw [verifyOp, verifyOp, h.kind]
  cases hk : m.kind o with
  | sol op =>
    cases op with
    | contract | object => exact ho.verifyContainer_eq h
    | ret => simp only [ho.verifyCounts_eq h, h.verifyWords_eq ho.operands]
  | func op =>
    cases op with
    | func => exact ho.verifyFunction_eq h (by rw [hk]; rfl) true
    | ret => exact ho.verifyReturn_eq h _
    | call => exact ho.verifyCall_eq h
  | arith op =>
    cases op with
    | constant => exact ho.verifyConstant_eq h
    | addi | muli | andi => exact ho.verifyBinary_eq h
    | cmpi => exact ho.verifyComparison_eq h
    | extsi | extui => exact ho.verifyExtension_eq h
  | memref op =>
    cases op <;>
      simp only [ho.verifyCounts_eq h, h.require_eq, h.resultType_eq, ho.operandType_eq h]
  | llvm op =>
    cases op with
    | func => exact ho.verifyFunction_eq h (by rw [hk]; rfl) false
    | global => exact ho.verifyGlobal_eq h
    | addressOf => exact ho.verifyAddressOf_eq h
    | constant => exact ho.verifyConstant_eq h
    | add | mul | and | lshr => exact ho.verifyBinary_eq h
    | sext | zext => exact ho.verifyExtension_eq h
    | icmp => exact ho.verifyComparison_eq h
    | gep => exact ho.verifyGep_eq h
    | call => exact ho.verifyCall_eq h
    | ret => exact ho.verifyReturn_eq h _
    | load | store | alloca | ptrToInt | intToPtr | unreachable =>
      simp only [ho.verifyCounts_eq h, ho.verifyPointer_eq h, verifyElemType, h.attr?_eq,
        h.require_eq, h.resultType_eq, ho.operandType_eq h]
    | condBr | br =>
      simp only [ho.verifyCounts_eq h, h.require_eq, ho.operandType_eq h,
        ho.verifySuccessors_eq h (by rw [hk]; rfl)]

/-! ## Other operands and successors -/

namespace Rewired

/-- Where operations get other operands and successors, nothing else is changed. -/
theorem resembles (h : m.Rewired n) : m.Resembles n where
  kind := h.kind
  attrs := h.attrs
  location := h.location
  results := h.results
  regions := h.regions
  region := h.region
  args b := by rw [h.block]
  parent b := by rw [h.block]
  typeOf := funext fun v => by rw [typeOf, typeOf, h.value]
  symbols := funext fun r => by
    simp only [symbolsIn, h.region, h.block, h.kind, symName?, attr?, h.attrs]

/-- Where operands have the types that they had, and branches lead where they led, the rule of an
operation gives the same verdict. -/
theorem verifyOp_eq (h : m.Rewired n)
    (htypes : m.typesOf (n.op o).operands = m.typesOf (m.op o).operands)
    (hsuccessors : (m.kind o).isBranch = true → (n.op o).successors = (m.op o).successors) :
    n.verifyOp o = m.verifyOp o :=
  verifyOp_congr h.resembles
    { operands := by rw [h.resembles.typesOf_eq, htypes]
      place := h.parent o
      lookup := h.resembles.lookup?_eq (h.ancestors o)
      successors := hsuccessors
      ended := fun _ b _ => by simp only [isTerminated, h.block, h.kind] }

/-- What is defined where does not depend on what is read. -/
theorem dominates (h : m.Rewired n) (v : ValueId) (user : OpId) :
    n.dominates v user = m.dominates v user := by
  have hreaches : ∀ b index depth o, n.reaches b index depth o = m.reaches b index depth o := by
    intro b index depth
    induction depth with
    | zero => exact fun _ => rfl
    | succ depth ih =>
      intro o
      simp only [reaches, h.parent, h.block, h.region, h.kind, h.indexOf?, ih]
  simp only [Module.dominates, definedAt?, h.value, h.parent, h.indexOf?, hreaches, h.depthBound]

/-- **What is asked of a module with other operands and successors**: each operation satisfies its
rule, and what it reads now was defined at it before. -/
theorem verify_eq_ok (h : m.Rewired n) (hverify : m.verify = .ok ())
    (huses : ∀ o ∈ m.walk, n.verifyOp o = .ok () ∧
      ∀ v ∈ (n.op o).operands, m.dominates v o = true) : n.verify = .ok () := by
  obtain ⟨hsymbols, hplaces, -⟩ := verify_eq_ok_iff.1 hverify
  rw [verify_eq_ok_iff, h.walk]
  refine ⟨(h.resembles.verifySymbols_eq _).trans hsymbols, fun o ho => ?_, fun o ho => ?_⟩
  · simpa only [verifyPlacement_eq_ok_iff, h.kind, h.parent, h.block] using hplaces o ho
  · obtain ⟨hop, hdominates⟩ := huses o ho
    exact ⟨hop, fun v hv => (h.dominates v o).trans (hdominates v hv)⟩

end Rewired

end Module

end ContractIR
