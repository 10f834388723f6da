import ContractIR.Proofs.Verification.Paths

/-!
# What accepted operations satisfy

The verifier looks at every operation by itself, and at the symbols around it.  Here is what the
rules of containers, of returns from contract code, of terminators, of cells, of calls and of
addresses promise about the tree.

## Main results

* `ContractIR.Module.entryBlock?_of_verifyContainer` — a container is one block.
* `ContractIR.Module.kind_ne_of_up` — nothing is inside a return from contract code.
* `ContractIR.Module.eq_nil_of_isTerminator` — nothing stands behind a terminator.
* `ContractIR.Module.isTerminated_of_verifyOp` — every block of a function ends with a terminator.
* `ContractIR.Module.exists_cell_of_verifyOp` — a cell has one result, of the type of a cell.
* `ContractIR.Module.verifyCall_eq_ok_iff`, `ContractIR.Module.verifyReturn_eq_ok_iff`,
  `ContractIR.Module.verifyAddressOf_eq_ok_iff` — the rules that look at other operations.
* `ContractIR.Module.exists_callee_of_verifyOp` — a call names a function that is visible from it.
* `ContractIR.Module.exists_global_of_verifyOp` — an address is that of a visible global.
-/

set_option autoImplicit false

namespace ContractIR

namespace Module

variable {m : Module}

/-! ## Containers and returns from contract code -/

/-- An accepted container owns one region, with one block. -/
theorem exists_block_of_verifyContainer {c : OpId} (h : m.verifyContainer c = .ok ()) :
    ∃ r b, (m.op c).regions = [r] ∧ (m.region r).blocks = [b] := by
  obtain ⟨hcounts, h⟩ := Outcome.bind_unit_eq_ok.1 h
  obtain ⟨-, h⟩ := Outcome.bind_unit_eq_ok.1 h
  obtain ⟨hblocks, -⟩ := Outcome.bind_unit_eq_ok.1 h
  obtain ⟨r, hr⟩ := List.length_eq_one_iff.1 (verifyCounts_eq_ok_iff.1 hcounts).2.2
  rw [hr, List.headD_cons] at hblocks
  obtain ⟨b, hb⟩ := List.length_eq_one_iff.1 (of_decide_eq_true (require_eq_ok.1 hblocks))
  exact ⟨r, b, hr, hb⟩

/-- An accepted container is one block, in which everything inside it stands. -/
theorem entryBlock?_of_verifyContainer {c : OpId} (h : m.verifyContainer c = .ok ()) (hm : m.Linked)
    {o : OpId} (hup : m.Up o c) : m.entryBlock? c = (m.op o).parent := by
  obtain ⟨r, b, hr, hb⟩ := exists_block_of_verifyContainer h
  obtain ⟨s, hs, b', hb', ho⟩ := hm.exists_standsIn_of_up hup
  rw [hr, List.mem_singleton] at hs
  rw [hs, hb, List.mem_singleton] at hb'
  rw [entryBlock?, hr, (hm.op_parent o b').2 ho, hb']
  simp only [List.head?_cons, Option.bind_some, hb]

/-- An accepted container has a name. -/
theorem exists_symName?_of_verifyContainer {c : OpId} (h : m.verifyContainer c = .ok ()) :
    ∃ x, m.symName? c = some x := by
  obtain ⟨_, _, h⟩ := Outcome.bind_eq_ok.1 h
  obtain ⟨_, hname, -⟩ := Outcome.bind_eq_ok.1 h
  exact Option.isSome_iff_exists.1 (require_eq_ok.1 hname)

/-- The rule of containers. -/
theorem verifyContainer_of_verifyOp {c : OpId} (h : m.verifyOp c = .ok ())
    (hc : (m.kind c).isContainer = true) : m.verifyContainer c = .ok () := by
  rw [verifyOp] at h
  cases hk : m.kind c with
  | sol op =>
    rw [hk] at h hc
    cases op with
    | contract => exact h
    | object => exact h
    | ret => cases hc
  | func op => rw [hk] at hc; cases hc
  | arith op => rw [hk] at hc; cases hc
  | memref op => rw [hk] at hc; cases hc
  | llvm op => rw [hk] at hc; cases hc

/-- Nothing is inside an accepted return from contract code. -/
theorem kind_ne_of_up {o p : OpId} (h : m.verifyOp p = .ok ()) (hm : m.Linked) (hup : m.Up o p) :
    m.kind p ≠ .sol .ret := by
  intro hkind
  rw [verifyOp, hkind] at h
  obtain ⟨⟨⟩, hcounts, -⟩ := Outcome.bind_eq_ok.1 h
  have hnone := List.length_eq_zero_iff.1 (verifyCounts_eq_ok_iff.1 hcounts).2.2
  obtain ⟨r, hr, -⟩ := hm.exists_standsIn_of_up hup
  rw [hnone] at hr
  cases hr

/-! ## Terminators -/

/-- Nothing stands behind an accepted terminator.

**Proof sketch.** Placement is checked of every operation of the walk: a terminator is the last
of its block.  With something behind it, it would stand in the block twice. -/
theorem eq_nil_of_isTerminator (h : m.verify = .ok ()) (hm : m.Linked) {o : OpId}
    (ho : m.isAttached o = true) (hterm : (m.kind o).isTerminator = true) {b : BlockId}
    {front back : List OpId} (hops : (m.block b).ops = front ++ o :: back) : back = [] := by
  obtain ⟨_, _, h⟩ := Outcome.bind_eq_ok.1 h
  obtain ⟨⟨⟩, hplacement, -⟩ := Outcome.bind_eq_ok.1 h
  have hplaced := of_verifyEach hplacement (hm.mem_walk_iff.2 ho)
  have hparent := (hm.op_parent o b).2 (by rw [hops]; simp)
  have hnodup := hm.ops_nodup b
  rw [hops, List.nodup_middle, List.nodup_cons, List.mem_append, not_or] at hnodup
  simp only [verifyPlacement] at hplaced
  split at hplaced
  · cases hplaced
  · rename_i hlast
    rw [not_and_not_right, hparent, Option.bind_some, hops, List.getLast?_append_cons] at hlast
    cases back with
    | nil => rfl
    | cons p back =>
      rw [List.getLast?_cons_cons] at hlast
      exact absurd (List.mem_of_getLast? (hlast hterm)) hnodup.1.2

/-- Blocks that pass the check of their ends have a terminator at their end. -/
theorem of_verifyTerminated {f : OpId} {name : String} {blocks : List BlockId}
    (h : m.verifyTerminated f name blocks = .ok ()) {b : BlockId} (hb : b ∈ blocks) :
    m.isTerminated b = true := by
  induction blocks with
  | nil => cases hb
  | cons c blocks ih =>
    rw [verifyTerminated] at h
    split at h
    · rename_i hc
      rcases List.mem_cons.1 hb with rfl | hb
      · exact hc
      · exact ih h hb
    · cases h

/-- Every block of an accepted function ends with a terminator. -/
theorem isTerminated_of_verifyOp {f : OpId} (h : m.verifyOp f = .ok ())
    (hkind : (m.kind f).isFunction = true) {b : BlockId}
    (hb : b ∈ (m.region ((m.op f).regions.headD default)).blocks) : m.isTerminated b = true := by
  obtain ⟨needsBody, hfunction⟩ := verifyFunction_of_verifyOp h hkind
  obtain ⟨-, hfunction⟩ := Outcome.bind_unit_eq_ok.1 hfunction
  obtain ⟨name, -, hfunction⟩ := Outcome.bind_eq_ok.1 hfunction
  obtain ⟨signature, -, hfunction⟩ := Outcome.bind_eq_ok.1 hfunction
  dsimp only at hfunction
  cases hblocks : (m.region ((m.op f).regions.headD default)).blocks with
  | nil =>
    rw [hblocks] at hb
    cases hb
  | cons entry blocks =>
    rw [hblocks] at hfunction hb
    exact of_verifyTerminated (Outcome.bind_unit_eq_ok.1 hfunction).2 hb

/-! ## Cells -/

/-- An accepted cell has one result, and its type says what the cell holds. -/
theorem exists_cell_of_verifyOp {o : OpId} (h : m.verifyOp o = .ok ())
    (ho : m.kind o = .memref .alloca) :
    ∃ v elem, (m.op o).results = [v] ∧ m.typeOf v = .memref elem := by
  rw [verifyOp, ho] at h
  obtain ⟨⟨⟩, hcounts, hcell⟩ := Outcome.bind_eq_ok.1 h
  obtain ⟨v, hv⟩ := List.length_eq_one_iff.1 (verifyCounts_eq_ok_iff.1 hcounts).2.1
  have helem := require_eq_ok.1 hcell
  rw [resultType, hv, List.headD_cons] at helem
  refine ⟨v, ?_⟩
  cases hty : m.typeOf v with
  | memref elem => exact ⟨elem, hv, rfl⟩
  | _ =>
    rw [hty] at helem
    cases helem

/-! ## Calls -/

/-- The rule of calls.

**Proof sketch.** The rule demands the name, the function that it resolves to and its signature
one after the other, and each demand is met exactly if the value is there (`demand_eq_ok`). -/
theorem verifyCall_eq_ok_iff {o : OpId} : m.verifyCall o = .ok () ↔
    ∃ name f signature, m.callee? o = some name ∧ m.lookup? o name = some f ∧
      (m.kind f).isFunction = true ∧ m.signature? f = some signature ∧
      m.typesOf (m.op o).operands = signature.inputs ∧
      m.typesOf (m.op o).results = signature.results := by
  simp only [verifyCall, Outcome.bind_eq_ok, demand_eq_ok]
  constructor
  · rintro ⟨name, hname, h⟩
    split at h
    · cases h
    · rename_i f hf
      obtain ⟨hf, hfunction⟩ := Option.filter_eq_some_iff.1 hf
      obtain ⟨signature, hsignature, htypes⟩ := Outcome.bind_eq_ok.1 h
      rw [require_eq_ok, Bool.and_eq_true, decide_eq_true_iff, decide_eq_true_iff] at htypes
      exact ⟨name, f, signature, hname, hf, hfunction, demand_eq_ok.1 hsignature, htypes⟩
  · rintro ⟨name, f, signature, hname, hf, hfunction, hsignature, hins, houts⟩
    refine ⟨name, hname, ?_⟩
    rw [Option.filter_eq_some_iff.2 ⟨hf, hfunction⟩]
    exact Outcome.bind_eq_ok.2 ⟨signature, demand_eq_ok.2 hsignature,
      require_eq_ok.2 (by simp [hins, houts])⟩

/-- **An accepted call names a function** that is visible from it. -/
theorem exists_callee_of_verifyOp {o : OpId} (h : m.verifyOp o = .ok ())
    (ho : (m.kind o).isCall = true) :
    ∃ name f, m.callee? o = some name ∧ m.lookup? o name = some f ∧
      (m.kind f).isFunction = true := by
  have hcall : m.verifyCall o = .ok () := by
    rw [verifyOp] at h
    cases hk : m.kind o with
    | func op => cases op <;> rw [hk] at h ho <;> first | exact h | cases ho
    | llvm op => cases op <;> rw [hk] at h ho <;> first | exact h | cases ho
    | sol op | arith op | memref op => rw [hk] at ho; cases ho
  obtain ⟨name, f, -, hname, hf, hfunction, -⟩ := verifyCall_eq_ok_iff.1 hcall
  exact ⟨name, f, hname, hf, hfunction⟩

/-! ## Returns -/

/-- The rule of returns. -/
theorem verifyReturn_eq_ok_iff {o : OpId} {function : OpKind} :
    m.verifyReturn o function = .ok () ↔ (m.op o).results = [] ∧ (m.op o).regions = [] ∧
      ∃ f signature, m.parentOp? o = some f ∧ m.kind f = function ∧
        m.signature? f = some signature ∧ m.typesOf (m.op o).operands = signature.results := by
  rw [verifyReturn, Outcome.bind_unit_eq_ok, verifyCounts_eq_ok_iff, List.length_eq_zero_iff,
    List.length_eq_zero_iff]
  simp only [Outcome.bind_eq_ok, demand_eq_ok, require_eq_ok, Option.filter_eq_some_iff,
    decide_eq_true_eq, true_and]
  constructor
  · rintro ⟨⟨hresults, hregions⟩, f, ⟨hf, hkind⟩, signature, hsignature, htypes⟩
    exact ⟨hresults, hregions, f, signature, hf, hkind, hsignature, htypes⟩
  · rintro ⟨hresults, hregions, f, signature, hf, hkind, hsignature, htypes⟩
    exact ⟨⟨hresults, hregions⟩, f, ⟨hf, hkind⟩, signature, hsignature, htypes⟩

/-! ## Addresses -/

/-- The rule of taken addresses. -/
theorem verifyAddressOf_eq_ok_iff {o : OpId} : m.verifyAddressOf o = .ok () ↔
    m.verifyCounts o 0 1 0 = .ok () ∧ (m.resultType o).isPtr = true ∧
      ∃ name g, (m.attr? o AttrName.globalName).bind Attr.symbol? = some name ∧
        m.lookup? o name = some g ∧ m.kind g = .llvm .global := by
  rw [verifyAddressOf, Outcome.bind_unit_eq_ok, Outcome.bind_unit_eq_ok, require_eq_ok,
    Outcome.bind_eq_ok]
  simp only [demand_eq_ok]
  refine and_congr_right fun _ => and_congr_right fun _ => exists_congr fun name => ?_
  constructor
  · rintro ⟨hname, h⟩
    split at h
    · cases h
    · rename_i g hg
      obtain ⟨hg, hkind⟩ := Option.filter_eq_some_iff.1 hg
      exact ⟨g, hname, hg, of_decide_eq_true hkind⟩
  · rintro ⟨g, hname, hg, hkind⟩
    refine ⟨hname, ?_⟩
    rw [Option.filter_eq_some_iff.2 ⟨hg, decide_eq_true hkind⟩]

/-- **What an accepted operation takes the address of is a global** that is visible from it. -/
theorem exists_global_of_verifyOp {o : OpId} (h : m.verifyOp o = .ok ())
    (ho : m.kind o = .llvm .addressOf) :
    ∃ name g, (m.attr? o AttrName.globalName).bind Attr.symbol? = some name ∧
      m.lookup? o name = some g ∧ m.kind g = .llvm .global := by
  rw [verifyOp, ho] at h
  exact (verifyAddressOf_eq_ok_iff.1 h).2.2

end Module

end ContractIR
