import ContractIR.Module.Rewrite
import ContractIR.Proofs.Module.Extension
import Mathlib.Data.List.Nodup
import Mathlib.Logic.Relation

/-!
# Links of a module

Every link of a module is stored at both ends.  `Module.Linked` says that the two ends agree, for
operations and blocks, blocks and regions, regions and operations, and values and what defines
them, and that no operation is nested in itself.  New things keep this.

## Main definitions

* `ContractIR.Module.Up`, `ContractIR.Module.Inside` — one step outwards, and any number of them.
* `ContractIR.Module.Linked` — the links of a module agree.

## Main results

* `ContractIR.Module.Linked.new` — the links of the smallest module agree.
* `ContractIR.Module.Linked.createOp`, `appendBlock` — new things keep the links.

## Design

Nesting is well founded rather than ranked: a change redirects some steps outwards to one operation,
and this creates no cycle if none of the redirected operations encloses that operation
(`wellFounded_of_redirect`, `acyclic_of_redirect`).
-/

set_option autoImplicit false

namespace ContractIR

namespace Module

/-! ## Nesting -/

/-- `p` owns the region around `o`. -/
def Up (m : Module) (o p : OpId) : Prop := m.parentOp? o = some p

/-- `o` is `p`, or nested in `p`. -/
def Inside (m : Module) : OpId → OpId → Prop := Relation.ReflTransGen m.Up

/-- Whether a region belongs to `p`, or to an operation nested in `p`. -/
def RegionInside (m : Module) (r : RegionId) (p : OpId) : Prop :=
  ∃ o, (m.region r).parent = some o ∧ m.Inside o p

/-- An operation is entered at the block at which it was entered, if its regions are what they
were. -/
theorem entryBlock?_congr {m n : Module} {o : OpId} (hregions : (n.op o).regions = (m.op o).regions)
    (hregion : ∀ r ∈ (m.op o).regions, n.region r = m.region r) :
    n.entryBlock? o = m.entryBlock? o := by
  rw [entryBlock?, entryBlock?, hregions]
  refine Option.bind_congr fun r hr => ?_
  rw [hregion r (List.mem_of_mem_head? hr)]

/-- A relation without infinite ways up stays so if the operations of `S` get `c` above them, none
of which was reached from `c`.

**Proof sketch.** Twice by induction along `R`.  What `c` reaches never gets a new step, so it is
accessible as before; from anywhere else a step is an old one or leads to `c`, and `c` is
accessible. -/
theorem wellFounded_of_redirect {R R' : OpId → OpId → Prop} {S : OpId → Prop} {c : OpId}
    (hR : WellFounded fun p o => R o p) (hstep : ∀ o p, R' o p → R o p ∨ p = c ∧ S o)
    (hS : ∀ o, S o → ¬Relation.ReflTransGen R c o) : WellFounded fun p o => R' o p := by
  -- above `c` both relations have the same steps
  have hc : ∀ x, Relation.ReflTransGen R c x → Acc (fun p o => R' o p) x := by
    intro x
    induction x using hR.induction with
    | _ x ih =>
      intro hx
      refine ⟨x, fun y hy => ?_⟩
      rcases hstep x y hy with hxy | ⟨_, hxS⟩
      · exact ih y hxy (hx.tail hxy)
      · exact absurd hx (hS x hxS)
  refine ⟨fun o => ?_⟩
  induction o using hR.induction with
  | _ o ih =>
    refine ⟨o, fun y hy => ?_⟩
    rcases hstep o y hy with hoy | ⟨rfl, _⟩
    · exact ih y hoy
    · exact hc y .refl

/-- A relation without infinite ways up stays so if steps are left out. -/
theorem wellFounded_of_imp {R R' : OpId → OpId → Prop} (hR : WellFounded fun p o => R o p)
    (hstep : ∀ o p, R' o p → R o p) : WellFounded fun p o => R' o p :=
  Subrelation.wf (fun {_ _} h => hstep _ _ h) hR

/-- No operation gets nested in itself if the operations of `S` get the owner of a region around
them and none of them encloses that region. -/
theorem acyclic_of_redirect {m n : Module} {r : RegionId} {S : OpId → Prop}
    (h : WellFounded fun p o => m.Up o p)
    (hstep : ∀ o p, n.Up o p → m.Up o p ∨ (m.region r).parent = some p ∧ S o)
    (hinside : ∀ o, S o → ¬m.RegionInside r o) : WellFounded fun p o => n.Up o p := by
  cases howner : (m.region r).parent with
  | none =>
    refine wellFounded_of_imp h fun o p hup => ?_
    rcases hstep o p hup with hup | ⟨hp, -⟩
    · exact hup
    · cases howner.symm.trans hp
  | some c =>
    refine wellFounded_of_redirect (S := S) (c := c) h (fun o p hup => ?_)
      fun o ho hc => hinside o ho ⟨c, howner, hc⟩
    exact (hstep o p hup).imp_right fun ⟨hp, ho⟩ => ⟨Option.some.inj (hp.symm.trans howner), ho⟩

/-! ## What is not there -/

/-- What is not there stands nowhere. -/
@[simp] theorem parent_default_op : (default : Op).parent = none := rfl

/-- What is not there reads nothing. -/
@[simp] theorem operands_default_op : (default : Op).operands = [] := rfl

/-- What is not there gives nothing. -/
@[simp] theorem results_default_op : (default : Op).results = [] := rfl

/-- What is not there owns nothing. -/
@[simp] theorem regions_default_op : (default : Op).regions = [] := rfl

/-- A block that is not there has no arguments. -/
@[simp] theorem args_default_block : (default : Block).args = [] := rfl

/-- A block that is not there lists nothing. -/
@[simp] theorem ops_default_block : (default : Block).ops = [] := rfl

/-- A region that is not there has no blocks. -/
@[simp] theorem blocks_default_region : (default : Region).blocks = [] := rfl

/-- A region that is not there belongs to nothing. -/
@[simp] theorem parent_default_region : (default : Region).parent = none := rfl

/-! ## Links -/

/-- Operations, blocks and regions: a thing names the list that it stands in, and stands there
once. -/
structure TreeLinked (m : Module) : Prop where
  op_parent : ∀ (o : OpId) (b : BlockId), (m.op o).parent = some b ↔ o ∈ (m.block b).ops
  ops_nodup : ∀ b : BlockId, (m.block b).ops.Nodup
  block_parent : ∀ (b : BlockId) (r : RegionId), b.index < m.blocks.size →
    ((m.block b).parent = r ↔ b ∈ (m.region r).blocks)
  blocks_nodup : ∀ r : RegionId, (m.region r).blocks.Nodup
  blocks_lt : ∀ r : RegionId, ∀ b ∈ (m.region r).blocks, b.index < m.blocks.size
  region_parent : ∀ (r : RegionId) (o : OpId), (m.region r).parent = some o ↔ r ∈ (m.op o).regions
  regions_nodup : ∀ o : OpId, (m.op o).regions.Nodup
  body_lt : body.index < m.regions.size
  body_parent : (m.region body).parent = none

/-- Values: a value names the result or the argument that it is, and what is listed exists. -/
structure ValuesLinked (m : Module) : Prop where
  result_origin : ∀ (v : ValueId) (o : OpId) (i : Nat), v.index < m.values.size →
    ((m.value v).origin = .result o i ↔ (m.op o).results[i]? = some v)
  arg_origin : ∀ (v : ValueId) (b : BlockId) (i : Nat), v.index < m.values.size →
    ((m.value v).origin = .arg b i ↔ (m.block b).args[i]? = some v)
  results_lt : ∀ o : OpId, ∀ v ∈ (m.op o).results, v.index < m.values.size
  args_lt : ∀ b : BlockId, ∀ v ∈ (m.block b).args, v.index < m.values.size
  operands_lt : ∀ o : OpId, ∀ v ∈ (m.op o).operands, v.index < m.values.size

/-- The links of a module agree at both ends, and no operation is nested in itself. -/
structure Linked (m : Module) : Prop extends m.TreeLinked, m.ValuesLinked where
  acyclic : WellFounded fun p o => m.Up o p

/-- A block behind the end of the arena is the default one. -/
theorem block_of_le {m : Module} {b : BlockId} (h : m.blocks.size ≤ b.index) :
    m.block b = default := by
  simp [block, Array.getD_eq_getD_getElem?, Array.getElem?_eq_none h]

/-- The next operation is not there yet. -/
theorem op_size (m : Module) : m.op ⟨m.ops.size⟩ = default := op_of_le (Nat.le_refl _)

/-- The next block is not there yet. -/
theorem block_size (m : Module) : m.block ⟨m.blocks.size⟩ = default := block_of_le (Nat.le_refl _)

/-- An operation with a property that the default one lacks has a number in the arena. -/
theorem op_lt_of {m : Module} {o : OpId} (P : Op → Prop) (hdefault : ¬P default) (h : P (m.op o)) :
    o.index < m.ops.size :=
  index_lt_of_op_ne fun hd => hdefault (hd ▸ h)

/-- A region with a property that the default one lacks has a number in the arena. -/
theorem region_lt_of {m : Module} {r : RegionId} (P : Region → Prop) (hdefault : ¬P default)
    (h : P (m.region r)) : r.index < m.regions.size :=
  index_lt_of_region_ne fun hd => hdefault (hd ▸ h)

/-- A block with a property that the default one lacks has a number in the arena. -/
theorem block_lt_of {m : Module} {b : BlockId} (P : Block → Prop) (hdefault : ¬P default)
    (h : P (m.block b)) : b.index < m.blocks.size := by
  by_contra hge
  rw [block_of_le (Nat.le_of_not_lt hge)] at h
  exact hdefault h

/-- An operation that stands in a block exists. -/
theorem op_lt_of_parent {m : Module} {o : OpId} {b : BlockId} (h : (m.op o).parent = some b) :
    o.index < m.ops.size := op_lt_of (·.parent = some b) (by simp) h

/-- An operation that owns a region exists. -/
theorem op_lt_of_mem_regions {m : Module} {o : OpId} {r : RegionId} (h : r ∈ (m.op o).regions) :
    o.index < m.ops.size := op_lt_of (r ∈ ·.regions) (by simp) h

/-- A region that has an owner exists. -/
theorem region_lt_of_parent {m : Module} {r : RegionId} {o : OpId}
    (h : (m.region r).parent = some o) : r.index < m.regions.size :=
  region_lt_of (·.parent = some o) (by simp) h

/-- A region that lists a block exists. -/
theorem region_lt_of_mem_blocks {m : Module} {r : RegionId} {b : BlockId}
    (h : b ∈ (m.region r).blocks) : r.index < m.regions.size :=
  region_lt_of (b ∈ ·.blocks) (by simp) h

/-- A block that lists an operation exists. -/
theorem block_lt_of_mem_ops {m : Module} {b : BlockId} {o : OpId} (h : o ∈ (m.block b).ops) :
    b.index < m.blocks.size := block_lt_of (o ∈ ·.ops) (by simp) h

/-- A step outwards, spelled out. -/
theorem up_iff {m : Module} {o p : OpId} :
    m.Up o p ↔ ∃ b, (m.op o).parent = some b ∧ (m.region (m.block b).parent).parent = some p := by
  rw [Up, parentOp?, Option.bind_eq_some_iff]

namespace TreeLinked

variable {m : Module}

/-- An operation that is listed exists. -/
theorem ops_lt (h : m.TreeLinked) {b : BlockId} {o : OpId} (ho : o ∈ (m.block b).ops) :
    o.index < m.ops.size := op_lt_of_parent ((h.op_parent o b).2 ho)

/-- A region that an operation owns exists. -/
theorem regions_lt (h : m.TreeLinked) {o : OpId} {r : RegionId} (hr : r ∈ (m.op o).regions) :
    r.index < m.regions.size := region_lt_of_parent ((h.region_parent r o).2 hr)

/-- The owner of a region exists. -/
theorem owner_lt (h : m.TreeLinked) {o : OpId} {r : RegionId} (hr : (m.region r).parent = some o) :
    o.index < m.ops.size := op_lt_of_mem_regions ((h.region_parent r o).1 hr)

/-- The region of a block exists. -/
theorem parent_lt (h : m.TreeLinked) {b : BlockId} (hb : b.index < m.blocks.size) :
    (m.block b).parent.index < m.regions.size :=
  region_lt_of_mem_blocks ((h.block_parent b _ hb).1 rfl)

/-- The block of an operation exists. -/
theorem block_lt (h : m.TreeLinked) {o : OpId} {b : BlockId} (hb : (m.op o).parent = some b) :
    b.index < m.blocks.size := block_lt_of_mem_ops ((h.op_parent o b).1 hb)

end TreeLinked

/-! ## The smallest module -/

section New

variable (location : Location)

/-- A new module has no operations. -/
theorem op_new (o : OpId) : (Module.new location).op o = default := op_of_le (Nat.zero_le _)

/-- Every block of a new module is empty and belongs to the body. -/
theorem block_new (b : BlockId) : (Module.new location).block b = ⟨[], [], ⟨0⟩⟩ := by
  obtain ⟨i⟩ := b
  cases i with
  | zero => rfl
  | succ i => exact block_of_le (by simp [Module.new])

/-- The body of a new module has one block, and other regions are not there. -/
theorem region_new (r : RegionId) :
    (Module.new location).region r = if r = ⟨0⟩ then ⟨[⟨0⟩], none⟩ else default := by
  obtain ⟨i⟩ := r
  cases i with
  | zero => rfl
  | succ i => simp [region_of_le, Module.new]

/-- The links of the tree with one empty block agree.

**Proof sketch.** Only block zero stands in a region, the body, and no operation is there;
everything else is a default. -/
theorem TreeLinked.new : (Module.new location).TreeLinked where
  op_parent o b := by simp [op_new, block_new]
  ops_nodup b := by simp [block_new]
  block_parent := by
    rintro ⟨i⟩ r hb
    have hi : i = 0 := by simpa [Module.new] using hb
    subst hi
    rw [block_new, region_new]
    by_cases hr : r = ⟨0⟩
    · simp [hr]
    · simp [hr, Ne.symm hr]
  blocks_nodup r := by
    rw [region_new]
    split <;> simp
  blocks_lt r b hb := by
    rw [region_new] at hb
    split at hb
    · simp only [List.mem_singleton] at hb
      simp [hb, Module.new]
    · simp at hb
  region_parent r o := by
    rw [op_new, region_new]
    split <;> simp
  regions_nodup o := by simp [op_new]
  body_lt := Nat.one_pos
  body_parent := rfl

/-- There are no values whose links could disagree. -/
theorem ValuesLinked.new : (Module.new location).ValuesLinked where
  result_origin v o i hv := by simp [Module.new] at hv
  arg_origin v b i hv := by simp [Module.new] at hv
  results_lt o v hv := by simp [op_new] at hv
  args_lt b v hv := by simp [block_new] at hv
  operands_lt o v hv := by simp [op_new] at hv

/-- The links of the module with one empty block agree. -/
theorem Linked.new : (Module.new location).Linked where
  toTreeLinked := .new location
  toValuesLinked := .new location
  acyclic := by
    refine ⟨fun o => ⟨o, fun p hp => ?_⟩⟩
    obtain ⟨b, hb, _⟩ := up_iff.1 hp
    simp [op_new] at hb

end New

/-! ## New operations -/

section CreateOp

variable (m : Module) (spec : OpSpec) (location : Location)

/-- The regions of a new operation are the only new ones. -/
theorem region_createOp (r : RegionId) :
    (m.createOp spec location).2.region r =
      if m.regions.size ≤ r.index ∧ r.index < m.regions.size + spec.regions then
        ⟨[], some ⟨m.ops.size⟩⟩
      else m.region r := by
  rcases Nat.lt_or_ge r.index m.regions.size with hlt | hge
  · rw [region_createOp_of_lt _ _ _ hlt, if_neg (by omega)]
  · split
    · rename_i hr
      have hadd := region_createOp_add m spec location (i := r.index - m.regions.size) (by omega)
      rwa [Nat.add_sub_cancel' hge] at hadd
    · rw [region_of_le hge, region_of_le]
      rw [size_regions_createOp]
      omega

/-- A region lists the blocks that it listed. -/
@[simp] theorem blocks_region_createOp (r : RegionId) :
    ((m.createOp spec location).2.region r).blocks = (m.region r).blocks := by
  rw [region_createOp]
  split
  · rename_i hr
    rw [region_of_le hr.1]
    rfl
  · rfl

/-- A new operation stands in no block, like one that is not there. -/
theorem parent_createOp (o : OpId) :
    ((m.createOp spec location).2.op o).parent = (m.op o).parent := by
  rw [op_createOp]
  split
  · rename_i ho
    rw [ho, op_size]
    rfl
  · rfl

/-- The results of a new operation know where they come from. -/
theorem origin_createOp {v : ValueId} (hge : m.values.size ≤ v.index)
    (hlt : v.index < m.values.size + spec.results.length) :
    ((m.createOp spec location).2.value v).origin =
      .result ⟨m.ops.size⟩ (v.index - m.values.size) := by
  have hi : v.index - m.values.size < spec.results.length := by omega
  have hadd := value_createOp_add m spec location (List.getElem?_eq_getElem hi)
  rw [Nat.add_sub_cancel' hge] at hadd
  exact congrArg Value.origin hadd

end CreateOp

/-- What stands at a place of a list of new values. -/
theorem getElem?_newValues (start n i : Nat) (v : ValueId) :
    ((List.range n).map fun j => (⟨start + j⟩ : ValueId))[i]? = some v ↔
      i < n ∧ v.index = start + i := by
  rw [List.getElem?_map, Option.map_eq_some_iff]
  constructor
  · rintro ⟨j, hj, rfl⟩
    obtain ⟨hi, rfl⟩ := List.getElem?_eq_some_iff.1 hj
    simp only [List.length_range] at hi
    simp [hi]
  · rintro ⟨hi, hv⟩
    exact ⟨i, by simp [hi], by rw [← ValueId.index_eq_iff, hv]⟩

/-- After an operation was created, a region names the operation that owns it.

**Proof sketch.** By whether the operation is the new one, which owns the regions that are new,
or an old one, whose regions are old ones (`regions_lt`). -/
theorem TreeLinked.region_parent_createOp {m : Module} (h : m.TreeLinked) (spec : OpSpec)
    (location : Location) (r : RegionId) (o : OpId) :
    ((m.createOp spec location).2.region r).parent = some o ↔
      r ∈ ((m.createOp spec location).2.op o).regions := by
  rw [region_createOp, op_createOp]
  by_cases ho : o = ⟨m.ops.size⟩
  · subst ho
    have hold : (m.region r).parent ≠ some ⟨m.ops.size⟩ := by
      rw [Ne, h.region_parent, op_size]
      simp
    rw [if_pos rfl, OpSpec.mem_regions_toOp]
    split
    · rename_i hr
      exact ⟨fun _ => hr, fun _ => rfl⟩
    · rename_i hr
      exact ⟨fun hp => absurd hp hold, fun hnew => absurd hnew hr⟩
  · rw [if_neg ho]
    split
    · rename_i hr
      refine ⟨fun hp => absurd (Option.some.inj hp).symm ho, fun hmem => ?_⟩
      have := h.regions_lt hmem
      omega
    · exact h.region_parent r o

/-- Creating an operation keeps the links of the tree.

**Proof sketch.** The new operation stands in no block and its regions list none, so all fields
but `region_parent`, which is `region_parent_createOp`, are as before. -/
theorem TreeLinked.createOp {m : Module} (h : m.TreeLinked) (spec : OpSpec) (location : Location) :
    (m.createOp spec location).2.TreeLinked where
  op_parent o b := by
    rw [parent_createOp]
    exact h.op_parent o b
  ops_nodup := h.ops_nodup
  block_parent b r hb := by
    rw [blocks_region_createOp]
    exact h.block_parent b r hb
  blocks_nodup r := by
    rw [blocks_region_createOp]
    exact h.blocks_nodup r
  blocks_lt r := by
    rw [blocks_region_createOp]
    exact h.blocks_lt r
  region_parent := h.region_parent_createOp spec location
  regions_nodup o := by
    rw [op_createOp]
    split
    · refine List.nodup_range.map fun i j hij => ?_
      simpa using hij
    · exact h.regions_nodup o
  body_lt := by
    rw [size_regions_createOp]
    exact Nat.lt_add_right _ h.body_lt
  body_parent := by
    rw [region_createOp_of_lt _ _ _ h.body_lt]
    exact h.body_parent

/-- After an operation was created, a value names the operation whose result it is.

**Proof sketch.** By whether the value and the operation are new.  The results of the new
operation are the new values in their order; an old value is no result of it, and a new one no
result of an old operation. -/
theorem ValuesLinked.result_origin_createOp {m : Module} (h : m.ValuesLinked) (spec : OpSpec)
    (location : Location) {v : ValueId} {o : OpId} {i : Nat}
    (hv : v.index < (m.createOp spec location).2.values.size) :
    ((m.createOp spec location).2.value v).origin = .result o i ↔
      ((m.createOp spec location).2.op o).results[i]? = some v := by
  rw [size_values_createOp] at hv
  rw [op_createOp]
  rcases Nat.lt_or_ge v.index m.values.size with hlt | hge
  · rw [value_createOp_of_lt _ _ _ hlt, h.result_origin v o i hlt]
    split
    · rename_i ho
      rw [ho, op_size, OpSpec.toOp, getElem?_newValues]
      simp only [results_default_op, List.getElem?_nil, reduceCtorEq, false_iff]
      omega
    · rfl
  · rw [origin_createOp m spec location hge hv]
    split
    · rename_i ho
      rw [ho, OpSpec.toOp, getElem?_newValues]
      simp only [ValueDef.result.injEq, true_and]
      omega
    · rename_i ho
      refine ⟨fun horigin => ?_, fun hres => ?_⟩
      · cases horigin
        exact absurd rfl ho
      · have := h.results_lt o v (List.mem_of_getElem? hres)
        omega

/-- Creating an operation keeps the links of the values.

**Proof sketch.** `result_origin_createOp` is the new part.  A new value is a result, hence no
argument; the bounds grow with the number of values. -/
theorem ValuesLinked.createOp {m : Module} (h : m.ValuesLinked) (spec : OpSpec)
    (location : Location) (hoperands : ∀ v ∈ spec.operands, v.index < m.values.size) :
    (m.createOp spec location).2.ValuesLinked where
  result_origin v o i hv := h.result_origin_createOp spec location hv
  arg_origin v b i hv := by
    rw [size_values_createOp] at hv
    rcases Nat.lt_or_ge v.index m.values.size with hlt | hge
    · rw [value_createOp_of_lt _ _ _ hlt]
      exact h.arg_origin v b i hlt
    · rw [origin_createOp m spec location hge hv, block_createOp]
      constructor
      · intro horigin
        cases horigin
      · intro harg
        have := h.args_lt b v (List.mem_of_getElem? harg)
        omega
  results_lt o v hv := by
    rw [size_values_createOp]
    rw [op_createOp] at hv
    split at hv
    · exact ((OpSpec.mem_results_toOp _ _).1 hv).2
    · exact Nat.lt_add_right _ (h.results_lt o v hv)
  args_lt b v hv := by
    rw [size_values_createOp]
    exact Nat.lt_add_right _ (h.args_lt b v hv)
  operands_lt o v hv := by
    rw [size_values_createOp]
    rw [op_createOp] at hv
    split at hv
    · exact Nat.lt_add_right _ (hoperands v hv)
    · exact Nat.lt_add_right _ (h.operands_lt o v hv)

/-- **Creating an operation keeps the links.** -/
theorem Linked.createOp {m : Module} (h : m.Linked) (spec : OpSpec) (location : Location)
    (hoperands : ∀ v ∈ spec.operands, v.index < m.values.size) :
    (m.createOp spec location).2.Linked where
  toTreeLinked := h.toTreeLinked.createOp spec location
  toValuesLinked := h.toValuesLinked.createOp spec location hoperands
  acyclic := by
    refine wellFounded_of_imp h.acyclic fun o p hup => ?_
    obtain ⟨b, hb, hp⟩ := up_iff.1 hup
    rw [parent_createOp] at hb
    rw [block_createOp, region_createOp_of_lt _ _ _ (h.parent_lt (h.block_lt hb))] at hp
    exact up_iff.2 ⟨b, hb, hp⟩

/-! ## New blocks -/

section AppendBlock

variable (m : Module) (region' : RegionId) (argTypes : List Ty)

/-- A region keeps its owner. -/
@[simp] theorem parent_region_appendBlock (r : RegionId) :
    ((m.appendBlock region' argTypes).2.region r).parent = (m.region r).parent := by
  rw [region_appendBlock]
  split <;> rfl

/-- The arguments of a new block know where they come from. -/
theorem origin_appendBlock {v : ValueId} (hge : m.values.size ≤ v.index)
    (hlt : v.index < m.values.size + argTypes.length) :
    ((m.appendBlock region' argTypes).2.value v).origin =
      .arg ⟨m.blocks.size⟩ (v.index - m.values.size) := by
  have hi : v.index - m.values.size < argTypes.length := by omega
  have hadd := value_appendBlock_add m region' argTypes (List.getElem?_eq_getElem hi)
  rw [Nat.add_sub_cancel' hge] at hadd
  exact congrArg Value.origin hadd

end AppendBlock

/-- After a block was appended, a block names the region that lists it. -/
theorem TreeLinked.block_parent_appendBlock {m : Module} (h : m.TreeLinked) {r : RegionId}
    (hr : r.index < m.regions.size) (argTypes : List Ty) {b : BlockId} (s : RegionId)
    (hb : b.index < (m.appendBlock r argTypes).2.blocks.size) :
    ((m.appendBlock r argTypes).2.block b).parent = s ↔
      b ∈ ((m.appendBlock r argTypes).2.region s).blocks := by
  have hnew : ∀ s, (⟨m.blocks.size⟩ : BlockId) ∉ (m.region s).blocks :=
    fun s hmem => Nat.lt_irrefl _ (h.blocks_lt s _ hmem)
  rw [size_blocks_appendBlock] at hb
  rw [block_appendBlock, region_appendBlock]
  by_cases hbnew : b = ⟨m.blocks.size⟩
  · subst hbnew
    by_cases hsr : s = r
    · simp [hsr, hr]
    · simp [hsr, Ne.symm hsr, hnew]
  · have hlt : b.index < m.blocks.size := by
      have hne : b.index ≠ m.blocks.size := fun hi => hbnew (BlockId.index_eq_iff.1 hi)
      omega
    rw [if_neg hbnew, h.block_parent b s hlt]
    split <;> simp [hbnew]

/-- Appending a block keeps the links of the tree.

**Proof sketch.** The new block lists no operation, and the region lists it once, because its
number was not in use.  That it stands in that region is `block_parent_appendBlock`. -/
theorem TreeLinked.appendBlock {m : Module} (h : m.TreeLinked) {r : RegionId}
    (hr : r.index < m.regions.size) (argTypes : List Ty) :
    (m.appendBlock r argTypes).2.TreeLinked where
  op_parent o b := by
    rw [op_appendBlock, block_appendBlock]
    split
    · rename_i hb
      rw [h.op_parent, hb, block_size]
      simp
    · exact h.op_parent o b
  ops_nodup b := by
    rw [block_appendBlock]
    split
    · exact List.nodup_nil
    · exact h.ops_nodup b
  block_parent b s hb := h.block_parent_appendBlock hr argTypes s hb
  blocks_nodup s := by
    rw [region_appendBlock]
    split
    · have hnew : (⟨m.blocks.size⟩ : BlockId) ∉ (m.region s).blocks :=
        fun hmem => Nat.lt_irrefl _ (h.blocks_lt s _ hmem)
      exact List.nodup_append.2 ⟨h.blocks_nodup s, by simp, by
        rintro b hb c hc rfl
        exact hnew (List.mem_singleton.1 hc ▸ hb)⟩
    · exact h.blocks_nodup s
  blocks_lt s b hb := by
    rw [size_blocks_appendBlock]
    rw [region_appendBlock] at hb
    split at hb
    · simp only [List.mem_append, List.mem_singleton] at hb
      rcases hb with hb | rfl
      · exact Nat.lt_succ_of_lt (h.blocks_lt s b hb)
      · exact Nat.lt_succ_self _
    · exact Nat.lt_succ_of_lt (h.blocks_lt s b hb)
  region_parent s o := by
    rw [parent_region_appendBlock, op_appendBlock]
    exact h.region_parent s o
  regions_nodup := h.regions_nodup
  body_lt := by
    rw [size_regions_appendBlock]
    exact h.body_lt
  body_parent := by
    rw [parent_region_appendBlock]
    exact h.body_parent

/-- After a block was appended, a value names the block whose argument it is.

**Proof sketch.** By whether the value and the block are new.  The arguments of the new block are
the new values in their order; an old value is no argument of it, and a new one no argument of an
old block. -/
theorem ValuesLinked.arg_origin_appendBlock {m : Module} (h : m.ValuesLinked) (r : RegionId)
    (argTypes : List Ty) {v : ValueId} {b : BlockId} {i : Nat}
    (hv : v.index < (m.appendBlock r argTypes).2.values.size) :
    ((m.appendBlock r argTypes).2.value v).origin = .arg b i ↔
      ((m.appendBlock r argTypes).2.block b).args[i]? = some v := by
  rw [size_values_appendBlock] at hv
  rw [block_appendBlock]
  rcases Nat.lt_or_ge v.index m.values.size with hlt | hge
  · rw [value_appendBlock_of_lt _ _ _ hlt, h.arg_origin v b i hlt]
    split
    · rename_i hb
      rw [hb, block_size, getElem?_newValues]
      simp only [args_default_block, List.getElem?_nil, reduceCtorEq, false_iff]
      omega
    · rfl
  · rw [origin_appendBlock m r argTypes hge hv]
    split
    · rename_i hb
      rw [hb, getElem?_newValues]
      simp only [ValueDef.arg.injEq, true_and]
      omega
    · rename_i hb
      refine ⟨fun horigin => ?_, fun harg => ?_⟩
      · cases horigin
        exact absurd rfl hb
      · have := h.args_lt b v (List.mem_of_getElem? harg)
        omega

/-- Appending a block keeps the links of the values.

**Proof sketch.** `arg_origin_appendBlock` is the new part.  A new value is an argument, hence no
result; the bounds grow with the number of values. -/
theorem ValuesLinked.appendBlock {m : Module} (h : m.ValuesLinked) (r : RegionId)
    (argTypes : List Ty) : (m.appendBlock r argTypes).2.ValuesLinked where
  result_origin v o i hv := by
    rw [size_values_appendBlock] at hv
    rcases Nat.lt_or_ge v.index m.values.size with hlt | hge
    · rw [value_appendBlock_of_lt _ _ _ hlt]
      exact h.result_origin v o i hlt
    · rw [origin_appendBlock m r argTypes hge hv, op_appendBlock]
      constructor
      · intro horigin
        cases horigin
      · intro hres
        have := h.results_lt o v (List.mem_of_getElem? hres)
        omega
  arg_origin v b i hv := h.arg_origin_appendBlock r argTypes hv
  results_lt o v hv := by
    rw [size_values_appendBlock]
    exact Nat.lt_add_right _ (h.results_lt o v hv)
  args_lt b v hv := by
    rw [size_values_appendBlock]
    rw [block_appendBlock] at hv
    split at hv
    · simp only [List.mem_map, List.mem_range] at hv
      obtain ⟨i, hi, rfl⟩ := hv
      simp only
      omega
    · exact Nat.lt_add_right _ (h.args_lt b v hv)
  operands_lt o v hv := by
    rw [size_values_appendBlock]
    exact Nat.lt_add_right _ (h.operands_lt o v hv)

/-- **Appending a block keeps the links.** -/
theorem Linked.appendBlock {m : Module} (h : m.Linked) {r : RegionId}
    (hr : r.index < m.regions.size) (argTypes : List Ty) :
    (m.appendBlock r argTypes).2.Linked where
  toTreeLinked := h.toTreeLinked.appendBlock hr argTypes
  toValuesLinked := h.toValuesLinked.appendBlock r argTypes
  acyclic := by
    refine wellFounded_of_imp h.acyclic fun o p hup => ?_
    obtain ⟨b, hb, hp⟩ := up_iff.1 hup
    rw [op_appendBlock] at hb
    have hne : b ≠ ⟨m.blocks.size⟩ := by
      rintro rfl
      exact Nat.lt_irrefl _ (h.block_lt hb)
    rw [block_appendBlock, if_neg hne, parent_region_appendBlock] at hp
    exact up_iff.2 ⟨b, hb, hp⟩

end Module

end ContractIR
