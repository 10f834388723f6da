import ContractIR.Proofs.Module.Lookup

/-!
# Growing modules

Whatever builds operations leaves what was there as it was, apart from the blocks in which it puts
them, and refers from new things to new things only.  This is said once, as a relation between the
module before and the module after, and every elementary step of building keeps it.

## Main definitions

* `ContractIR.Module.addOp` — a new operation, put into a block.
* `ContractIR.Module.Extends` — one module grew out of another one, in some of its blocks.
* `ContractIR.Module.Closed` — a module refers to nothing behind the ends of its arenas.

## Main results

* `ContractIR.Module.Extends.addOp`, `appendBlock`, `modifyOp` — the elementary steps.
* `ContractIR.Module.Closed.addOp`, `appendBlock` — building keeps modules closed.
-/

set_option autoImplicit false

namespace ContractIR

namespace Module

/-! ## Behind the ends of the arenas -/

/-- Behind the end of the arena there are no operations. -/
theorem op_of_le {m : Module} {id : OpId} (h : m.ops.size ≤ id.index) : m.op id = default := by
  by_contra hne
  have := index_lt_of_op_ne hne
  omega

/-- Behind the end of the arena there are no regions. -/
theorem region_of_le {m : Module} {r : RegionId} (h : m.regions.size ≤ r.index) :
    m.region r = default := by
  by_contra hne
  have := index_lt_of_region_ne hne
  omega

/-! ## New operations in place -/

/-- Creates an operation and puts it into a block. -/
def addOp (m : Module) (spec : OpSpec) (location : Location) (b : BlockId) (index : Option Nat) :
    Module :=
  (m.createOp spec location).2.insertOp b index ⟨m.ops.size⟩

section AddOp

variable (m : Module) (spec : OpSpec) (location : Location) (b : BlockId) (index : Option Nat)

/-- The operation that was added is the only new one. -/
theorem op_addOp (id : OpId) :
    (m.addOp spec location b index).op id =
      if id = ⟨m.ops.size⟩ then spec.toOp location m.values.size m.regions.size (some b)
      else m.op id := by
  simp only [addOp, op_insertOp, op_createOp, size_ops_createOp]
  by_cases hid : id = ⟨m.ops.size⟩
  · subst hid
    simp [OpSpec.toOp]
  · simp [hid]

/-- Old operations are as they were. -/
theorem op_addOp_of_lt {id : OpId} (h : id.index < m.ops.size) :
    (m.addOp spec location b index).op id = m.op id := by
  rw [op_addOp, if_neg]
  rintro rfl
  exact Nat.lt_irrefl _ h

/-- Behind the old operations there is the one that was added, and nothing else. -/
theorem op_addOp_of_le {id : OpId} (h : m.ops.size ≤ id.index) :
    (m.addOp spec location b index).op id =
        spec.toOp location m.values.size m.regions.size (some b) ∨
      (m.addOp spec location b index).op id = default := by
  rw [op_addOp]
  split
  · exact .inl rfl
  · exact .inr (op_of_le h)

/-- The operation that was added stands in its block. -/
theorem block_addOp (x : BlockId) :
    (m.addOp spec location b index).block x =
      if x = b ∧ b.index < m.blocks.size then
        { m.block x with ops := placeAt index ⟨m.ops.size⟩ (m.block x).ops }
      else m.block x := by
  rw [addOp, block_insertOp]
  rfl

/-- What stands in a block stood there before, or was added to it. -/
theorem mem_ops_addOp {x : BlockId} {o : OpId}
    (h : o ∈ ((m.addOp spec location b index).block x).ops) :
    o ∈ (m.block x).ops ∨ o = ⟨m.ops.size⟩ ∧ x = b := by
  rw [block_addOp] at h
  split at h
  · rename_i hx
    rcases (mem_placeAt _ _).1 h with rfl | h
    · exact .inr ⟨rfl, hx.1⟩
    · exact .inl h
  · exact .inl h

/-- Old regions are as they were. -/
theorem region_addOp_of_lt {r : RegionId} (h : r.index < m.regions.size) :
    (m.addOp spec location b index).region r = m.region r := by
  rw [addOp, region_insertOp, region_createOp_of_lt _ _ _ h]

/-- The regions of the operation that was added are empty and know their owner. -/
theorem region_addOp_add {i : Nat} (h : i < spec.regions) :
    (m.addOp spec location b index).region ⟨m.regions.size + i⟩ = ⟨[], some ⟨m.ops.size⟩⟩ := by
  rw [addOp, region_insertOp, region_createOp_add _ _ _ h]

/-- Old values are as they were. -/
theorem value_addOp_of_lt {v : ValueId} (h : v.index < m.values.size) :
    (m.addOp spec location b index).value v = m.value v := by
  rw [addOp, value_insertOp, value_createOp_of_lt _ _ _ h]

/-- One operation is added. -/
@[simp] theorem size_ops_addOp : (m.addOp spec location b index).ops.size = m.ops.size + 1 := by
  simp [addOp]

/-- No block is added. -/
@[simp] theorem size_blocks_addOp :
    (m.addOp spec location b index).blocks.size = m.blocks.size := by
  simp [addOp]

/-- The regions of the operation are added. -/
@[simp] theorem size_regions_addOp :
    (m.addOp spec location b index).regions.size = m.regions.size + spec.regions := by
  simp [addOp]

/-- The results of the operation are added. -/
@[simp] theorem size_values_addOp :
    (m.addOp spec location b index).values.size = m.values.size + spec.results.length := by
  simp [addOp]

/-- A region behind all that were there has no blocks. -/
theorem blocks_region_addOp_of_le {r : RegionId} (h : m.regions.size ≤ r.index) :
    ((m.addOp spec location b index).region r).blocks = [] := by
  by_cases hi : r.index - m.regions.size < spec.regions
  · have hr : r = ⟨m.regions.size + (r.index - m.regions.size)⟩ := by
      rw [← RegionId.index_eq_iff]
      simp only
      omega
    rw [hr, region_addOp_add _ _ _ _ _ hi]
  · by_contra hne
    have hlt : r.index < (m.addOp spec location b index).regions.size :=
      index_lt_of_region_ne fun hd => hne (by rw [hd]; rfl)
    rw [size_regions_addOp] at hlt
    omega

end AddOp

/-! ## Extensions -/

/-- `n` grew out of `m`.  What `m` has is the same in `n`, but for the blocks of `B`, which may list
more operations in between; what is new has new results, regions and blocks, and stands in new
blocks or in blocks of `B`. -/
structure Extends (B : BlockId → Prop) (m n : Module) : Prop where
  ops : ∀ id : OpId, id.index < m.ops.size → n.op id = m.op id
  blocks : ∀ x : BlockId, x.index < m.blocks.size → ¬B x → n.block x = m.block x
  grown : ∀ x : BlockId, x.index < m.blocks.size →
    (n.block x).args = (m.block x).args ∧ (n.block x).parent = (m.block x).parent ∧
      (m.block x).ops.Sublist (n.block x).ops
  regions : ∀ r : RegionId, r.index < m.regions.size → n.region r = m.region r
  values : ∀ v : ValueId, v.index < m.values.size → n.value v = m.value v
  size_ops : m.ops.size ≤ n.ops.size
  size_blocks : m.blocks.size ≤ n.blocks.size
  size_regions : m.regions.size ≤ n.regions.size
  size_values : m.values.size ≤ n.values.size
  new_members : ∀ (x : BlockId) (o : OpId), o ∈ (n.block x).ops →
    o ∈ (m.block x).ops ∨ m.ops.size ≤ o.index ∧ (n.op o).parent = some x
  new_regions : ∀ id : OpId, m.ops.size ≤ id.index → ∀ r ∈ (n.op id).regions,
    m.regions.size ≤ r.index
  new_results : ∀ id : OpId, m.ops.size ≤ id.index → ∀ v ∈ (n.op id).results,
    m.values.size ≤ v.index
  new_parents : ∀ id : OpId, m.ops.size ≤ id.index → ∀ x, (n.op id).parent = some x →
    B x ∨ m.blocks.size ≤ x.index
  new_blocks : ∀ r : RegionId, m.regions.size ≤ r.index → ∀ x ∈ (n.region r).blocks,
    m.blocks.size ≤ x.index

namespace Extends

variable {B : BlockId → Prop} {m n : Module}

/-- Nothing changed.

**Proof sketch.** Nothing is new, so the fields about what is new speak of defaults: an unknown
operation owns nothing and stands nowhere, an unknown region lists nothing. -/
theorem refl (B : BlockId → Prop) (m : Module) : Extends B m m where
  ops _ _ := rfl
  blocks _ _ _ := rfl
  grown _ _ := ⟨rfl, rfl, .refl _⟩
  regions _ _ := rfl
  values _ _ := rfl
  size_ops := Nat.le_refl _
  size_blocks := Nat.le_refl _
  size_regions := Nat.le_refl _
  size_values := Nat.le_refl _
  new_members _ _ ho := .inl ho
  new_regions id hid r hr := by
    rw [op_of_le hid] at hr
    cases hr
  new_results id hid v hv := by
    rw [op_of_le hid] at hv
    cases hv
  new_parents id hid x hx := by
    rw [op_of_le hid] at hx
    cases hx
  new_blocks r hr x hx := by
    rw [region_of_le hr] at hx
    cases hx

/-- One growth after another.

**Proof sketch.** Field by field.  What was there before the first growth was there before the
second; what is new is new in one of the two, and what the first one added the second keeps. -/
theorem trans {p : Module} (h : Extends B m n) (k : Extends B n p) : Extends B m p where
  ops id hid := by rw [k.ops id (Nat.lt_of_lt_of_le hid h.size_ops), h.ops id hid]
  blocks x hx hB := by rw [k.blocks x (Nat.lt_of_lt_of_le hx h.size_blocks) hB, h.blocks x hx hB]
  grown x hx := by
    obtain ⟨hargs, hparent, hops⟩ := h.grown x hx
    obtain ⟨kargs, kparent, kops⟩ := k.grown x (Nat.lt_of_lt_of_le hx h.size_blocks)
    exact ⟨kargs.trans hargs, kparent.trans hparent, hops.trans kops⟩
  regions r hr := by rw [k.regions r (Nat.lt_of_lt_of_le hr h.size_regions), h.regions r hr]
  values v hv := by rw [k.values v (Nat.lt_of_lt_of_le hv h.size_values), h.values v hv]
  size_ops := Nat.le_trans h.size_ops k.size_ops
  size_blocks := Nat.le_trans h.size_blocks k.size_blocks
  size_regions := Nat.le_trans h.size_regions k.size_regions
  size_values := Nat.le_trans h.size_values k.size_values
  new_members x o ho := by
    rcases k.new_members x o ho with ho | ⟨hnew, hparent⟩
    · rcases h.new_members x o ho with ho | ⟨hnew, hparent⟩
      · exact .inl ho
      · have hlt : o.index < n.ops.size := index_lt_of_op_ne fun hd => by
          rw [hd] at hparent
          cases hparent
        exact .inr ⟨hnew, by rw [k.ops o hlt, hparent]⟩
    · exact .inr ⟨Nat.le_trans h.size_ops hnew, hparent⟩
  new_regions id hid r hr := by
    rcases Nat.lt_or_ge id.index n.ops.size with hlt | hge
    · rw [k.ops id hlt] at hr
      exact h.new_regions id hid r hr
    · exact Nat.le_trans h.size_regions (k.new_regions id hge r hr)
  new_results id hid v hv := by
    rcases Nat.lt_or_ge id.index n.ops.size with hlt | hge
    · rw [k.ops id hlt] at hv
      exact h.new_results id hid v hv
    · exact Nat.le_trans h.size_values (k.new_results id hge v hv)
  new_parents id hid x hx := by
    rcases Nat.lt_or_ge id.index n.ops.size with hlt | hge
    · rw [k.ops id hlt] at hx
      exact h.new_parents id hid x hx
    · exact (k.new_parents id hge x hx).imp_right (Nat.le_trans h.size_blocks)
  new_blocks r hr x hx := by
    rcases Nat.lt_or_ge r.index n.regions.size with hlt | hge
    · rw [k.regions r hlt] at hx
      exact h.new_blocks r hr x hx
    · exact Nat.le_trans h.size_blocks (k.new_blocks r hge x hx)

/-- A module that grew in some blocks grew in more blocks. -/
theorem weaken {C : BlockId → Prop} (h : Extends B m n) (hBC : ∀ x, B x → C x) :
    Extends C m n :=
  { h with
    blocks := fun x hx hC => h.blocks x hx fun hB => hC (hBC x hB)
    new_parents := fun id hid x hx => (h.new_parents id hid x hx).imp_left (hBC x) }

/-- A module that grew goes on to grow in new blocks. -/
theorem trans_new {C : BlockId → Prop} {p : Module} (h : Extends B m n) (k : Extends C n p)
    (hC : ∀ x, C x → B x ∨ m.blocks.size ≤ x.index) : Extends B m p := by
  have hall : Extends (fun x => B x ∨ m.blocks.size ≤ x.index) m p :=
    (h.weaken fun _ hx => .inl hx).trans (k.weaken hC)
  refine { hall with
    blocks := fun x hx hB => hall.blocks x hx fun hnew => ?_
    new_parents := fun id hid x hx => ?_ }
  · exact hnew.elim hB fun hge => absurd hx (Nat.not_lt.2 hge)
  · rcases hall.new_parents id hid x hx with hnew | hge
    · exact hnew
    · exact .inr hge

/-- Adding an operation is growth in the block that it is put into.

**Proof sketch.** The only change to what was there is the list of the block, which gets the
operation (`block_addOp`).  What is new is that operation with its results and regions, which are
numbered past the old ones. -/
theorem of_addOp (n : Module) (spec : OpSpec) (location : Location) (b : BlockId)
    (index : Option Nat) : Extends (· = b) n (n.addOp spec location b index) where
  ops _ hid := op_addOp_of_lt _ _ _ _ _ hid
  blocks x _ hx := by rw [block_addOp, if_neg fun hc => hx hc.1]
  grown x _ := by
    rw [block_addOp]
    split
    · exact ⟨rfl, rfl, sublist_placeAt ..⟩
    · exact ⟨rfl, rfl, .refl _⟩
  regions _ hr := region_addOp_of_lt _ _ _ _ _ hr
  values _ hv := value_addOp_of_lt _ _ _ _ _ hv
  size_ops := by
    rw [size_ops_addOp]
    exact Nat.le_succ _
  size_blocks := Nat.le_of_eq (size_blocks_addOp ..).symm
  size_regions := by
    rw [size_regions_addOp]
    exact Nat.le_add_right _ _
  size_values := by
    rw [size_values_addOp]
    exact Nat.le_add_right _ _
  new_members x o ho := by
    refine (mem_ops_addOp _ _ _ _ _ ho).imp_right ?_
    rintro ⟨rfl, rfl⟩
    rw [op_addOp, if_pos rfl]
    exact ⟨Nat.le_refl _, rfl⟩
  new_regions id hid r hr := by
    rcases op_addOp_of_le _ _ _ _ _ hid with hop | hop <;> rw [hop] at hr
    · exact ((OpSpec.mem_regions_toOp _ _).1 hr).1
    · cases hr
  new_results id hid v hv := by
    rcases op_addOp_of_le _ _ _ _ _ hid with hop | hop <;> rw [hop] at hv
    · exact ((OpSpec.mem_results_toOp _ _).1 hv).1
    · cases hv
  new_parents id hid x hx := by
    rcases op_addOp_of_le _ _ _ _ _ hid with hop | hop <;> rw [hop] at hx
    · exact .inl (Option.some.inj hx).symm
    · cases hx
  new_blocks r hr x hx := by
    rw [blocks_region_addOp_of_le _ _ _ _ _ hr] at hx
    cases hx

/-- Adding an operation to a block of `B`, or to a new one. -/
theorem addOp (h : Extends B m n) (spec : OpSpec) (location : Location) {b : BlockId}
    (hb : B b ∨ m.blocks.size ≤ b.index) (index : Option Nat) :
    Extends B m (n.addOp spec location b index) :=
  h.trans_new (of_addOp n spec location b index) fun _ hx => hx ▸ hb

/-- Adding a block to a new region.

**Proof sketch.** The new block has the next number, so it is none of the old ones, and the
region that lists it is none of the old ones by `hr`.  Everything else is as `h` has it. -/
theorem appendBlock (h : Extends B m n) {r : RegionId} (hr : m.regions.size ≤ r.index)
    (argTypes : List Ty) : Extends B m (n.appendBlock r argTypes).2 where
  ops id hid := by rw [op_appendBlock, h.ops id hid]
  blocks x hx hB := by
    have hsize := h.size_blocks
    have hne : x ≠ ⟨n.blocks.size⟩ := by
      rintro rfl
      simp only at hx
      omega
    rw [block_appendBlock, if_neg hne, h.blocks x hx hB]
  grown x hx := by
    have hsize := h.size_blocks
    have hne : x ≠ ⟨n.blocks.size⟩ := by
      rintro rfl
      simp only at hx
      omega
    rw [block_appendBlock, if_neg hne]
    exact h.grown x hx
  regions s hs := by
    have hne : s ≠ r := by
      rintro rfl
      omega
    rw [region_appendBlock, if_neg fun hc => hne hc.1, h.regions s hs]
  values v hv := by
    rw [value_appendBlock_of_lt _ _ _ (Nat.lt_of_lt_of_le hv h.size_values), h.values v hv]
  size_ops := h.size_ops
  size_blocks := by
    rw [size_blocks_appendBlock]
    exact Nat.le_succ_of_le h.size_blocks
  size_regions := by
    rw [size_regions_appendBlock]
    exact h.size_regions
  size_values := by
    rw [size_values_appendBlock]
    exact Nat.le_add_right_of_le h.size_values
  new_members x o ho := by
    rw [block_appendBlock] at ho
    split at ho
    · cases ho
    · rw [op_appendBlock]
      exact h.new_members x o ho
  new_regions id hid s hs := h.new_regions id hid s hs
  new_results id hid v hv := h.new_results id hid v hv
  new_parents id hid x hx := h.new_parents id hid x hx
  new_blocks s hs x hx := by
    rw [region_appendBlock] at hx
    split at hx
    · simp only [List.mem_append, List.mem_singleton] at hx
      rcases hx with hx | rfl
      · exact h.new_blocks s hs x hx
      · exact h.size_blocks
    · exact h.new_blocks s hs x hx

/-- Changing a new operation in what it does, not in what it owns or where it stands.

**Proof sketch.** The changed operation is none of the old ones, and its regions, results and
place are what they were, so every field is that of `h`. -/
theorem modifyOp (h : Extends B m n) {i : OpId} (hi : m.ops.size ≤ i.index) {f : Op → Op}
    (hregions : ∀ o, (f o).regions = o.regions) (hresults : ∀ o, (f o).results = o.results)
    (hparent : ∀ o, (f o).parent = o.parent) : Extends B m (n.modifyOp i f) where
  ops id hid := by
    have hne : id ≠ i := by
      rintro rfl
      omega
    rw [op_modifyOp_of_ne _ _ hne, h.ops id hid]
  blocks := h.blocks
  grown := h.grown
  regions := h.regions
  values := h.values
  size_ops := by
    rw [size_ops_modifyOp]
    exact h.size_ops
  size_blocks := h.size_blocks
  size_regions := h.size_regions
  size_values := h.size_values
  new_members x o ho := by
    rw [op_modifyOp]
    split
    · rw [hparent]
      exact h.new_members x o ho
    · exact h.new_members x o ho
  new_regions id hid r hr := by
    rw [op_modifyOp] at hr
    split at hr
    · rw [hregions] at hr
      exact h.new_regions id hid r hr
    · exact h.new_regions id hid r hr
  new_results id hid v hv := by
    rw [op_modifyOp] at hv
    split at hv
    · rw [hresults] at hv
      exact h.new_results id hid v hv
    · exact h.new_results id hid v hv
  new_parents id hid x hx := by
    rw [op_modifyOp] at hx
    split at hx
    · rw [hparent] at hx
      exact h.new_parents id hid x hx
    · exact h.new_parents id hid x hx
  new_blocks := h.new_blocks

end Extends

/-! ## Closed modules -/

/-- Every number that a module mentions is the number of something that it has. -/
structure Closed (m : Module) : Prop where
  regions : ∀ (id : OpId), ∀ r ∈ (m.op id).regions, r.index < m.regions.size
  results : ∀ (id : OpId), ∀ v ∈ (m.op id).results, v.index < m.values.size
  parents : ∀ (id : OpId) (b : BlockId), (m.op id).parent = some b → b.index < m.blocks.size
  blocks : ∀ (r : RegionId), ∀ b ∈ (m.region r).blocks, b.index < m.blocks.size
  members : ∀ (b : BlockId), ∀ o ∈ (m.block b).ops, o.index < m.ops.size

namespace Closed

variable {m : Module}

/-- A new module is closed. -/
theorem new (location : Location) : (Module.new location).Closed where
  regions _ _ hr := nomatch hr
  results _ _ hv := nomatch hv
  parents _ _ hb := nomatch hb
  blocks r b hb := by
    rcases r with ⟨_ | r⟩
    · have hb : b ∈ [⟨0⟩] := hb
      rw [List.mem_singleton.1 hb]
      exact Nat.zero_lt_one
    · cases hb
  members b o ho := by
    rcases b with ⟨_ | b⟩ <;> cases ho

/-- Adding an operation to a block that is there.

**Proof sketch.** What the operation refers to is new and counted (`OpSpec.mem_regions_toOp`,
`OpSpec.mem_results_toOp`), or it is the block, which is there; the new regions list nothing. -/
theorem addOp (h : m.Closed) (spec : OpSpec) (location : Location) {b : BlockId}
    (hb : b.index < m.blocks.size) (index : Option Nat) :
    (m.addOp spec location b index).Closed where
  regions id r hr := by
    rw [op_addOp] at hr
    rw [size_regions_addOp]
    split at hr
    · exact ((OpSpec.mem_regions_toOp _ _).1 hr).2
    · exact Nat.lt_add_right _ (h.regions id r hr)
  results id v hv := by
    rw [op_addOp] at hv
    rw [size_values_addOp]
    split at hv
    · exact ((OpSpec.mem_results_toOp _ _).1 hv).2
    · exact Nat.lt_add_right _ (h.results id v hv)
  parents id x hx := by
    rw [op_addOp] at hx
    rw [size_blocks_addOp]
    split at hx
    · simp only [OpSpec.toOp, Option.some.injEq] at hx
      exact hx ▸ hb
    · exact h.parents id x hx
  blocks r x hx := by
    rw [size_blocks_addOp]
    rcases Nat.lt_or_ge r.index m.regions.size with hlt | hge
    · rw [region_addOp_of_lt _ _ _ _ _ hlt] at hx
      exact h.blocks r x hx
    · rw [blocks_region_addOp_of_le _ _ _ _ _ hge] at hx
      cases hx
  members x o ho := by
    rw [size_ops_addOp]
    rcases mem_ops_addOp _ _ _ _ _ ho with ho | ⟨rfl, -⟩
    · exact Nat.lt_succ_of_lt (h.members x o ho)
    · exact Nat.lt_succ_self _

/-- Adding a block.

**Proof sketch.** The only new references lead from the region to the new block; everything else
refers to what was there, and only the number of blocks and values has grown. -/
theorem appendBlock (h : m.Closed) (r : RegionId) (argTypes : List Ty) :
    (m.appendBlock r argTypes).2.Closed where
  regions id s hs := by
    rw [size_regions_appendBlock]
    exact h.regions id s hs
  results id v hv := by
    rw [size_values_appendBlock]
    exact Nat.lt_add_right _ (h.results id v hv)
  parents id x hx := by
    rw [size_blocks_appendBlock]
    exact Nat.lt_succ_of_lt (h.parents id x hx)
  blocks s x hx := by
    rw [region_appendBlock] at hx
    rw [size_blocks_appendBlock]
    split at hx
    · simp only [List.mem_append, List.mem_singleton] at hx
      rcases hx with hx | rfl
      · exact Nat.lt_succ_of_lt (h.blocks s x hx)
      · exact Nat.lt_succ_self _
    · exact Nat.lt_succ_of_lt (h.blocks s x hx)
  members x o ho := by
    rw [block_appendBlock] at ho
    split at ho
    · cases ho
    · exact h.members x o ho

end Closed

end Module

end ContractIR
