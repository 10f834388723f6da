import ContractIR.Module.Basic
import Mathlib.Tactic.Common

/-!
# Looking things up after a change

What the accessors of a module answer after each of its elementary changes.  Arenas only grow and
entries are only replaced in place, so a change is described by saying which entries differ.

## Main results

* `ContractIR.Module.op_createOp`, `value_createOp_add`, `region_createOp_add` — a new operation is
  the only new entry of its arena, with its results and regions behind everything that was there.
* `ContractIR.Module.block_appendBlock`, `region_appendBlock`, `value_appendBlock_add` — the same
  for a new block, which its region lists last.
* `ContractIR.Module.op_insertOp`, `block_insertOp`, `op_detachOp`, `block_detachOp` — putting an
  operation in place touches the operation and one block.
-/

set_option autoImplicit false

namespace ContractIR

/-- Operations are told apart by their numbers. -/
theorem OpId.index_eq_iff {i j : OpId} : i.index = j.index ↔ i = j := by
  cases i; cases j; simp

/-- Blocks are told apart by their numbers. -/
theorem BlockId.index_eq_iff {i j : BlockId} : i.index = j.index ↔ i = j := by
  cases i; cases j; simp

/-- Regions are told apart by their numbers. -/
theorem RegionId.index_eq_iff {i j : RegionId} : i.index = j.index ↔ i = j := by
  cases i; cases j; simp

/-- Values are told apart by their numbers. -/
theorem ValueId.index_eq_iff {i j : ValueId} : i.index = j.index ↔ i = j := by
  cases i; cases j; simp

namespace Module

/-! ## Entries of arenas -/

section Arena

variable {α : Type}

/-- An entry of an arena in which one entry was changed. -/
theorem getD_modify (xs : Array α) (f : α → α) (d : α) (i j : Nat) :
    (xs.modify i f).getD j d = if j = i ∧ i < xs.size then f (xs.getD j d) else xs.getD j d := by
  simp only [Array.getD_eq_getD_getElem?, Array.getElem?_modify]
  by_cases hij : i = j
  · subst hij
    by_cases hi : i < xs.size
    · simp [hi]
    · simp [hi]
  · have hji : j ≠ i := fun h => hij h.symm
    simp [hij, hji]

/-- An entry of an arena that grew by one. -/
theorem getD_push (xs : Array α) (x d : α) (j : Nat) :
    (xs.push x).getD j d = if j = xs.size then x else xs.getD j d := by
  simp only [Array.getD_eq_getD_getElem?, Array.getElem?_push]
  split <;> rfl

/-- An old entry of an arena that grew. -/
theorem getD_append_of_lt (xs ys : Array α) (d : α) {j : Nat} (h : j < xs.size) :
    (xs ++ ys).getD j d = xs.getD j d := by
  simp only [Array.getD_eq_getD_getElem?, Array.getElem?_append_left h]

/-- A new entry of an arena that grew. -/
theorem getD_append_add (xs : Array α) (ys : List α) (d : α) (i : Nat) :
    (xs ++ ys.toArray).getD (xs.size + i) d = ys.getD i d := by
  simp only [Array.getD_eq_getD_getElem?, Array.getElem?_append_right (Nat.le_add_right _ _),
    Nat.add_sub_cancel_left, List.getElem?_toArray, List.getD_eq_getElem?_getD]

end Arena

/-- An operation that is not the default one has a number in the arena. -/
theorem index_lt_of_op_ne {m : Module} {id : OpId} (h : m.op id ≠ default) :
    id.index < m.ops.size := by
  refine Nat.lt_of_not_le fun hle => h ?_
  simp [op, Array.getD_eq_getD_getElem?, Array.getElem?_eq_none hle]

/-- A region that is not the default one has a number in the arena. -/
theorem index_lt_of_region_ne {m : Module} {r : RegionId} (h : m.region r ≠ default) :
    r.index < m.regions.size := by
  refine Nat.lt_of_not_le fun hle => h ?_
  simp [region, Array.getD_eq_getD_getElem?, Array.getElem?_eq_none hle]

/-! ## Changing single things -/

section Update

variable (m : Module)

/-- An operation after one operation was changed. -/
theorem op_modifyOp (i j : OpId) (f : Op → Op) :
    (m.modifyOp i f).op j =
      if j = i ∧ i.index < m.ops.size then f (m.op j) else m.op j := by
  simp only [op, modifyOp, getD_modify, OpId.index_eq_iff]

/-- Any other operation is as it was. -/
theorem op_modifyOp_of_ne {i j : OpId} (f : Op → Op) (h : j ≠ i) :
    (m.modifyOp i f).op j = m.op j := by
  simp [op_modifyOp, h]

/-- The operation itself is changed. -/
theorem op_modifyOp_self {i : OpId} (f : Op → Op) (h : i.index < m.ops.size) :
    (m.modifyOp i f).op i = f (m.op i) := by
  simp [op_modifyOp, h]

/-- A block after one block was changed. -/
theorem block_modifyBlock (i j : BlockId) (f : Block → Block) :
    (m.modifyBlock i f).block j =
      if j = i ∧ i.index < m.blocks.size then f (m.block j) else m.block j := by
  simp only [block, modifyBlock, getD_modify, BlockId.index_eq_iff]

/-- A region after one region was changed. -/
theorem region_modifyRegion (i j : RegionId) (f : Region → Region) :
    (m.modifyRegion i f).region j =
      if j = i ∧ i.index < m.regions.size then f (m.region j) else m.region j := by
  simp only [region, modifyRegion, getD_modify, RegionId.index_eq_iff]

/-- A value after one value got another type. -/
theorem value_setType (i j : ValueId) (ty : Ty) :
    (m.setType i ty).value j =
      if j = i ∧ i.index < m.values.size then { m.value j with ty := ty } else m.value j := by
  simp only [value, setType, getD_modify, ValueId.index_eq_iff]

variable (i : OpId) (f : Op → Op) (b : BlockId) (g : Block → Block) (r : RegionId)
  (h : Region → Region) (v : ValueId) (ty : Ty)

/-- Changing an operation keeps the blocks. -/
@[simp] theorem block_modifyOp (x : BlockId) : (m.modifyOp i f).block x = m.block x := rfl

/-- Changing an operation keeps the regions. -/
@[simp] theorem region_modifyOp (x : RegionId) : (m.modifyOp i f).region x = m.region x := rfl

/-- Changing an operation keeps the values. -/
@[simp] theorem value_modifyOp (x : ValueId) : (m.modifyOp i f).value x = m.value x := rfl

/-- Changing a block keeps the operations. -/
@[simp] theorem op_modifyBlock (x : OpId) : (m.modifyBlock b g).op x = m.op x := rfl

/-- Changing a block keeps the regions. -/
@[simp] theorem region_modifyBlock (x : RegionId) :
    (m.modifyBlock b g).region x = m.region x := rfl

/-- Changing a block keeps the values. -/
@[simp] theorem value_modifyBlock (x : ValueId) : (m.modifyBlock b g).value x = m.value x := rfl

/-- Changing a region keeps the operations. -/
@[simp] theorem op_modifyRegion (x : OpId) : (m.modifyRegion r h).op x = m.op x := rfl

/-- Changing a region keeps the blocks. -/
@[simp] theorem block_modifyRegion (x : BlockId) : (m.modifyRegion r h).block x = m.block x := rfl

/-- Changing a region keeps the values. -/
@[simp] theorem value_modifyRegion (x : ValueId) : (m.modifyRegion r h).value x = m.value x := rfl

/-- Giving a value a type keeps the operations. -/
@[simp] theorem op_setType (x : OpId) : (m.setType v ty).op x = m.op x := rfl

/-- Giving a value a type keeps the blocks. -/
@[simp] theorem block_setType (x : BlockId) : (m.setType v ty).block x = m.block x := rfl

/-- Giving a value a type keeps the regions. -/
@[simp] theorem region_setType (x : RegionId) : (m.setType v ty).region x = m.region x := rfl

/-- Changing an operation keeps the number of operations. -/
@[simp] theorem size_ops_modifyOp : (m.modifyOp i f).ops.size = m.ops.size := by
  simp [modifyOp]

/-- Changing an operation keeps the number of blocks. -/
@[simp] theorem size_blocks_modifyOp : (m.modifyOp i f).blocks.size = m.blocks.size := rfl

/-- Changing an operation keeps the number of regions. -/
@[simp] theorem size_regions_modifyOp : (m.modifyOp i f).regions.size = m.regions.size := rfl

/-- Changing an operation keeps the number of values. -/
@[simp] theorem size_values_modifyOp : (m.modifyOp i f).values.size = m.values.size := rfl

/-- Changing a block keeps the number of operations. -/
@[simp] theorem size_ops_modifyBlock : (m.modifyBlock b g).ops.size = m.ops.size := rfl

/-- Changing a block keeps the number of blocks. -/
@[simp] theorem size_blocks_modifyBlock : (m.modifyBlock b g).blocks.size = m.blocks.size := by
  simp [modifyBlock]

/-- Changing a block keeps the number of regions. -/
@[simp] theorem size_regions_modifyBlock : (m.modifyBlock b g).regions.size = m.regions.size := rfl

/-- Changing a block keeps the number of values. -/
@[simp] theorem size_values_modifyBlock : (m.modifyBlock b g).values.size = m.values.size := rfl

/-- Changing a region keeps the number of operations. -/
@[simp] theorem size_ops_modifyRegion : (m.modifyRegion r h).ops.size = m.ops.size := rfl

/-- Changing a region keeps the number of blocks. -/
@[simp] theorem size_blocks_modifyRegion : (m.modifyRegion r h).blocks.size = m.blocks.size := rfl

/-- Changing a region keeps the number of regions. -/
@[simp] theorem size_regions_modifyRegion : (m.modifyRegion r h).regions.size = m.regions.size := by
  simp [modifyRegion]

/-- Changing a region keeps the number of values. -/
@[simp] theorem size_values_modifyRegion : (m.modifyRegion r h).values.size = m.values.size := rfl

/-- Giving a value a type keeps the number of values. -/
@[simp] theorem size_values_setType : (m.setType v ty).values.size = m.values.size := by
  simp [setType]

end Update

/-! ## New operations -/

section CreateOp

variable (m : Module) (spec : OpSpec) (location : Location)

/-- The operation that a specification describes, with results and regions from given numbers on. -/
def OpSpec.toOp (spec : OpSpec) (location : Location) (value region : Nat)
    (parent : Option BlockId) : Op where
  kind := spec.kind
  operands := spec.operands
  results := (List.range spec.results.length).map fun i => ⟨value + i⟩
  regions := (List.range spec.regions).map fun i => ⟨region + i⟩
  successors := []
  attrs := spec.attrs
  location := location
  parent := parent

/-- The regions of an operation are numbered from the given one on. -/
theorem OpSpec.mem_regions_toOp {value region : Nat} {parent : Option BlockId} {r : RegionId} :
    r ∈ (spec.toOp location value region parent).regions ↔
      region ≤ r.index ∧ r.index < region + spec.regions := by
  simp only [toOp, List.mem_map, List.mem_range]
  constructor
  · rintro ⟨i, hi, rfl⟩
    exact ⟨Nat.le_add_right _ _, Nat.add_lt_add_left hi _⟩
  · rintro ⟨hle, hlt⟩
    exact ⟨r.index - region, by omega, RegionId.index_eq_iff.1 (Nat.add_sub_cancel' hle)⟩

/-- The results of an operation are numbered from the given one on. -/
theorem OpSpec.mem_results_toOp {value region : Nat} {parent : Option BlockId} {v : ValueId} :
    v ∈ (spec.toOp location value region parent).results ↔
      value ≤ v.index ∧ v.index < value + spec.results.length := by
  simp only [toOp, List.mem_map, List.mem_range]
  constructor
  · rintro ⟨i, hi, rfl⟩
    exact ⟨Nat.le_add_right _ _, Nat.add_lt_add_left hi _⟩
  · rintro ⟨hle, hlt⟩
    exact ⟨v.index - value, by omega, ValueId.index_eq_iff.1 (Nat.add_sub_cancel' hle)⟩

/-- The number of a new operation is the next one. -/
@[simp] theorem createOp_fst : (m.createOp spec location).1 = ⟨m.ops.size⟩ := rfl

/-- A new operation is the only new entry of the arena. -/
theorem op_createOp (id : OpId) :
    (m.createOp spec location).2.op id =
      if id = ⟨m.ops.size⟩ then spec.toOp location m.values.size m.regions.size none
      else m.op id := by
  simp only [op, createOp, getD_push, ← OpId.index_eq_iff]
  rfl

/-- Creating an operation keeps the blocks: it stands in none yet. -/
@[simp] theorem block_createOp (b : BlockId) :
    (m.createOp spec location).2.block b = m.block b := rfl

/-- Old regions are as they were. -/
theorem region_createOp_of_lt {r : RegionId} (h : r.index < m.regions.size) :
    (m.createOp spec location).2.region r = m.region r := by
  simp only [region, createOp]
  exact getD_append_of_lt _ _ _ h

/-- The regions of a new operation are empty and know their owner. -/
theorem region_createOp_add {i : Nat} (h : i < spec.regions) :
    (m.createOp spec location).2.region ⟨m.regions.size + i⟩ = ⟨[], some ⟨m.ops.size⟩⟩ := by
  simp only [region, createOp]
  rw [getD_append_add]
  simp [List.getD_eq_getElem?_getD, h]

/-- Old values are as they were. -/
theorem value_createOp_of_lt {v : ValueId} (h : v.index < m.values.size) :
    (m.createOp spec location).2.value v = m.value v := by
  simp only [value, createOp]
  exact getD_append_of_lt _ _ _ h

/-- The results of a new operation have the types asked for and know where they come from. -/
theorem value_createOp_add {i : Nat} {ty : Ty} (h : spec.results[i]? = some ty) :
    (m.createOp spec location).2.value ⟨m.values.size + i⟩ = ⟨ty, .result ⟨m.ops.size⟩ i⟩ := by
  simp only [value, createOp]
  rw [getD_append_add]
  simp [List.getD_eq_getElem?_getD, h]

/-- One operation is created. -/
@[simp] theorem size_ops_createOp : (m.createOp spec location).2.ops.size = m.ops.size + 1 := by
  simp [createOp]

/-- Creating an operation creates no block. -/
@[simp] theorem size_blocks_createOp : (m.createOp spec location).2.blocks.size = m.blocks.size :=
  rfl

/-- The regions of the operation are created with it. -/
@[simp] theorem size_regions_createOp :
    (m.createOp spec location).2.regions.size = m.regions.size + spec.regions := by
  simp [createOp]

/-- The results of the operation are created with it. -/
@[simp] theorem size_values_createOp :
    (m.createOp spec location).2.values.size = m.values.size + spec.results.length := by
  simp [createOp]

end CreateOp

/-! ## New blocks -/

section AppendBlock

variable (m : Module) (region' : RegionId) (argTypes : List Ty)

/-- The number of a new block is the next one. -/
@[simp] theorem appendBlock_fst : (m.appendBlock region' argTypes).1 = ⟨m.blocks.size⟩ := rfl

/-- Appending a block keeps the operations. -/
@[simp] theorem op_appendBlock (id : OpId) : (m.appendBlock region' argTypes).2.op id = m.op id :=
  rfl

/-- A new block is the only new entry of the arena. -/
theorem block_appendBlock (b : BlockId) :
    (m.appendBlock region' argTypes).2.block b =
      if b = ⟨m.blocks.size⟩ then
        ⟨(List.range argTypes.length).map fun i => ⟨m.values.size + i⟩, [], region'⟩
      else m.block b := by
  simp only [block, appendBlock, modifyRegion, getD_push, ← BlockId.index_eq_iff]

/-- Only the region that gets the block is changed: it lists the block last. -/
theorem region_appendBlock (r : RegionId) :
    (m.appendBlock region' argTypes).2.region r =
      if r = region' ∧ region'.index < m.regions.size then
        { m.region r with blocks := (m.region r).blocks ++ [⟨m.blocks.size⟩] }
      else m.region r := by
  simp only [appendBlock, region_modifyRegion]
  rfl

/-- Old values are as they were. -/
theorem value_appendBlock_of_lt {v : ValueId} (h : v.index < m.values.size) :
    (m.appendBlock region' argTypes).2.value v = m.value v := by
  simp only [value, appendBlock, modifyRegion]
  exact getD_append_of_lt _ _ _ h

/-- The arguments of a new block have the types asked for and know where they come from. -/
theorem value_appendBlock_add {i : Nat} {ty : Ty} (h : argTypes[i]? = some ty) :
    (m.appendBlock region' argTypes).2.value ⟨m.values.size + i⟩ =
      ⟨ty, .arg ⟨m.blocks.size⟩ i⟩ := by
  simp only [value, appendBlock, modifyRegion]
  rw [getD_append_add]
  simp [List.getD_eq_getElem?_getD, h]

/-- Appending a block creates no operation. -/
@[simp] theorem size_ops_appendBlock : (m.appendBlock region' argTypes).2.ops.size = m.ops.size :=
  rfl

/-- One block is appended. -/
@[simp] theorem size_blocks_appendBlock :
    (m.appendBlock region' argTypes).2.blocks.size = m.blocks.size + 1 := by
  simp [appendBlock, modifyRegion]

/-- Appending a block creates no region. -/
@[simp] theorem size_regions_appendBlock :
    (m.appendBlock region' argTypes).2.regions.size = m.regions.size := by
  simp [appendBlock]

/-- The arguments of the block are created with it. -/
@[simp] theorem size_values_appendBlock :
    (m.appendBlock region' argTypes).2.values.size = m.values.size + argTypes.length := by
  simp [appendBlock, modifyRegion]

end AppendBlock

/-! ## Putting operations in place -/

section Place

variable (m : Module) (b : BlockId) (index : Option Nat) (id : OpId)

/-- Inserting an operation changes the block that it names, in that operation alone. -/
theorem op_insertOp (j : OpId) :
    (m.insertOp b index id).op j =
      if j = id ∧ id.index < m.ops.size then { m.op j with parent := some b } else m.op j := by
  rw [insertOp, op_modifyOp]
  rfl

/-- Inserting an operation changes one block. -/
theorem block_insertOp (x : BlockId) :
    (m.insertOp b index id).block x =
      if x = b ∧ b.index < m.blocks.size then
        { m.block x with ops := placeAt index id (m.block x).ops }
      else m.block x := by
  simp only [insertOp, block_modifyOp, block_modifyBlock]

/-- Putting an operation in place keeps the regions. -/
@[simp] theorem region_insertOp (r : RegionId) :
    (m.insertOp b index id).region r = m.region r := rfl

/-- Putting an operation in place keeps the values. -/
@[simp] theorem value_insertOp (v : ValueId) : (m.insertOp b index id).value v = m.value v := rfl

/-- Putting an operation in place creates no operation. -/
@[simp] theorem size_ops_insertOp : (m.insertOp b index id).ops.size = m.ops.size := by
  simp [insertOp]

/-- Putting an operation in place creates no block. -/
@[simp] theorem size_blocks_insertOp : (m.insertOp b index id).blocks.size = m.blocks.size := by
  simp [insertOp]

/-- Putting an operation in place creates no region. -/
@[simp] theorem size_regions_insertOp : (m.insertOp b index id).regions.size = m.regions.size :=
  rfl

/-- Putting an operation in place creates no value. -/
@[simp] theorem size_values_insertOp : (m.insertOp b index id).values.size = m.values.size := rfl

/-- An operation put at a place of a list is a member of it, next to those that were there. -/
@[simp] theorem mem_placeAt {ops : List OpId} {j : OpId} :
    j ∈ placeAt index id ops ↔ j = id ∨ j ∈ ops := by
  cases index with
  | none => simp [placeAt, or_comm]
  | some i =>
    have hsplit : j ∈ ops ↔ j ∈ ops.take i ∨ j ∈ ops.drop i := by
      rw [← List.mem_append, List.take_append_drop]
    simp only [placeAt, List.mem_append, List.mem_cons, hsplit]
    tauto

/-- A list stays in order when something is put into it. -/
theorem sublist_placeAt (ops : List OpId) : ops.Sublist (placeAt index id ops) := by
  cases index with
  | none => exact List.sublist_append_left _ _
  | some i =>
    conv => lhs; rw [← List.take_append_drop i ops]
    exact (List.Sublist.refl _).append (List.sublist_cons_self _ _)

/-- Detaching an operation changes the block that it names, in that operation alone. -/
theorem op_detachOp (j : OpId) :
    (m.detachOp id).op j = if j = id then { m.op j with parent := none } else m.op j := by
  unfold detachOp
  cases hp : (m.op id).parent with
  | none =>
    by_cases hj : j = id
    · subst hj
      simp only [↓reduceIte]
      rw [← hp]
    · simp [hj]
  | some b =>
    have hid : id.index < m.ops.size :=
      index_lt_of_op_ne fun h => by rw [h] at hp; cases hp
    simp [op_modifyOp, hid]

/-- Detaching an operation takes it out of its block, and leaves every other block alone. -/
theorem block_detachOp (x : BlockId) :
    (m.detachOp id).block x =
      if (m.op id).parent = some x ∧ x.index < m.blocks.size then
        { m.block x with ops := (m.block x).ops.filter fun o => decide (o ≠ id) }
      else m.block x := by
  unfold detachOp
  cases hp : (m.op id).parent with
  | none => simp
  | some b =>
    simp only [block_modifyOp, block_modifyBlock, Option.some.injEq]
    by_cases hx : x = b
    · subst hx; simp
    · have hbx : b ≠ x := fun h => hx h.symm
      simp [hx, hbx]

/-- Taking an operation out keeps the regions. -/
@[simp] theorem region_detachOp (r : RegionId) : (m.detachOp id).region r = m.region r := by
  unfold detachOp; split <;> rfl

/-- Taking an operation out keeps the values. -/
@[simp] theorem value_detachOp (v : ValueId) : (m.detachOp id).value v = m.value v := by
  unfold detachOp; split <;> rfl

/-- What is taken out of its block stays in the arena. -/
@[simp] theorem size_ops_detachOp : (m.detachOp id).ops.size = m.ops.size := by
  unfold detachOp; split <;> simp

/-- Taking an operation out keeps the number of blocks. -/
@[simp] theorem size_blocks_detachOp : (m.detachOp id).blocks.size = m.blocks.size := by
  unfold detachOp; split <;> simp

/-- Taking an operation out keeps the number of regions. -/
@[simp] theorem size_regions_detachOp : (m.detachOp id).regions.size = m.regions.size := by
  unfold detachOp; split <;> rfl

/-- Taking an operation out keeps the number of values. -/
@[simp] theorem size_values_detachOp : (m.detachOp id).values.size = m.values.size := by
  unfold detachOp; split <;> rfl

variable {m b index id}

/-- Taking an operation out of its block does not change its kind, nor that of another one. -/
theorem kind_detachOp (id j : OpId) : (m.detachOp id).kind j = m.kind j := by
  rw [kind, op_detachOp]
  split <;> rfl

/-- Taking an operation out of its block leaves any other operation as it was. -/
theorem op_detachOp_of_ne {o : OpId} (hne : o ≠ id) : (m.detachOp id).op o = m.op o := by
  rw [op_detachOp, if_neg hne]

/-- Taking an operation out leaves every block in its region. -/
@[simp] theorem parent_block_detachOp (x : BlockId) :
    ((m.detachOp id).block x).parent = (m.block x).parent := by
  rw [block_detachOp]
  split <;> rfl

/-- Taking an operation out keeps the arguments of every block. -/
@[simp] theorem args_block_detachOp (x : BlockId) :
    ((m.detachOp id).block x).args = (m.block x).args := by
  rw [block_detachOp]
  split <;> rfl

/-- Blocks stay in order when an operation is put into one. -/
theorem sublist_insertOp {ids : List OpId} {x : BlockId} (h : ids.Sublist (m.block x).ops) :
    ids.Sublist ((m.insertOp b index id).block x).ops := by
  rw [block_insertOp]
  split
  · exact h.trans (sublist_placeAt ..)
  · exact h

/-- Blocks stay in order when another operation is taken out. -/
theorem sublist_detachOp {ids : List OpId} {x : BlockId} (h : ids.Sublist (m.block x).ops)
    (hid : id ∉ ids) : ids.Sublist ((m.detachOp id).block x).ops := by
  rw [block_detachOp]
  split
  · have hkept : ids.filter (fun o => decide (o ≠ id)) = ids :=
      List.filter_eq_self.2 fun o ho => decide_eq_true fun heq => hid (heq ▸ ho)
    exact hkept ▸ h.filter _
  · exact h

/-- Taking out an operation puts nothing into a block. -/
theorem detachOp_sublist (x : BlockId) :
    ((m.detachOp id).block x).ops.Sublist (m.block x).ops := by
  rw [block_detachOp]
  split
  · exact List.filter_sublist
  · exact .refl _

end Place

end Module

end ContractIR
