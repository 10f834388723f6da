import ContractIR.Proofs.Module.Rewriting

/-!
# What modules retain

Building and moving operations leaves them what they are: only the blocks that they name differ.
This is said as a relation between two modules, which both a module that grows and a module whose
operations are moved or dropped satisfy.  Some blocks may be singled out that list what they listed.

## Main definitions

* `ContractIR.Module.SameOp` — an operation is what it was, wherever it stands.
* `ContractIR.Module.Retains` — everything of a module is in another one.

## Main results

* `ContractIR.Module.Retains.of_extends`, `of_detachOp`, `of_move` — growing, dropping and moving.
-/

set_option autoImplicit false

namespace ContractIR

namespace Module

variable {m n p : Module}

/-! ## Operations -/

/-- An operation of a module is the same in another one, wherever it stands. -/
def SameOp (m n : Module) (o : OpId) : Prop := ∃ b, n.op o = { m.op o with parent := b }

namespace SameOp

variable {o : OpId}

/-- What did not change at all is the same operation. -/
theorem of_eq (h : n.op o = m.op o) : m.SameOp n o := ⟨(m.op o).parent, h⟩

/-- Being the same operation is transitive. -/
theorem trans (h : m.SameOp n o) (k : n.SameOp p o) : m.SameOp p o := by
  obtain ⟨b, hb⟩ := h
  obtain ⟨c, hc⟩ := k
  exact ⟨c, by rw [hc, hb]⟩

/-- The same operation has the same kind. -/
theorem kind_eq (h : m.SameOp n o) : n.kind o = m.kind o := by
  obtain ⟨b, hb⟩ := h
  rw [kind, hb]
  rfl

/-- The same operation owns the same regions. -/
theorem regions_eq (h : m.SameOp n o) : (n.op o).regions = (m.op o).regions := by
  obtain ⟨b, hb⟩ := h
  rw [hb]

/-- The same operation has the same attributes. -/
theorem attr?_eq (h : m.SameOp n o) (name : String) : n.attr? o name = m.attr? o name := by
  obtain ⟨b, hb⟩ := h
  rw [attr?, hb]
  rfl

/-- The same operation declares the same name. -/
theorem symName?_eq (h : m.SameOp n o) : n.symName? o = m.symName? o := by
  rw [symName?, h.attr?_eq]
  rfl

end SameOp

/-! ## Modules -/

/-- Everything of `m` is in `n`: operations may stand elsewhere, and blocks may list others, but for
the blocks of `X`. -/
structure Retains (X : BlockId → Prop) (m n : Module) : Prop where
  ops : ∀ o : OpId, o.index < m.ops.size → m.SameOp n o
  args : ∀ b : BlockId, b.index < m.blocks.size → (n.block b).args = (m.block b).args
  parent : ∀ b : BlockId, b.index < m.blocks.size → (n.block b).parent = (m.block b).parent
  listed : ∀ b : BlockId, b.index < m.blocks.size → X b → (n.block b).ops = (m.block b).ops
  regions : ∀ r : RegionId, r.index < m.regions.size → n.region r = m.region r
  values : ∀ v : ValueId, v.index < m.values.size → n.value v = m.value v
  size_ops : m.ops.size ≤ n.ops.size
  size_blocks : m.blocks.size ≤ n.blocks.size
  size_regions : m.regions.size ≤ n.regions.size
  size_values : m.values.size ≤ n.values.size

namespace Retains

variable {X Y : BlockId → Prop}

/-- Nothing changed. -/
theorem refl (X : BlockId → Prop) (m : Module) : Retains X m m where
  ops _ _ := .of_eq rfl
  args _ _ := rfl
  parent _ _ := rfl
  listed _ _ _ := rfl
  regions _ _ := rfl
  values _ _ := rfl
  size_ops := Nat.le_refl _
  size_blocks := Nat.le_refl _
  size_regions := Nat.le_refl _
  size_values := Nat.le_refl _

/-- One change after another, if the blocks that are singled out before are so afterwards. -/
theorem trans_of (h : Retains X m n) (k : Retains Y n p)
    (hXY : ∀ b : BlockId, b.index < m.blocks.size → X b → Y b) : Retains X m p where
  ops o ho := (h.ops o ho).trans (k.ops o (Nat.lt_of_lt_of_le ho h.size_ops))
  args b hb := (k.args b (Nat.lt_of_lt_of_le hb h.size_blocks)).trans (h.args b hb)
  parent b hb := (k.parent b (Nat.lt_of_lt_of_le hb h.size_blocks)).trans (h.parent b hb)
  listed b hb hX :=
    (k.listed b (Nat.lt_of_lt_of_le hb h.size_blocks) (hXY b hb hX)).trans (h.listed b hb hX)
  regions r hr := (k.regions r (Nat.lt_of_lt_of_le hr h.size_regions)).trans (h.regions r hr)
  values v hv := (k.values v (Nat.lt_of_lt_of_le hv h.size_values)).trans (h.values v hv)
  size_ops := Nat.le_trans h.size_ops k.size_ops
  size_blocks := Nat.le_trans h.size_blocks k.size_blocks
  size_regions := Nat.le_trans h.size_regions k.size_regions
  size_values := Nat.le_trans h.size_values k.size_values

/-- One change after another. -/
theorem trans (h : Retains X m n) (k : Retains X n p) : Retains X m p :=
  h.trans_of k fun _ _ hX => hX

/-- Fewer blocks need to list what they listed. -/
theorem weaken (h : Retains X m n) (hYX : ∀ b, Y b → X b) : Retains Y m n :=
  { h with listed := fun b hb hY => h.listed b hb (hYX b hY) }

/-- A module that grew. -/
theorem of_extends {B : BlockId → Prop} (h : Extends B m n) (hX : ∀ b, X b → ¬B b) :
    Retains X m n where
  ops o ho := .of_eq (h.ops o ho)
  args b hb := (h.grown b hb).1
  parent b hb := (h.grown b hb).2.1
  listed b hb hb' := congrArg Block.ops (h.blocks b hb (hX b hb'))
  regions := h.regions
  values := h.values
  size_ops := h.size_ops
  size_blocks := h.size_blocks
  size_regions := h.size_regions
  size_values := h.size_values

/-- An operation is taken out of its block.

**Proof sketch.** Only the place of the operation and the list of its block change, and that
block is none of those whose lists are kept. -/
theorem of_detachOp {id : OpId} (hid : ∀ b, (m.op id).parent = some b → ¬X b) :
    Retains X m (m.detachOp id) where
  ops o _ := by
    rw [SameOp, op_detachOp]
    split
    · exact ⟨none, rfl⟩
    · exact ⟨_, rfl⟩
  args b _ := by
    rw [block_detachOp]
    split <;> rfl
  parent b _ := by
    rw [block_detachOp]
    split <;> rfl
  listed b _ hb := by
    rw [block_detachOp, if_neg fun h => hid b h.1 hb]
  regions r _ := region_detachOp m id r
  values v _ := value_detachOp m id v
  size_ops := (size_ops_detachOp m id).ge
  size_blocks := (size_blocks_detachOp m id).ge
  size_regions := (size_regions_detachOp m id).ge
  size_values := (size_values_detachOp m id).ge

/-- An operation is put into a block.

**Proof sketch.** Only the place of the operation and the list of block `x` change, and `x` is
none of those whose lists are kept. -/
theorem of_insertOp {x : BlockId} (hx : ¬X x) (index : Option Nat) (id : OpId) :
    Retains X m (m.insertOp x index id) where
  ops o _ := by
    rw [SameOp, op_insertOp]
    split
    · exact ⟨some x, rfl⟩
    · exact ⟨_, rfl⟩
  args b _ := by
    rw [block_insertOp]
    split <;> rfl
  parent b _ := by
    rw [block_insertOp]
    split <;> rfl
  listed b _ hb := by
    rw [block_insertOp, if_neg]
    rintro ⟨rfl, -⟩
    exact hx hb
  regions _ _ := rfl
  values _ _ := rfl
  size_ops := (size_ops_insertOp m x index id).ge
  size_blocks := (size_blocks_insertOp m x index id).ge
  size_regions := Nat.le_refl _
  size_values := Nat.le_refl _

/-- An operation is moved. -/
theorem of_move {id : OpId} {x : BlockId} (hid : ∀ b, (m.op id).parent = some b → ¬X b)
    (hx : ¬X x) (index : Option Nat) : Retains X m ((m.detachOp id).insertOp x index id) :=
  (of_detachOp hid).trans (of_insertOp hx index id)

/-- The operations of a block that lists what it listed, and the types of what they give. -/
theorem same_ops (h : Retains X m n) (hm : m.Linked) {x : BlockId} :
    ∀ o ∈ (m.block x).ops, m.SameOp n o ∧ ∀ v ∈ (m.op o).results, n.typeOf v = m.typeOf v := by
  intro o ho
  refine ⟨h.ops o (hm.ops_lt ho), fun v hv => ?_⟩
  rw [typeOf, h.values v (hm.results_lt o v hv)]
  rfl

/-- The body exists, and is what it was. -/
theorem region_body (h : Retains X m n) (hm : m.Linked) : n.region body = m.region body :=
  h.regions body hm.body_lt

/-- A body has blocks if it had some. -/
theorem hasBody_eq (h : Retains X m n) (hm : m.Linked) : n.hasBody = m.hasBody := by
  rw [hasBody, h.region_body hm]
  rfl

/-- The first block of the body is what it was. -/
theorem bodyBlock_eq (h : Retains X m n) (hm : m.Linked) : n.bodyBlock = m.bodyBlock := by
  rw [bodyBlock, h.region_body hm]
  rfl

/-- An operation is entered at the block at which it was entered. -/
theorem entryBlock?_eq (h : Retains X m n) (hm : m.Linked) {o : OpId}
    (ho : o.index < m.ops.size) : n.entryBlock? o = m.entryBlock? o :=
  entryBlock?_congr (h.ops o ho).regions_eq fun r hr => h.regions r (hm.regions_lt hr)

end Retains

end Module

end ContractIR
