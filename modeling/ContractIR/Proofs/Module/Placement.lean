import ContractIR.Proofs.Module.Links

/-!
# Links when things are put in place

Changes that create nothing keep the links of a module: those that touch no link, and those that
move operations or blocks, provided that nothing is put into itself.

## Main results

* `ContractIR.Module.Linked.modifyOp`, `setType` — changes that touch no link.
* `ContractIR.Module.Linked.insertOp`, `addOp`, `detachOp` — operations.
* `ContractIR.Module.Linked.takeBlocks` — the blocks of a region.
-/

set_option autoImplicit false

namespace ContractIR

namespace Module

/-! ## Changes that create nothing -/

/-- The links of the tree agree if blocks and regions belong to what they belonged to, and
operations stand where they are listed.

**Proof sketch.** Each field is that of `h`, rewritten with what stays the same; where operations
are listed is what the two last hypotheses say. -/
theorem TreeLinked.congr {m n : Module} (h : m.TreeLinked)
    (hblocks : n.blocks.size = m.blocks.size) (hregions : n.regions.size = m.regions.size)
    (hregion : ∀ r, n.region r = m.region r)
    (hblock : ∀ b, (n.block b).parent = (m.block b).parent)
    (howned : ∀ o, (n.op o).regions = (m.op o).regions)
    (hparent : ∀ o b, (n.op o).parent = some b ↔ o ∈ (n.block b).ops)
    (hnodup : ∀ b, (n.block b).ops.Nodup) : n.TreeLinked where
  op_parent := hparent
  ops_nodup := hnodup
  block_parent b r hb := by
    rw [hblock, hregion]
    exact h.block_parent b r (hblocks ▸ hb)
  blocks_nodup r := by
    rw [hregion]
    exact h.blocks_nodup r
  blocks_lt r b hb := by
    rw [hblocks]
    exact h.blocks_lt r b (hregion r ▸ hb)
  region_parent r o := by
    rw [hregion, howned]
    exact h.region_parent r o
  regions_nodup o := by
    rw [howned]
    exact h.regions_nodup o
  body_lt := by
    rw [hregions]
    exact h.body_lt
  body_parent := by
    rw [hregion]
    exact h.body_parent

/-- The links of the values agree if values, results and arguments are what they were.

**Proof sketch.** Each field is that of `h`, rewritten with what stays the same. -/
theorem ValuesLinked.congr {m n : Module} (h : m.ValuesLinked)
    (hsize : n.values.size = m.values.size)
    (horigin : ∀ v, (n.value v).origin = (m.value v).origin)
    (hresults : ∀ o, (n.op o).results = (m.op o).results)
    (hargs : ∀ b, (n.block b).args = (m.block b).args)
    (hoperands : ∀ o, ∀ v ∈ (n.op o).operands, v.index < m.values.size) : n.ValuesLinked where
  result_origin v o i hv := by
    rw [horigin, hresults]
    exact h.result_origin v o i (hsize ▸ hv)
  arg_origin v b i hv := by
    rw [horigin, hargs]
    exact h.arg_origin v b i (hsize ▸ hv)
  results_lt o v hv := by
    rw [hsize]
    exact h.results_lt o v (hresults o ▸ hv)
  args_lt b v hv := by
    rw [hsize]
    exact h.args_lt b v (hargs b ▸ hv)
  operands_lt o v hv := by
    rw [hsize]
    exact hoperands o v hv

/-- **Changing what an operation does, not what it owns or where it stands, keeps the links.**

**Proof sketch.** Place, regions and results of every operation stay, so both halves of the links
are those of before (`TreeLinked.congr`, `ValuesLinked.congr`), and every step outwards was one
before. -/
theorem Linked.modifyOp {m : Module} (h : m.Linked) (id : OpId) {f : Op → Op}
    (hregions : ∀ o, (f o).regions = o.regions) (hresults : ∀ o, (f o).results = o.results)
    (hparent : ∀ o, (f o).parent = o.parent)
    (hoperands : ∀ v ∈ (f (m.op id)).operands, v.index < m.values.size) :
    (m.modifyOp id f).Linked := by
  have hop : ∀ o, ((m.modifyOp id f).op o).parent = (m.op o).parent ∧
      ((m.modifyOp id f).op o).regions = (m.op o).regions ∧
      ((m.modifyOp id f).op o).results = (m.op o).results := by
    intro o
    rw [op_modifyOp]
    split
    · exact ⟨hparent _, hregions _, hresults _⟩
    · exact ⟨rfl, rfl, rfl⟩
  have htree : (m.modifyOp id f).TreeLinked := by
    refine h.toTreeLinked.congr rfl rfl (fun _ => rfl) (fun _ => rfl) (fun o => (hop o).2.1)
      (fun o b => ?_) h.ops_nodup
    rw [(hop o).1]
    exact h.op_parent o b
  have hvalues : (m.modifyOp id f).ValuesLinked := by
    refine h.toValuesLinked.congr rfl (fun _ => rfl) (fun o => (hop o).2.2) (fun _ => rfl) ?_
    intro o v hv
    rw [op_modifyOp] at hv
    split at hv
    · rename_i ho
      exact hoperands v (ho.1 ▸ hv)
    · exact h.operands_lt o v hv
  refine ⟨htree, hvalues, wellFounded_of_imp h.acyclic fun o p hup => ?_⟩
  obtain ⟨b, hb, hp⟩ := up_iff.1 hup
  rw [(hop o).1] at hb
  exact up_iff.2 ⟨b, hb, hp⟩

/-- **Giving a value another type keeps the links.** -/
theorem Linked.setType {m : Module} (h : m.Linked) (id : ValueId) (ty : Ty) :
    (m.setType id ty).Linked where
  toTreeLinked := { h.toTreeLinked with }
  toValuesLinked := by
    refine h.toValuesLinked.congr (size_values_setType ..) (fun v => ?_) (fun _ => rfl)
      (fun _ => rfl) h.operands_lt
    rw [value_setType]
    split <;> rfl
  acyclic := h.acyclic

/-! ## Putting operations in place -/

/-- A list without repetition stays one if a new member is put in. -/
theorem nodup_placeAt {ops : List OpId} (hops : ops.Nodup) {id : OpId} (hid : id ∉ ops)
    (index : Option Nat) : (placeAt index id ops).Nodup := by
  cases index with
  | none =>
    rw [placeAt, List.nodup_append]
    refine ⟨hops, List.nodup_singleton id, ?_⟩
    rintro o ho p hp rfl
    exact hid (List.mem_singleton.1 hp ▸ ho)
  | some i =>
    rw [placeAt, List.nodup_middle, List.take_append_drop, List.nodup_cons]
    exact ⟨hid, hops⟩

/-- Putting an operation at the place between two parts of a list. -/
theorem placeAt_append {before behind : List OpId} (id : OpId) {index : Option Nat}
    (h : index = some before.length ∨ index = none ∧ behind = []) :
    placeAt index id (before ++ behind) = before ++ id :: behind := by
  rcases h with rfl | ⟨rfl, rfl⟩
  · simp [placeAt]
  · simp [placeAt]

/-- Putting an operation that stands in no block into a block keeps the links of the tree.

**Proof sketch.** By `TreeLinked.congr`: only the list of the block and the place of the
operation change, and they change together.  The operation was in no list, so it occurs once. -/
theorem TreeLinked.insertOp {m : Module} (h : m.TreeLinked) {b : BlockId}
    (hb : b.index < m.blocks.size) (index : Option Nat) {id : OpId} (hid : id.index < m.ops.size)
    (hdetached : (m.op id).parent = none) : (m.insertOp b index id).TreeLinked := by
  have hnot : ∀ x, id ∉ (m.block x).ops := by
    intro x hx
    rw [← h.op_parent, hdetached] at hx
    cases hx
  refine h.congr (size_blocks_insertOp ..) rfl (fun _ => rfl) (fun x => ?_) (fun o => ?_)
    (fun o x => ?_) fun x => ?_
  · rw [block_insertOp]
    split <;> rfl
  · rw [op_insertOp]
    split <;> rfl
  · rw [op_insertOp, block_insertOp]
    by_cases ho : o = id
    · subst ho
      by_cases hx : x = b
      · simp [hx, hid, hb]
      · simp [hx, Ne.symm hx, hid, hnot x]
    · by_cases hx : x = b
      · simp [ho, hx, hb, h.op_parent]
      · simp [ho, hx, h.op_parent]
  · rw [block_insertOp]
    split
    · exact nodup_placeAt (h.ops_nodup x) (hnot x) index
    · exact h.ops_nodup x

/-- **Putting an operation that stands in no block into a block keeps the links**, unless the block
is inside the operation.

**Proof sketch.** The tree by `TreeLinked.insertOp`, the values as they were.  The only new step
outwards leads from the operation to the owner of the block's region, which is not inside the
operation (`acyclic_of_redirect`). -/
theorem Linked.insertOp {m : Module} (h : m.Linked) {b : BlockId} (hb : b.index < m.blocks.size)
    (index : Option Nat) {id : OpId} (hid : id.index < m.ops.size)
    (hdetached : (m.op id).parent = none) (hinside : ¬m.RegionInside (m.block b).parent id) :
    (m.insertOp b index id).Linked := by
  have hblock : ∀ x, ((m.insertOp b index id).block x).args = (m.block x).args ∧
      ((m.insertOp b index id).block x).parent = (m.block x).parent := by
    intro x
    rw [block_insertOp]
    split <;> exact ⟨rfl, rfl⟩
  have hop : ∀ o, ((m.insertOp b index id).op o).regions = (m.op o).regions ∧
      ((m.insertOp b index id).op o).results = (m.op o).results ∧
      ((m.insertOp b index id).op o).operands = (m.op o).operands := by
    intro o
    rw [op_insertOp]
    split <;> exact ⟨rfl, rfl, rfl⟩
  have hvalues : (m.insertOp b index id).ValuesLinked := by
    refine h.toValuesLinked.congr rfl (fun _ => rfl) (fun o => (hop o).2.1)
      (fun x => (hblock x).1) fun o v hv => ?_
    rw [(hop o).2.2] at hv
    exact h.operands_lt o v hv
  refine ⟨h.toTreeLinked.insertOp hb index hid hdetached, hvalues, ?_⟩
  -- the only new step outwards leads from the operation to the owner of the block's region
  have hstep : ∀ o p, (m.insertOp b index id).Up o p →
      m.Up o p ∨ (m.region (m.block b).parent).parent = some p ∧ o = id := by
    intro o p hup
    obtain ⟨x, hx, hp⟩ := up_iff.1 hup
    rw [(hblock x).2, region_insertOp] at hp
    rw [op_insertOp] at hx
    split at hx
    · rename_i ho
      obtain rfl := Option.some.inj hx
      exact .inr ⟨hp, ho.1⟩
    · exact .inl (up_iff.2 ⟨x, hx, hp⟩)
  refine acyclic_of_redirect h.acyclic hstep ?_
  rintro o rfl
  exact hinside

/-- No block of the module is inside an operation that was just created. -/
theorem Linked.not_regionInside_createOp {m : Module} (h : m.Linked) (spec : OpSpec)
    (location : Location) {b : BlockId} (hb : b.index < m.blocks.size) :
    ¬(m.createOp spec location).2.RegionInside (m.block b).parent ⟨m.ops.size⟩ := by
  have howner : ∀ {x : BlockId}, x.index < m.blocks.size →
      ((m.createOp spec location).2.region (m.block x).parent).parent ≠ some ⟨m.ops.size⟩ := by
    intro x hx hp
    rw [region_createOp_of_lt _ _ _ (h.parent_lt hx)] at hp
    exact Nat.lt_irrefl _ (h.owner_lt hp)
  rintro ⟨o, ho, hin⟩
  rcases Relation.ReflTransGen.cases_tail hin with hnew | ⟨x, _, hup⟩
  · exact howner hb (hnew ▸ ho)
  · obtain ⟨c, hc, hp⟩ := up_iff.1 hup
    rw [parent_createOp] at hc
    exact howner (h.block_lt hc) hp

/-- **Adding an operation to a block keeps the links.** -/
theorem Linked.addOp {m : Module} (h : m.Linked) (spec : OpSpec) (location : Location)
    (hoperands : ∀ v ∈ spec.operands, v.index < m.values.size) {b : BlockId}
    (hb : b.index < m.blocks.size) (index : Option Nat) :
    (m.addOp spec location b index).Linked := by
  refine (h.createOp spec location hoperands).insertOp hb index ?_ ?_
    (h.not_regionInside_createOp spec location hb)
  · rw [size_ops_createOp]
    exact Nat.lt_succ_self _
  · rw [parent_createOp, op_size]
    rfl

/-- Every block lists what it listed, without the operation that was taken out. -/
theorem Linked.ops_detachOp {m : Module} (h : m.Linked) (id : OpId) (b : BlockId) :
    ((m.detachOp id).block b).ops = (m.block b).ops.filter fun o => decide (o ≠ id) := by
  rw [block_detachOp]
  split
  · rfl
  · rename_i hnot
    refine (List.filter_eq_self.2 fun o ho => decide_eq_true ?_).symm
    rintro rfl
    exact hnot ⟨(h.op_parent o b).2 ho, block_lt_of_mem_ops ho⟩

/-- **Taking an operation out of its block keeps the links.**

**Proof sketch.** By `TreeLinked.congr` and `ValuesLinked.congr`: the operation leaves the list
of its block and gives up its place.  The steps outwards that are left were there before. -/
theorem Linked.detachOp {m : Module} (h : m.Linked) (id : OpId) : (m.detachOp id).Linked := by
  have hblock : ∀ x, ((m.detachOp id).block x).args = (m.block x).args ∧
      ((m.detachOp id).block x).parent = (m.block x).parent := fun x =>
    ⟨args_block_detachOp x, parent_block_detachOp x⟩
  have hop : ∀ o, ((m.detachOp id).op o).regions = (m.op o).regions ∧
      ((m.detachOp id).op o).results = (m.op o).results ∧
      ((m.detachOp id).op o).operands = (m.op o).operands := by
    intro o
    rw [op_detachOp]
    split <;> exact ⟨rfl, rfl, rfl⟩
  have htree : (m.detachOp id).TreeLinked := by
    refine h.toTreeLinked.congr (size_blocks_detachOp ..) (size_regions_detachOp ..)
      (region_detachOp m id) (fun x => (hblock x).2) (fun o => (hop o).1) (fun o x => ?_)
      fun x => ?_
    · rw [h.ops_detachOp, List.mem_filter, decide_eq_true_eq, op_detachOp, ← h.op_parent]
      split <;> simp_all
    · rw [h.ops_detachOp]
      exact (h.ops_nodup x).filter _
  have hvalues : (m.detachOp id).ValuesLinked := by
    refine h.toValuesLinked.congr (size_values_detachOp ..) (fun v => ?_) (fun o => (hop o).2.1)
      (fun x => (hblock x).1) fun o v hv => ?_
    · rw [value_detachOp]
    · rw [(hop o).2.2] at hv
      exact h.operands_lt o v hv
  refine ⟨htree, hvalues, wellFounded_of_imp h.acyclic fun o p hup => ?_⟩
  obtain ⟨x, hx, hp⟩ := up_iff.1 hup
  rw [op_detachOp] at hx
  rw [(hblock x).2, region_detachOp] at hp
  split at hx
  · cases hx
  · exact up_iff.2 ⟨x, hx, hp⟩

/-! ## Moving blocks -/

/-- Lets some blocks name another region. -/
def reparent (target : RegionId) (m : Module) (moved : List BlockId) : Module :=
  moved.foldl (fun n b => n.modifyBlock b fun x => { x with parent := target }) m

section Reparent

variable (target : RegionId) (m : Module) (moved : List BlockId)

/-- Exactly the blocks of the list name the other region. -/
theorem block_reparent (x : BlockId) :
    (reparent target m moved).block x =
      if x ∈ moved ∧ x.index < m.blocks.size then { m.block x with parent := target }
      else m.block x := by
  induction moved generalizing m with
  | nil => simp [reparent]
  | cons b moved ih =>
    rw [reparent, List.foldl_cons, ← reparent, ih, size_blocks_modifyBlock, block_modifyBlock]
    by_cases hx : x = b
    · subst hx
      by_cases hmem : x ∈ moved <;> by_cases hlt : x.index < m.blocks.size <;> simp [hmem, hlt]
    · simp [hx]

/-- Nothing but blocks is changed. -/
theorem reparent_same :
    (reparent target m moved).ops = m.ops ∧ (reparent target m moved).regions = m.regions ∧
      (reparent target m moved).values = m.values ∧
      (reparent target m moved).blocks.size = m.blocks.size := by
  induction moved generalizing m with
  | nil => exact ⟨rfl, rfl, rfl, rfl⟩
  | cons b moved ih =>
    obtain ⟨hops, hregions, hvalues, hblocks⟩ :=
      ih (m.modifyBlock b fun x => { x with parent := target })
    exact ⟨hops, hregions, hvalues, hblocks.trans (size_blocks_modifyBlock ..)⟩

/-- Operations are not changed. -/
@[simp] theorem op_reparent (o : OpId) : (reparent target m moved).op o = m.op o := by
  rw [op, (reparent_same target m moved).1]
  rfl

/-- Regions are not changed. -/
@[simp] theorem region_reparent (r : RegionId) :
    (reparent target m moved).region r = m.region r := by
  rw [region, (reparent_same target m moved).2.1]
  rfl

/-- Values are not changed. -/
@[simp] theorem value_reparent (v : ValueId) : (reparent target m moved).value v = m.value v := by
  rw [value, (reparent_same target m moved).2.2.1]
  rfl

/-- There are as many blocks as before. -/
@[simp] theorem size_blocks_reparent : (reparent target m moved).blocks.size = m.blocks.size :=
  (reparent_same target m moved).2.2.2

/-- There are as many regions as before. -/
@[simp] theorem size_regions_reparent :
    (reparent target m moved).regions.size = m.regions.size := by
  rw [(reparent_same target m moved).2.1]

/-- There are as many values as before. -/
@[simp] theorem size_values_reparent : (reparent target m moved).values.size = m.values.size := by
  rw [(reparent_same target m moved).2.2.1]

end Reparent

section TakeBlocks

variable (m : Module) (source target : RegionId)

/-- Moving blocks, step by step. -/
theorem takeBlocks_eq :
    m.takeBlocks source target =
      (reparent target (m.modifyRegion source fun r => { r with blocks := [] })
        (m.region source).blocks).modifyRegion target
        fun r => { r with blocks := r.blocks ++ (m.region source).blocks } := rfl

/-- Moving blocks keeps the operations. -/
@[simp] theorem op_takeBlocks (o : OpId) : (m.takeBlocks source target).op o = m.op o := by
  simp [takeBlocks_eq]

/-- Moving blocks keeps the values. -/
@[simp] theorem value_takeBlocks (v : ValueId) :
    (m.takeBlocks source target).value v = m.value v := by
  simp [takeBlocks_eq]

/-- Moving blocks keeps their number. -/
@[simp] theorem size_blocks_takeBlocks :
    (m.takeBlocks source target).blocks.size = m.blocks.size := by
  simp [takeBlocks_eq]

/-- Moving blocks keeps the number of regions. -/
@[simp] theorem size_regions_takeBlocks :
    (m.takeBlocks source target).regions.size = m.regions.size := by
  simp [takeBlocks_eq]

/-- Moving blocks keeps the number of values. -/
@[simp] theorem size_values_takeBlocks :
    (m.takeBlocks source target).values.size = m.values.size := by
  simp [takeBlocks_eq]

/-- The blocks that were moved name the other region. -/
theorem block_takeBlocks (x : BlockId) :
    (m.takeBlocks source target).block x =
      if x ∈ (m.region source).blocks ∧ x.index < m.blocks.size then
        { m.block x with parent := target }
      else m.block x := by
  rw [takeBlocks_eq, block_modifyRegion, block_reparent]
  rfl

/-- A region keeps its owner, the first region loses its blocks and the second one gets them. -/
theorem region_takeBlocks (hsource : source.index < m.regions.size)
    (htarget : target.index < m.regions.size) (r : RegionId) :
    (m.takeBlocks source target).region r =
      { m.region r with
        blocks := (if r = source then [] else (m.region r).blocks) ++
          if r = target then (m.region source).blocks else [] } := by
  simp only [takeBlocks_eq, region_modifyRegion, region_reparent, size_regions_reparent,
    size_regions_modifyRegion, hsource, htarget, and_true]
  by_cases hs : r = source
  · subst hs
    by_cases ht : r = target <;> simp [ht]
  · by_cases ht : r = target
    · subst ht
      simp [hs]
    · simp [hs, ht]

/-- The first region loses its blocks, and the second one gets them. -/
theorem mem_blocks_takeBlocks (hsource : source.index < m.regions.size)
    (htarget : target.index < m.regions.size) {r : RegionId} {x : BlockId} :
    x ∈ ((m.takeBlocks source target).region r).blocks ↔
      r ≠ source ∧ x ∈ (m.region r).blocks ∨ r = target ∧ x ∈ (m.region source).blocks := by
  rw [region_takeBlocks m source target hsource htarget, List.mem_append]
  by_cases hs : r = source <;> by_cases ht : r = target <;> simp [hs, ht]

end TakeBlocks

namespace TreeLinked

variable {m : Module} {source target : RegionId}

/-- After blocks were moved, a block names the region that lists it. -/
theorem block_parent_takeBlocks (h : m.TreeLinked) (hsource : source.index < m.regions.size)
    (htarget : target.index < m.regions.size) {x : BlockId} (hx : x.index < m.blocks.size)
    (r : RegionId) :
    ((m.takeBlocks source target).block x).parent = r ↔
      x ∈ ((m.takeBlocks source target).region r).blocks := by
  rw [mem_blocks_takeBlocks m source target hsource htarget, block_takeBlocks]
  by_cases hmem : x ∈ (m.region source).blocks
  · -- a moved block stood in the first region alone
    have hparent := (h.block_parent x source hx).2 hmem
    have hother : ¬(r ≠ source ∧ x ∈ (m.region r).blocks) := fun ⟨hne, hr⟩ =>
      hne (((h.block_parent x r hx).2 hr).symm.trans hparent)
    rw [if_pos ⟨hmem, hx⟩, or_iff_right hother]
    exact ⟨fun hr => ⟨hr.symm, hmem⟩, fun hr => hr.1.symm⟩
  · rw [if_neg fun hc => hmem hc.1, h.block_parent x r hx, or_iff_left fun hc => hmem hc.2]
    exact ⟨fun hr => ⟨fun heq => hmem (heq ▸ hr), hr⟩, And.right⟩

/-- After blocks were moved, no region lists a block twice.

**Proof sketch.** The target lists its own blocks and then those of the source, each once; a
block in both would stand in two regions. -/
theorem blocks_nodup_takeBlocks (h : m.TreeLinked) (hsource : source.index < m.regions.size)
    (htarget : target.index < m.regions.size) (r : RegionId) :
    ((m.takeBlocks source target).region r).blocks.Nodup := by
  rw [region_takeBlocks m source target hsource htarget]
  have hleft : (if r = source then [] else (m.region r).blocks).Nodup := by
    split
    · exact List.nodup_nil
    · exact h.blocks_nodup r
  have hright : (if r = target then (m.region source).blocks else []).Nodup := by
    split
    · exact h.blocks_nodup source
    · exact List.nodup_nil
  refine List.nodup_append.2 ⟨hleft, hright, ?_⟩
  rintro x hx y hy rfl
  split at hx
  · cases hx
  · split at hy
    · rename_i hrs _
      have hlt := h.blocks_lt r x hx
      exact hrs (((h.block_parent x r hlt).2 hx).symm.trans ((h.block_parent x source hlt).2 hy))
    · cases hy

/-- Moving blocks keeps the links of the tree.

**Proof sketch.** Operations and what they own stay.  For the blocks, `mem_blocks_takeBlocks`
says which region lists them afterwards and `block_parent_takeBlocks` that they name it. -/
theorem takeBlocks (h : m.TreeLinked) (hsource : source.index < m.regions.size)
    (htarget : target.index < m.regions.size) : (m.takeBlocks source target).TreeLinked := by
  have hregion := region_takeBlocks m source target hsource htarget
  have hops : ∀ x, ((m.takeBlocks source target).block x).ops = (m.block x).ops := by
    intro x
    rw [block_takeBlocks]
    split <;> rfl
  refine { op_parent := ?_, ops_nodup := ?_, block_parent := ?_,
           blocks_nodup := h.blocks_nodup_takeBlocks hsource htarget, blocks_lt := ?_,
           region_parent := ?_, regions_nodup := ?_, body_lt := ?_, body_parent := ?_ }
  · intro o x
    rw [op_takeBlocks, hops]
    exact h.op_parent o x
  · intro x
    rw [hops]
    exact h.ops_nodup x
  · intro x r hx
    rw [size_blocks_takeBlocks] at hx
    exact h.block_parent_takeBlocks hsource htarget hx r
  · intro r x hx
    rw [size_blocks_takeBlocks]
    rcases (mem_blocks_takeBlocks m source target hsource htarget).1 hx with ⟨-, hx⟩ | ⟨-, hx⟩
    · exact h.blocks_lt r x hx
    · exact h.blocks_lt source x hx
  · intro r o
    rw [hregion, op_takeBlocks]
    exact h.region_parent r o
  · intro o
    rw [op_takeBlocks]
    exact h.regions_nodup o
  · rw [size_regions_takeBlocks]
    exact h.body_lt
  · rw [hregion]
    exact h.body_parent

end TreeLinked

/-- **Moving the blocks of a region to another one keeps the links**, unless the other region is
inside one of the blocks.

**Proof sketch.** The tree by `TreeLinked.takeBlocks`, the values as they were.  The new steps
outwards lead from operations of the moved blocks to the owner of the target, which is not inside
them (`acyclic_of_redirect`). -/
theorem Linked.takeBlocks {m : Module} (h : m.Linked) {source target : RegionId}
    (hsource : source.index < m.regions.size) (htarget : target.index < m.regions.size)
    (hinside : ∀ b ∈ (m.region source).blocks, ∀ o ∈ (m.block b).ops, ¬m.RegionInside target o) :
    (m.takeBlocks source target).Linked where
  toTreeLinked := h.toTreeLinked.takeBlocks hsource htarget
  toValuesLinked := by
    refine h.toValuesLinked.congr (size_values_takeBlocks ..) (fun v => ?_) (fun o => ?_)
      (fun b => ?_) fun o v hv => ?_
    · rw [value_takeBlocks]
    · rw [op_takeBlocks]
    · rw [block_takeBlocks]
      split <;> rfl
    · rw [op_takeBlocks] at hv
      exact h.operands_lt o v hv
  acyclic := by
    -- the new steps outwards lead from the operations of the moved blocks to the other region
    have hstep : ∀ o p, (m.takeBlocks source target).Up o p → m.Up o p ∨
        (m.region target).parent = some p ∧
          ∃ b ∈ (m.region source).blocks, o ∈ (m.block b).ops := by
      intro o p hup
      obtain ⟨x, hx, hp⟩ := up_iff.1 hup
      rw [op_takeBlocks] at hx
      rw [region_takeBlocks m source target hsource htarget, block_takeBlocks] at hp
      split at hp
      · rename_i hmem
        exact .inr ⟨hp, x, hmem.1, (h.op_parent o x).1 hx⟩
      · exact .inl (up_iff.2 ⟨x, hx, hp⟩)
    refine acyclic_of_redirect h.acyclic hstep ?_
    rintro o ⟨b, hb, ho⟩
    exact hinside b hb o ho

end Module

end ContractIR
