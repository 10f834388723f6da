import ContractIR.Print.Printer
import ContractIR.Proofs.Module.Nesting

/-!
# Rows of a printed module

A printed module has a row for every place that the printer comes to: at an operation, at a region,
at the header of a block, and at the end of an operation.  Which of these show a line, and what the
line says, is decided later; here it is said in which order they come.

The printer and the walk both go down with a bound on the depth.  In a module whose links agree, the
bound is never met, and the rows of a region are those of its blocks (`regionRows_eq`).

## Main definitions

* `ContractIR.Print.Row`, `ContractIR.Print.Row.Of` — the places, and the operation that one belongs
  to.
* `ContractIR.Module.opRows`, `regionRows`, `blockRows`, `rows` — the rows, in order.

## Main results

* `ContractIR.Module.Linked.eq_of_depth` — what goes down region by region needs no more depth than
  there are operations.
* `ContractIR.Module.Linked.mem_opRows_iff`, `mem_rows_iff` — what has a row.
* `ContractIR.Module.Linked.nodup_rows` — no row comes twice.
* `ContractIR.Module.Linked.filterMap_rows` — the operations come in the order of the walk.
-/

set_option autoImplicit false

namespace ContractIR

namespace Print

/-- A place that the printer comes to. -/
inductive Row where
  /-- An operation, in front of its regions. -/
  | op (id : OpId)
  /-- The beginning of a region. -/
  | region (r : RegionId)
  /-- The beginning of a block. -/
  | header (b : BlockId)
  /-- An operation, behind its regions. -/
  | close (id : OpId)
deriving DecidableEq

/-- The operation that a row begins with. -/
def Row.op? : Row → Option OpId
  | .op id => some id
  | _ => none

/-- The rows of an operation; `inner` gives the rows of a region. -/
def rowsAround (m : Module) (inner : RegionId → List Row) (id : OpId) : List Row :=
  .op id :: ((m.op id).regions.flatMap inner ++ [.close id])

/-- The rows of a region, with operations nested up to a depth. -/
def rowsWithin (m : Module) : Nat → RegionId → List Row
  | 0, _ => []
  | depth + 1, r => .region r :: (m.region r).blocks.flatMap fun b =>
      .header b :: (m.block b).ops.flatMap (rowsAround m (rowsWithin m depth))

/-- A row belongs to an operation: it is in front of it or behind it, or begins one of its regions
or a block of these. -/
inductive Row.Of (m : Module) (p : OpId) : Row → Prop where
  | op : Of m p (.op p)
  | close : Of m p (.close p)
  | region {r : RegionId} (hr : r ∈ (m.op p).regions) : Of m p (.region r)
  | header {r : RegionId} {b : BlockId} (hr : r ∈ (m.op p).regions)
      (hb : b ∈ (m.region r).blocks) : Of m p (.header b)

end Print

open Print

namespace Module

variable {m : Module}

/-! ## Depth -/

namespace Linked

/-- An operation has fewer ancestors than there are operations. -/
theorem length_ancestors_lt_size (h : m.Linked) {o : OpId} (ho : o.index < m.ops.size) :
    (m.ancestors o).length < m.ops.size := by
  have hnodup : ((o :: m.ancestors o).map OpId.index).Nodup :=
    (h.nodup_cons_ancestorsWithin _ o).map fun _ _ hij => OpId.index_eq_iff.1 hij
  have hsub : (o :: m.ancestors o).map OpId.index ⊆ List.range m.ops.size := by
    intro i hi
    obtain ⟨p, hp, rfl⟩ := List.mem_map.1 hi
    rcases List.mem_cons.1 hp with rfl | hp
    · exact List.mem_range.2 ho
    · exact List.mem_range.2 (h.index_lt_of_mem_ancestorsWithin hp)
  have hle := (List.Nodup.subperm hnodup hsub).length_le
  rwa [List.length_map, List.length_cons, List.length_range] at hle

/-- **What goes down region by region needs no more depth than there are operations**: with any
greater depth the outcome is the same. -/
theorem eq_of_depth (h : m.Linked) {α : Type} {F : Nat → RegionId → α}
    (hstep : ∀ {k l r}, (∀ o, m.StandsIn o r → ∀ s ∈ (m.op o).regions, F k s = F l s) →
      F (k + 1) r = F (l + 1) r)
    {p : OpId} {r : RegionId} (hr : r ∈ (m.op p).regions) {k l : Nat}
    (hk : m.ops.size ≤ k + (m.ancestors p).length) (hl : m.ops.size ≤ l + (m.ancestors p).length) :
    F k r = F l r := by
  have hlt := h.length_ancestors_lt_size (op_lt_of_mem_regions hr)
  induction k generalizing p r l with
  | zero => omega
  | succ k ih =>
    obtain ⟨l, rfl⟩ : ∃ l', l = l' + 1 := ⟨l - 1, by omega⟩
    refine hstep fun o ho s hs => ?_
    have hlength : (m.ancestors o).length = (m.ancestors p).length + 1 := by
      rw [h.ancestors_of_up (h.up_of_standsIn ho hr), List.length_cons]
    exact ih hs (by omega) (by omega) (h.length_ancestors_lt_size (op_lt_of_mem_regions hs))

/-- A depth beyond the bound is enough for the regions of every operation. -/
theorem size_le_of_le {k n : Nat} (hk : m.depthBound ≤ k) : m.ops.size ≤ k + n :=
  Nat.le_trans (Nat.le_succ _) (Nat.le_add_right_of_le hk)

/-- What holds of an operation if it holds of all operations directly inside holds of all. -/
theorem inside_induction (h : m.Linked) {P : OpId → Prop}
    (hP : ∀ p, (∀ o, m.Up o p → P o) → P p) (p : OpId) : P p := by
  induction hn : m.depthBound - (m.ancestors p).length using Nat.strongRecOn generalizing p with
  | ind n ih =>
    refine hP p fun o hup => ih _ ?_ o rfl
    have hlt := h.length_ancestors_lt o
    rw [h.ancestors_of_up hup, List.length_cons] at hlt ⊢
    omega

end Linked

/-! ## Rows -/

/-- The rows of a region. -/
def regionRows (m : Module) (r : RegionId) : List Row := rowsWithin m m.depthBound r

/-- The rows of an operation. -/
def opRows (m : Module) (id : OpId) : List Row := rowsAround m m.regionRows id

/-- The rows of a block. -/
def blockRows (m : Module) (b : BlockId) : List Row :=
  .header b :: (m.block b).ops.flatMap m.opRows

/-- The rows of a module: those of the operations that stand directly in its body. -/
def rows (m : Module) : List Row := m.topLevel.flatMap m.opRows

/-- The rows of an operation are its line, the rows of its regions, and its closing line. -/
theorem opRows_eq (m : Module) (p : OpId) :
    m.opRows p = .op p :: ((m.op p).regions.flatMap m.regionRows ++ [.close p]) := rfl

/-- The rows of operations that stand in a region depend on the depth only as far as the rows of
their regions do. -/
theorem rowsWithin_succ_congr {k l : Nat} {r : RegionId}
    (h : ∀ o, m.StandsIn o r → ∀ s ∈ (m.op o).regions, rowsWithin m k s = rowsWithin m l s) :
    rowsWithin m (k + 1) r = rowsWithin m (l + 1) r := by
  rw [rowsWithin, rowsWithin]
  refine congrArg (Row.region r :: ·) (List.flatMap_congr fun b hb => ?_)
  refine congrArg (Row.header b :: ·) (List.flatMap_congr fun o ho => ?_)
  rw [rowsAround, rowsAround, List.flatMap_congr (h o ⟨b, hb, ho⟩)]

namespace Linked

/-- **The rows of a region** are those of its blocks. -/
theorem regionRows_eq (h : m.Linked) {p : OpId} {r : RegionId} (hr : r ∈ (m.op p).regions) :
    m.regionRows r = .region r :: (m.region r).blocks.flatMap m.blockRows := by
  have hdepth : m.regionRows r = rowsWithin m (m.depthBound + 1) r :=
    h.eq_of_depth (F := rowsWithin m) rowsWithin_succ_congr hr (size_le_of_le le_rfl)
      (size_le_of_le (Nat.le_succ _))
  rw [hdepth, rowsWithin]
  rfl

/-- Rows of a region of an operation are among those of the operation. -/
theorem mem_opRows_of_mem_regionRows {p : OpId} {r : RegionId} (hr : r ∈ (m.op p).regions)
    {row : Row} (hrow : row ∈ m.regionRows r) : row ∈ m.opRows p := by
  rw [opRows_eq]
  exact .tail _ (List.mem_append_left _ (List.mem_flatMap.2 ⟨r, hr, hrow⟩))

/-- **What has a row inside an operation**: the rows of all operations inside.

**Proof sketch.** Induction from the inside outwards.  A row is that of the operation itself, of
a region or a block header of it, or inside an operation of a block; the other way round, the
chain from `q` to `p` is cut at its last step. -/
theorem mem_opRows_iff (h : m.Linked) {p : OpId} {row : Row} :
    row ∈ m.opRows p ↔ ∃ q, m.Inside q p ∧ row.Of m q := by
  induction p using h.inside_induction with
  | hP p ih =>
    constructor
    · intro hrow
      rw [opRows_eq, List.mem_cons, List.mem_append, List.mem_flatMap, List.mem_singleton] at hrow
      rcases hrow with rfl | ⟨r, hr, hrow⟩ | rfl
      · exact ⟨p, .refl, .op⟩
      · rw [h.regionRows_eq hr, List.mem_cons, List.mem_flatMap] at hrow
        rcases hrow with rfl | ⟨b, hb, hrow⟩
        · exact ⟨p, .refl, .region hr⟩
        · rcases List.mem_cons.1 hrow with rfl | hrow
          · exact ⟨p, .refl, .header hr hb⟩
          · obtain ⟨o, ho, hrow⟩ := List.mem_flatMap.1 hrow
            have hup := h.up_of_standsIn ⟨b, hb, ho⟩ hr
            obtain ⟨q, hq, hrow⟩ := (ih o hup).1 hrow
            exact ⟨q, hq.tail hup, hrow⟩
      · exact ⟨p, .refl, .close⟩
    · rintro ⟨q, hq, hrow⟩
      rcases Relation.ReflTransGen.cases_tail hq with rfl | ⟨o, hqo, hup⟩
      · cases hrow with
        | op => exact List.mem_cons_self
        | close => simp [opRows_eq]
        | @region r hr =>
          refine mem_opRows_of_mem_regionRows hr ?_
          rw [h.regionRows_eq hr]
          exact List.mem_cons_self
        | @header r b hr hb =>
          refine mem_opRows_of_mem_regionRows hr ?_
          rw [h.regionRows_eq hr]
          exact .tail _ (List.mem_flatMap.2 ⟨b, hb, List.mem_cons_self⟩)
      · obtain ⟨r, hr, b, hb, ho⟩ := h.exists_standsIn_of_up hup
        refine mem_opRows_of_mem_regionRows hr ?_
        rw [h.regionRows_eq hr]
        refine .tail _ (List.mem_flatMap.2 ⟨b, hb, .tail _ (List.mem_flatMap.2 ⟨o, ho, ?_⟩)⟩)
        exact (ih o hup).2 ⟨q, hqo, hrow⟩

/-- A row belongs to one operation.

**Proof sketch.** By the sort of the row: a region and a block have one owner (`region_parent`,
`block_parent`). -/
theorem of_unique (h : m.Linked) {p q : OpId} {row : Row} (hp : row.Of m p) (hq : row.Of m q) :
    p = q := by
  cases hp with
  | op => cases hq; rfl
  | close => cases hq; rfl
  | region hr =>
    cases hq with
    | region hr' => exact Option.some.inj (((h.region_parent _ p).2 hr).symm.trans
        ((h.region_parent _ q).2 hr'))
  | @header r b hr hb =>
    cases hq with
    | @header r' _ hr' hb' =>
      have hlt := h.blocks_lt r b hb
      obtain rfl : r = r' :=
        ((h.block_parent b r hlt).2 hb).symm.trans ((h.block_parent b r' hlt).2 hb')
      exact Option.some.inj (((h.region_parent _ p).2 hr).symm.trans
        ((h.region_parent _ q).2 hr'))

/-- Rows inside operations that stand in one region are rows of one operation only. -/
theorem eq_of_mem_opRows (h : m.Linked) {r : RegionId} {o p : OpId} (ho : m.StandsIn o r)
    (hp : m.StandsIn p r) {row : Row} (hrow : row ∈ m.opRows o) (hrow' : row ∈ m.opRows p) :
    o = p := by
  obtain ⟨q, hqo, hof⟩ := h.mem_opRows_iff.1 hrow
  obtain ⟨q', hqp, hof'⟩ := h.mem_opRows_iff.1 hrow'
  obtain rfl := h.of_unique hof hof'
  refine h.root_unique hqo hqp ?_
  rw [h.parentOp?_of_standsIn ho, h.parentOp?_of_standsIn hp]

/-- A row that belongs to an operation is not inside an operation that is inside. -/
theorem notMem_opRows_of_up (h : m.Linked) {o p : OpId} (hup : m.Up o p) {row : Row}
    (hrow : row.Of m p) : row ∉ m.opRows o := by
  intro hmem
  obtain ⟨q, hqo, hof⟩ := h.mem_opRows_iff.1 hmem
  obtain rfl := h.of_unique hof hrow
  exact h.not_transGen_self q (.tail' hqo hup)

/-- A block of an operation has its rows once, if this is so of the operations in it. -/
theorem nodup_blockRows (h : m.Linked) {p : OpId} {r : RegionId} {b : BlockId}
    (hr : r ∈ (m.op p).regions) (hb : b ∈ (m.region r).blocks)
    (hops : ∀ o ∈ (m.block b).ops, (m.opRows o).Nodup) : (m.blockRows b).Nodup := by
  refine List.nodup_cons.2 ⟨fun hmem => ?_, List.nodup_flatMap.2 ⟨hops, ?_⟩⟩
  · obtain ⟨o, ho, hmem⟩ := List.mem_flatMap.1 hmem
    exact h.notMem_opRows_of_up (h.up_of_standsIn ⟨b, hb, ho⟩ hr) (.header hr hb) hmem
  · refine (h.ops_nodup b).imp_of_mem fun {o o'} ho ho' hne row hrow hrow' => ?_
    exact hne (h.eq_of_mem_opRows ⟨b, hb, ho⟩ ⟨b, hb, ho'⟩ hrow hrow')

/-- A row of a block is its header, or is inside an operation of the block. -/
theorem mem_blockRows {b : BlockId} {row : Row} :
    row ∈ m.blockRows b ↔ row = .header b ∨ ∃ o ∈ (m.block b).ops, row ∈ m.opRows o := by
  rw [blockRows, List.mem_cons, List.mem_flatMap]

/-- Two blocks of an operation have no row in common. -/
theorem eq_of_mem_blockRows (h : m.Linked) {p : OpId} {r : RegionId} {b c : BlockId}
    (hr : r ∈ (m.op p).regions) (hb : b ∈ (m.region r).blocks) (hc : c ∈ (m.region r).blocks)
    {row : Row} (hrow : row ∈ m.blockRows b) (hrow' : row ∈ m.blockRows c) : b = c := by
  rcases mem_blockRows.1 hrow with rfl | ⟨o, ho, hrow⟩
  · rcases mem_blockRows.1 hrow' with heq | ⟨o', ho', hrow'⟩
    · cases heq
      rfl
    · exact absurd hrow'
        (h.notMem_opRows_of_up (h.up_of_standsIn ⟨c, hc, ho'⟩ hr) (.header hr hb))
  · rcases mem_blockRows.1 hrow' with rfl | ⟨o', ho', hrow'⟩
    · exact absurd hrow
        (h.notMem_opRows_of_up (h.up_of_standsIn ⟨b, hb, ho⟩ hr) (.header hr hc))
    · obtain rfl := h.eq_of_mem_opRows ⟨b, hb, ho⟩ ⟨c, hc, ho'⟩ hrow hrow'
      exact Option.some.inj (((h.op_parent o b).2 ho).symm.trans ((h.op_parent o c).2 ho'))

/-- A row of a region is its beginning, or stands in one of its blocks. -/
theorem mem_regionRows (h : m.Linked) {p : OpId} {r : RegionId} (hr : r ∈ (m.op p).regions)
    {row : Row} :
    row ∈ m.regionRows r ↔ row = .region r ∨ ∃ b ∈ (m.region r).blocks, row ∈ m.blockRows b := by
  rw [h.regionRows_eq hr, List.mem_cons, List.mem_flatMap]

/-- A row of a block is no row that begins a region of the operation around it. -/
theorem region_notMem_blockRows (h : m.Linked) {p : OpId} {r s : RegionId} {b : BlockId}
    (hr : r ∈ (m.op p).regions) (hb : b ∈ (m.region r).blocks) (hs : s ∈ (m.op p).regions) :
    Row.region s ∉ m.blockRows b := by
  intro hmem
  rcases mem_blockRows.1 hmem with heq | ⟨o, ho, hmem⟩
  · cases heq
  · exact h.notMem_opRows_of_up (h.up_of_standsIn ⟨b, hb, ho⟩ hr) (.region hs) hmem

/-- Two regions of an operation have no row in common.

**Proof sketch.** A common row is a header or belongs to an operation of a block.  A block is in
one region; an operation that is inside two operations of those regions would make one of them
contain the other or both the same. -/
theorem eq_of_mem_regionRows (h : m.Linked) {p : OpId} {r s : RegionId} (hr : r ∈ (m.op p).regions)
    (hs : s ∈ (m.op p).regions) {row : Row} (hrow : row ∈ m.regionRows r)
    (hrow' : row ∈ m.regionRows s) : r = s := by
  rcases (h.mem_regionRows hr).1 hrow with rfl | ⟨b, hb, hrow⟩
  · rcases (h.mem_regionRows hs).1 hrow' with heq | ⟨c, hc, hrow'⟩
    · cases heq
      rfl
    · exact absurd hrow' (h.region_notMem_blockRows hs hc hr)
  · rcases (h.mem_regionRows hs).1 hrow' with rfl | ⟨c, hc, hrow'⟩
    · exact absurd hrow (h.region_notMem_blockRows hr hb hs)
    · have hregion : ∀ {t : RegionId} {d : BlockId}, t ∈ (m.op p).regions →
          d ∈ (m.region t).blocks → (m.block d).parent = t := fun ht hd =>
        (h.block_parent _ _ (h.blocks_lt _ _ hd)).2 hd
      rcases mem_blockRows.1 hrow with rfl | ⟨o, ho, hrow⟩ <;>
        rcases mem_blockRows.1 hrow' with heq | ⟨o', ho', hrow'⟩
      · cases heq
        exact (hregion hr hb).symm.trans (hregion hs hc)
      · exact absurd hrow'
          (h.notMem_opRows_of_up (h.up_of_standsIn ⟨c, hc, ho'⟩ hs) (.header hr hb))
      · subst heq
        exact absurd hrow
          (h.notMem_opRows_of_up (h.up_of_standsIn ⟨b, hb, ho⟩ hr) (.header hs hc))
      · obtain ⟨q, hqo, hof⟩ := h.mem_opRows_iff.1 hrow
        obtain ⟨q', hqo', hof'⟩ := h.mem_opRows_iff.1 hrow'
        obtain rfl := h.of_unique hof hof'
        have hup := h.up_of_standsIn ⟨b, hb, ho⟩ hr
        have hup' := h.up_of_standsIn ⟨c, hc, ho'⟩ hs
        obtain rfl := h.root_unique hqo hqo' (Eq.trans (show m.parentOp? o = some p from hup)
          (show m.parentOp? o' = some p from hup').symm)
        exact h.region_unique ⟨b, hb, ho⟩ ⟨c, hc, ho'⟩

/-- A region of an operation has its rows once, if this is so of what stands in it. -/
theorem nodup_regionRows (h : m.Linked) {p : OpId} {r : RegionId} (hr : r ∈ (m.op p).regions)
    (hops : ∀ o, m.StandsIn o r → (m.opRows o).Nodup) : (m.regionRows r).Nodup := by
  rw [h.regionRows_eq hr]
  refine List.nodup_cons.2 ⟨fun hmem => ?_, List.nodup_flatMap.2 ⟨fun b hb => ?_, ?_⟩⟩
  · obtain ⟨b, hb, hmem⟩ := List.mem_flatMap.1 hmem
    exact h.region_notMem_blockRows hr hb hr hmem
  · exact h.nodup_blockRows hr hb fun o ho => hops o ⟨b, hb, ho⟩
  · refine (h.blocks_nodup r).imp_of_mem fun {b c} hb hc hne row hrow hrow' => ?_
    exact hne (h.eq_of_mem_blockRows hr hb hc hrow hrow')

/-- An operation has its rows once.

**Proof sketch.** Induction from the inside outwards.  The opening and the closing row do not
occur in the regions, each region has its rows once by induction, and two of them have none in
common (`eq_of_mem_regionRows`). -/
theorem nodup_opRows (h : m.Linked) (p : OpId) : (m.opRows p).Nodup := by
  induction p using h.inside_induction with
  | hP p ih =>
    -- the rows in front and behind are not among those of the regions
    have houter : ∀ row, row = .op p ∨ row = .close p →
        row ∉ (m.op p).regions.flatMap m.regionRows := by
      intro row hrow hmem
      obtain ⟨r, hr, hmem⟩ := List.mem_flatMap.1 hmem
      have hof : row.Of m p := by
        rcases hrow with rfl | rfl
        · exact .op
        · exact .close
      rcases (h.mem_regionRows hr).1 hmem with rfl | ⟨b, hb, hmem⟩
      · rcases hrow with heq | heq <;> cases heq
      · rcases mem_blockRows.1 hmem with rfl | ⟨o, ho, hmem⟩
        · rcases hrow with heq | heq <;> cases heq
        · exact h.notMem_opRows_of_up (h.up_of_standsIn ⟨b, hb, ho⟩ hr) hof hmem
    have hregions : ((m.op p).regions.flatMap m.regionRows).Nodup := by
      refine List.nodup_flatMap.2 ⟨fun r hr => h.nodup_regionRows hr fun o ho =>
        ih o (h.up_of_standsIn ho hr), ?_⟩
      refine (h.regions_nodup p).imp_of_mem fun {r s} hr hs hne row hrow hrow' => ?_
      exact hne (h.eq_of_mem_regionRows hr hs hrow hrow')
    rw [opRows_eq]
    refine List.nodup_cons.2 ⟨fun hmem => ?_, ?_⟩
    · rcases List.mem_append.1 hmem with hmem | hmem
      · exact houter _ (.inl rfl) hmem
      · cases List.mem_singleton.1 hmem
    · rw [← List.concat_eq_append]
      exact hregions.concat (houter _ (.inr rfl))

/-! ## The rows of a module -/

/-- **No row comes twice.** -/
theorem nodup_rows (h : m.Linked) {b : BlockId} (hbody : (m.region body).blocks = [b]) :
    m.rows.Nodup := by
  have hb : m.bodyBlock = b := by simp [bodyBlock, hbody]
  have hmem : b ∈ (m.region body).blocks := by simp [hbody]
  refine List.nodup_flatMap.2 ⟨fun o _ => h.nodup_opRows o, ?_⟩
  rw [topLevel, hb]
  refine (h.ops_nodup b).imp_of_mem fun {o p} ho hp hne row hrow hrow' => ?_
  exact hne (h.eq_of_mem_opRows ⟨b, hmem, ho⟩ ⟨b, hmem, hp⟩ hrow hrow')

/-- The operations that stand in the body of a module with one block are those of the block. -/
theorem standsIn_body_iff {b : BlockId} (hbody : (m.region body).blocks = [b]) {o : OpId} :
    m.StandsIn o body ↔ o ∈ m.topLevel := by
  have hb : m.bodyBlock = b := by simp [bodyBlock, hbody]
  simp [StandsIn, hbody, topLevel, hb]

/-- **What has a row**: the rows of the attached operations. -/
theorem mem_rows_iff (h : m.Linked) {b : BlockId} (hbody : (m.region body).blocks = [b])
    {row : Row} : row ∈ m.rows ↔ ∃ q, m.isAttached q = true ∧ row.Of m q := by
  simp only [rows, List.mem_flatMap, h.mem_opRows_iff, h.isAttached_iff, standsIn_body_iff hbody]
  constructor
  · rintro ⟨p, hp, q, hq, hof⟩
    exact ⟨q, ⟨p, hp, hq⟩, hof⟩
  · rintro ⟨q, ⟨p, hp, hq⟩, hof⟩
    exact ⟨p, hp, q, hq, hof⟩

end Linked

/-- The operations that the rows of an operation begin with. -/
theorem filterMap_rowsAround (m : Module) (inner : RegionId → List Row) (o : OpId) :
    (rowsAround m inner o).filterMap Row.op? =
      o :: (m.op o).regions.flatMap fun s => (inner s).filterMap Row.op? := by
  simp [rowsAround, Row.op?, List.filterMap_flatMap]

/-- The operations that the rows of a region begin with are walked in that order. -/
theorem filterMap_rowsWithin (m : Module) (depth : Nat) (r : RegionId) :
    (rowsWithin m depth r).filterMap Row.op? = m.walkRegion depth r := by
  induction depth generalizing r with
  | zero => rfl
  | succ depth ih =>
    rw [rowsWithin, walkRegion, List.filterMap_cons_none rfl, List.filterMap_flatMap]
    refine List.flatMap_congr fun b _ => ?_
    rw [List.filterMap_cons_none rfl, List.filterMap_flatMap]
    refine List.flatMap_congr fun o _ => ?_
    rw [filterMap_rowsAround, List.flatMap_congr fun s _ => ih s]

/-- The rows of an operation begin with the operations that its walk lists. -/
theorem filterMap_opRows (m : Module) (p : OpId) : (m.opRows p).filterMap Row.op? = m.walkOp p := by
  rw [opRows, filterMap_rowsAround, walkOp]
  exact congrArg (p :: ·) (List.flatMap_congr fun s _ => filterMap_rowsWithin m m.depthBound s)

namespace Linked

/-- The walk of a module, operation by operation. -/
theorem walk_eq_flatMap (h : m.Linked) {b : BlockId} (hbody : (m.region body).blocks = [b]) :
    m.walk = m.topLevel.flatMap m.walkOp := by
  have hb : m.bodyBlock = b := by simp [bodyBlock, hbody]
  rw [walk, depthBound, walkRegion, hbody, List.flatMap_singleton, topLevel, hb]
  refine List.flatMap_congr fun o _ => congrArg (o :: ·) (List.flatMap_congr fun s hs => ?_)
  refine h.eq_of_depth (F := m.walkRegion) (fun {k l r} hF => ?_) hs (Nat.le_add_right _ _)
    (size_le_of_le le_rfl)
  exact List.flatMap_congr fun c hc => List.flatMap_congr fun p hp =>
    congrArg (p :: ·) (List.flatMap_congr (hF p ⟨c, hc, hp⟩))

/-- **The operations come in the order of the walk.** -/
theorem filterMap_rows (h : m.Linked) {b : BlockId} (hbody : (m.region body).blocks = [b]) :
    m.rows.filterMap Row.op? = m.walk := by
  rw [rows, List.filterMap_flatMap, h.walk_eq_flatMap hbody]
  exact List.flatMap_congr fun o _ => filterMap_opRows m o

end Linked

/-! ## Stretches of rows -/

/-- The rows of a member of a list are a stretch of the rows of all members. -/
theorem infix_flatMap {α β : Type} (f : α → List β) {x : α} {xs : List α} (hx : x ∈ xs) :
    f x <:+: xs.flatMap f := by
  rw [List.flatMap_def]
  exact List.infix_of_mem_flatten (List.mem_map_of_mem hx)

/-- The rows of the regions of an operation are a stretch of those of the operation. -/
theorem infix_regions_opRows (m : Module) (p : OpId) :
    (m.op p).regions.flatMap m.regionRows <:+: m.opRows p := by
  rw [opRows_eq]
  exact (List.prefix_append _ _).isInfix.trans (List.suffix_cons _ _).isInfix

namespace Linked

/-- The rows of a block are a stretch of those of the regions around it. -/
theorem infix_blockRows_regions (h : m.Linked) {p : OpId} {r : RegionId} {b : BlockId}
    (hr : r ∈ (m.op p).regions) (hb : b ∈ (m.region r).blocks) :
    m.blockRows b <:+: (m.op p).regions.flatMap m.regionRows := by
  have hregion : m.blockRows b <:+: m.regionRows r := by
    rw [h.regionRows_eq hr]
    exact (infix_flatMap m.blockRows hb).trans (List.suffix_cons _ _).isInfix
  exact hregion.trans (infix_flatMap m.regionRows hr)

/-- The rows of an operation are a stretch of those of the regions of an operation around it. -/
theorem opRows_infix_regions (h : m.Linked) {q p : OpId} (hq : Relation.TransGen m.Up q p) :
    m.opRows q <:+: (m.op p).regions.flatMap m.regionRows := by
  have hup : ∀ {o p : OpId}, m.Up o p → m.opRows o <:+: (m.op p).regions.flatMap m.regionRows := by
    intro o p hup
    obtain ⟨r, hr, b, hb, ho⟩ := h.exists_standsIn_of_up hup
    have hblock : m.opRows o <:+: m.blockRows b :=
      (infix_flatMap m.opRows ho).trans (List.suffix_cons _ _).isInfix
    exact hblock.trans (h.infix_blockRows_regions hr hb)
  induction hq with
  | single hqo => exact hup hqo
  | tail _ hop ih => exact (ih.trans (infix_regions_opRows m _)).trans (hup hop)

/-- The rows of an operation are a stretch of those of an operation around it. -/
theorem opRows_infix (h : m.Linked) {q p : OpId} (hq : m.Inside q p) :
    m.opRows q <:+: m.opRows p := by
  rcases Relation.reflTransGen_iff_eq_or_transGen.1 hq with rfl | hq
  · exact List.infix_refl _
  · exact (h.opRows_infix_regions hq).trans (infix_regions_opRows m p)

/-- The rows of an attached operation are a stretch of those of the module. -/
theorem opRows_infix_rows (h : m.Linked) {b : BlockId} (hbody : (m.region body).blocks = [b])
    {p : OpId} (hp : m.isAttached p = true) : m.opRows p <:+: m.rows := by
  obtain ⟨q, hq, hpq⟩ := h.isAttached_iff.1 hp
  exact (h.opRows_infix hpq).trans (infix_flatMap m.opRows ((standsIn_body_iff hbody).1 hq))

end Linked

end Module

end ContractIR
