import ContractIR.Proofs.Module.Links
import Mathlib.Data.List.Perm.Subperm
import Mathlib.Order.WellFounded

/-!
# The two directions of a walk

Going down from the body and going up from an operation meet the same operations: the walk lists
exactly the attached operations, each of them once.  Both directions are bounded by the number of
operations, and in a module whose links agree this bound is never met.

## Main definitions

* `ContractIR.Module.StandsIn` — an operation stands in a block of a region.

## Main results

* `ContractIR.Module.Linked.ancestors_eq` — the ancestors of an operation are the operation around
  it and the ancestors of that one.
* `ContractIR.Module.Linked.mem_walkRegion_iff` — the walk of a region lists what is nested in it.
* `ContractIR.Module.Linked.nodup_walk` — the walk of a module has no repetition.
* `ContractIR.Module.Linked.mem_walk_iff` — the walk lists the attached operations.
* `ContractIR.Module.Linked.lookup?_cases` — where a symbol stands that is visible from an
  operation.
-/

set_option autoImplicit false

namespace ContractIR

namespace Module

variable {m : Module}

/-! ## Chains of ancestors -/

/-- Steps outwards are a function. -/
theorem rightUnique_up : Relator.RightUnique m.Up := by
  intro o p q hp hq
  exact Option.some.inj (hp.symm.trans hq)

/-- What the bounded chain lists is around the operation. -/
theorem transGen_of_mem_ancestorsWithin {k : Nat} {o p : OpId} (h : p ∈ m.ancestorsWithin k o) :
    Relation.TransGen m.Up o p := by
  induction k generalizing o with
  | zero => cases h
  | succ k ih =>
    rw [ancestorsWithin] at h
    split at h
    · rename_i q hq
      rcases List.mem_cons.1 h with rfl | h
      · exact .single hq
      · exact .head hq (ih h)
    · cases h

/-- A chain that is shorter than its bound stays the same with any other bound that it respects. -/
theorem ancestorsWithin_of_length_lt {k : Nat} {o : OpId} (h : (m.ancestorsWithin k o).length < k)
    {l : Nat} (hl : (m.ancestorsWithin k o).length < l) :
    m.ancestorsWithin l o = m.ancestorsWithin k o := by
  induction k generalizing o l with
  | zero => cases h
  | succ k ih =>
    obtain ⟨l, rfl⟩ := Nat.exists_eq_succ_of_ne_zero (Nat.ne_zero_of_lt hl)
    rw [ancestorsWithin, ancestorsWithin] at *
    split
    · rename_i q hq
      simp only [hq, List.length_cons] at h hl
      rw [ih (Nat.lt_of_succ_lt_succ h) (Nat.lt_of_succ_lt_succ hl)]
    · rfl

namespace Linked

/-- No operation is around itself. -/
theorem not_transGen_self (h : m.Linked) (o : OpId) : ¬Relation.TransGen m.Up o o := by
  intro ho
  have hswap : Relation.TransGen (Function.swap m.Up) o o := Relation.transGen_swap.2 ho
  exact h.acyclic.transGen.irrefl.irrefl o hswap

/-- An operation with its bounded chain of ancestors is a list without repetition. -/
theorem nodup_cons_ancestorsWithin (h : m.Linked) (k : Nat) (o : OpId) :
    (o :: m.ancestorsWithin k o).Nodup := by
  refine List.nodup_cons.2 ⟨fun ho => ?_, ?_⟩
  · exact h.not_transGen_self o (transGen_of_mem_ancestorsWithin ho)
  · induction k generalizing o with
    | zero => exact List.nodup_nil
    | succ k ih =>
      rw [ancestorsWithin]
      split
      · rename_i p hp
        refine List.nodup_cons.2 ⟨fun hmem => ?_, ih p⟩
        exact h.not_transGen_self p (transGen_of_mem_ancestorsWithin hmem)
      · exact List.nodup_nil

/-- Ancestors exist. -/
theorem index_lt_of_mem_ancestorsWithin (h : m.Linked) {k : Nat} {o p : OpId}
    (hp : p ∈ m.ancestorsWithin k o) : p.index < m.ops.size := by
  obtain ⟨q, _, hq⟩ := Relation.TransGen.tail'_iff.1 (transGen_of_mem_ancestorsWithin hp)
  obtain ⟨b, _, howner⟩ := up_iff.1 hq
  exact h.owner_lt howner

/-- There are at most as many ancestors as operations. -/
theorem length_ancestorsWithin_le (h : m.Linked) (k : Nat) (o : OpId) :
    (m.ancestorsWithin k o).length ≤ m.ops.size := by
  have hnodup := (List.nodup_cons.1 (h.nodup_cons_ancestorsWithin k o)).2
  have hmap : ((m.ancestorsWithin k o).map OpId.index).Nodup :=
    hnodup.map fun _ _ hij => OpId.index_eq_iff.1 hij
  have hsub : (m.ancestorsWithin k o).map OpId.index ⊆ List.range m.ops.size := by
    intro i hi
    obtain ⟨p, hp, rfl⟩ := List.mem_map.1 hi
    exact List.mem_range.2 (h.index_lt_of_mem_ancestorsWithin hp)
  simpa using (List.Nodup.subperm hmap hsub).length_le

/-- The bound on the depth of nesting is never met. -/
theorem length_ancestors_lt (h : m.Linked) (o : OpId) :
    (m.ancestors o).length < m.depthBound := Nat.lt_succ_of_le (h.length_ancestorsWithin_le _ o)

/-- **The ancestors of an operation** are the operation around it, and the ancestors of that one. -/
theorem ancestors_eq (h : m.Linked) (o : OpId) :
    m.ancestors o =
      match m.parentOp? o with
      | some p => p :: m.ancestors p
      | none => [] := by
  have hmore : m.ancestors o = m.ancestorsWithin (m.depthBound + 1) o :=
    (ancestorsWithin_of_length_lt (h.length_ancestors_lt o)
      (Nat.lt_succ_of_lt (h.length_ancestors_lt o))).symm
  rw [hmore, ancestorsWithin]
  rfl

/-- The operation around an operation, and what is around that. -/
theorem ancestors_of_up (h : m.Linked) {o p : OpId} (hup : m.Up o p) :
    m.ancestors o = p :: m.ancestors p := by
  rw [h.ancestors_eq, show m.parentOp? o = some p from hup]

/-- The ancestors of an operation are the operations that it is nested in. -/
theorem mem_ancestors_iff (h : m.Linked) {o p : OpId} :
    p ∈ o :: m.ancestors o ↔ m.Inside o p := by
  constructor
  · intro hp
    rcases List.mem_cons.1 hp with rfl | hp
    · exact .refl
    · exact (transGen_of_mem_ancestorsWithin hp).to_reflTransGen
  · intro hp
    induction hp using Relation.ReflTransGen.head_induction_on with
    | refl => exact List.mem_cons_self
    | @head o q hup _ ih =>
      have hup : m.parentOp? o = some q := hup
      refine List.mem_cons_of_mem o ?_
      rw [h.ancestors_eq o, hup]
      exact ih

end Linked

/-! ## Downwards -/

/-- An operation stands in a block of a region. -/
def StandsIn (m : Module) (o : OpId) (r : RegionId) : Prop :=
  ∃ b ∈ (m.region r).blocks, o ∈ (m.block b).ops

/-- One more step of a walk. -/
theorem mem_walkRegion_succ {k : Nat} {r : RegionId} {o : OpId} :
    o ∈ m.walkRegion (k + 1) r ↔
      ∃ p, m.StandsIn p r ∧ (o = p ∨ ∃ s ∈ (m.op p).regions, o ∈ m.walkRegion k s) := by
  simp only [walkRegion, StandsIn, List.mem_flatMap, List.mem_cons]
  constructor
  · rintro ⟨b, hb, p, hp, ho⟩
    exact ⟨p, ⟨b, hb, hp⟩, ho⟩
  · rintro ⟨p, ⟨b, hb, hp⟩, ho⟩
    exact ⟨b, hb, p, hp, ho⟩

/-- A deeper walk lists more. -/
theorem walkRegion_subset_succ (k : Nat) (r : RegionId) :
    m.walkRegion k r ⊆ m.walkRegion (k + 1) r := by
  induction k generalizing r with
  | zero => exact List.nil_subset _
  | succ k ih =>
    intro o ho
    obtain ⟨p, hp, ho⟩ := mem_walkRegion_succ.1 ho
    refine mem_walkRegion_succ.2 ⟨p, hp, ho.imp_right ?_⟩
    rintro ⟨s, hs, ho⟩
    exact ⟨s, hs, ih s ho⟩

/-- With more depth, a walk over a region finds no less. -/
theorem walkRegion_subset {k l : Nat} (h : k ≤ l) (r : RegionId) :
    m.walkRegion k r ⊆ m.walkRegion l r := by
  induction h with
  | refl => exact List.Subset.refl _
  | step _ ih => exact List.Subset.trans ih (walkRegion_subset_succ _ r)

/-- What stands in a region is listed by its walk. -/
theorem StandsIn.mem_walkRegion {o : OpId} {r : RegionId} (h : m.StandsIn o r) (k : Nat) :
    o ∈ m.walkRegion (k + 1) r := mem_walkRegion_succ.2 ⟨o, h, .inl rfl⟩

/-- Walks agree where regions list the same blocks, blocks the same operations, and operations the
same regions. -/
theorem walkRegion_congr {n : Module} {S : RegionId → Prop}
    (hS : ∀ r, S r → n.region r = m.region r ∧ ∀ b ∈ (m.region r).blocks,
      (n.block b).ops = (m.block b).ops ∧ ∀ o ∈ (m.block b).ops,
        (n.op o).regions = (m.op o).regions ∧ ∀ s ∈ (m.op o).regions, S s)
    (depth : Nat) {r : RegionId} (hr : S r) : n.walkRegion depth r = m.walkRegion depth r := by
  induction depth generalizing r with
  | zero => rfl
  | succ depth ih =>
    obtain ⟨hregion, hblocks⟩ := hS r hr
    rw [walkRegion, walkRegion, hregion]
    refine List.flatMap_congr fun b hb => ?_
    obtain ⟨hops, hmembers⟩ := hblocks b hb
    rw [hops]
    refine List.flatMap_congr fun o ho => ?_
    obtain ⟨hregions, hinner⟩ := hmembers o ho
    rw [hregions]
    exact congrArg (o :: ·) (List.flatMap_congr fun s hs => ih (hinner s hs))

namespace Linked

/-- An operation that stands in a region is nested in the region's owner. -/
theorem parentOp?_of_standsIn (h : m.Linked) {o : OpId} {r : RegionId} (ho : m.StandsIn o r) :
    m.parentOp? o = (m.region r).parent := by
  obtain ⟨b, hb, hob⟩ := ho
  rw [parentOp?, (h.op_parent o b).2 hob, Option.bind_some,
    (h.block_parent b r (h.blocks_lt r b hb)).2 hb]

/-- An operation stands in one region only. -/
theorem region_unique (h : m.Linked) {o : OpId} {r s : RegionId} (hr : m.StandsIn o r)
    (hs : m.StandsIn o s) : r = s := by
  obtain ⟨b, hb, hob⟩ := hr
  obtain ⟨c, hc, hoc⟩ := hs
  have hbc : b = c := Option.some.inj
    (((h.op_parent o b).2 hob).symm.trans ((h.op_parent o c).2 hoc))
  subst hbc
  have hlt := h.blocks_lt r b hb
  exact ((h.block_parent b r hlt).2 hb).symm.trans ((h.block_parent b s hlt).2 hc)

/-- A block that names a region of an operation is listed there: the region is not the body, which
is what blocks name that do not exist. -/
theorem mem_blocks_of_parent (h : m.Linked) {p : OpId} {r : RegionId} (hr : r ∈ (m.op p).regions)
    {b : BlockId} (hb : (m.block b).parent = r) : b ∈ (m.region r).blocks := by
  refine (h.block_parent b r (Nat.lt_of_not_le fun hle => ?_)).1 hb
  have hbody : r = body := by
    rw [← hb, block_of_le hle]
    rfl
  have howner := (h.region_parent r p).2 hr
  rw [hbody, h.body_parent] at howner
  cases howner

/-- An operation stands in the region of its block. -/
theorem standsIn_of_parent (h : m.Linked) {o : OpId} {b : BlockId} (hb : (m.op o).parent = some b) :
    m.StandsIn o (m.block b).parent :=
  ⟨b, (h.block_parent b _ (h.block_lt hb)).1 rfl, (h.op_parent o b).1 hb⟩

/-- An operation inside another one stands in a region of it. -/
theorem exists_standsIn_of_up (h : m.Linked) {o p : OpId} (hup : m.Up o p) :
    ∃ r ∈ (m.op p).regions, m.StandsIn o r := by
  obtain ⟨b, hb, howner⟩ := up_iff.1 hup
  exact ⟨_, (h.region_parent _ p).1 howner, h.standsIn_of_parent hb⟩

/-- What stands in a region of an operation is directly inside the operation. -/
theorem up_of_standsIn (h : m.Linked) {o p : OpId} {r : RegionId} (ho : m.StandsIn o r)
    (hr : r ∈ (m.op p).regions) : m.Up o p := by
  rw [Up, h.parentOp?_of_standsIn ho]
  exact (h.region_parent r p).2 hr

/-- Of the operations around one there is only one at each level. -/
theorem root_unique (h : m.Linked) {o p q : OpId} (hp : m.Inside o p) (hq : m.Inside o q)
    (hpq : m.parentOp? p = m.parentOp? q) : p = q := by
  -- one of the two is inside the other, and then steps out to the same operation
  have hone : ∀ {p q : OpId}, m.Inside p q → m.parentOp? p = m.parentOp? q → p = q := by
    intro p q hin heq
    rcases Relation.ReflTransGen.cases_head hin with rfl | ⟨c, hpc, hcq⟩
    · rfl
    · have hqc : m.Up q c := heq.symm.trans hpc
      exact absurd (Relation.TransGen.tail' hcq hqc) (h.not_transGen_self c)
  rcases Relation.ReflTransGen.total_of_right_unique rightUnique_up hp hq with hin | hin
  · exact hone hin hpq
  · exact (hone hin hpq.symm).symm

/-- What the walk of a region lists is nested in an operation that stands in the region. -/
theorem exists_root (h : m.Linked) {k : Nat} {r : RegionId} {o : OpId}
    (ho : o ∈ m.walkRegion k r) : ∃ q, m.StandsIn q r ∧ m.Inside o q := by
  induction k generalizing r with
  | zero => cases ho
  | succ k ih =>
    obtain ⟨p, hp, rfl | ⟨s, hs, ho⟩⟩ := mem_walkRegion_succ.1 ho
    · exact ⟨o, hp, .refl⟩
    · obtain ⟨q, hq, hoq⟩ := ih ho
      exact ⟨p, hp, hoq.tail (h.up_of_standsIn hq hs)⟩

/-- A walk that lists an operation lists what is directly inside, one step deeper. -/
theorem mem_walkRegion_of_up (h : m.Linked) {k : Nat} {r : RegionId} {o p : OpId}
    (hp : p ∈ m.walkRegion k r) (hup : m.Up o p) : o ∈ m.walkRegion (k + 1) r := by
  induction k generalizing r with
  | zero => cases hp
  | succ k ih =>
    obtain ⟨q, hq, rfl | ⟨s, hs, hp⟩⟩ := mem_walkRegion_succ.1 hp
    · obtain ⟨s, hs, ho⟩ := h.exists_standsIn_of_up hup
      exact mem_walkRegion_succ.2 ⟨p, hq, .inr ⟨s, hs, ho.mem_walkRegion k⟩⟩
    · exact mem_walkRegion_succ.2 ⟨q, hq, .inr ⟨s, hs, ih hp⟩⟩

/-- **The walk of a region lists what is nested in it.** -/
theorem mem_walkRegion_iff (h : m.Linked) {r : RegionId} {o : OpId} :
    o ∈ m.walkRegion m.depthBound r ↔ ∃ q, m.StandsIn q r ∧ m.Inside o q := by
  refine ⟨h.exists_root, ?_⟩
  rintro ⟨q, hq, hoq⟩
  suffices hmem : o ∈ m.walkRegion ((m.ancestors o).length + 1) r from
    walkRegion_subset (h.length_ancestors_lt o) r hmem
  induction hoq using Relation.ReflTransGen.head_induction_on with
  | refl => exact hq.mem_walkRegion _
  | @head o p hup _ ih =>
    have hlen : (m.ancestors o).length = (m.ancestors p).length + 1 := by
      have hup : m.parentOp? o = some p := hup
      rw [h.ancestors_eq o, hup, List.length_cons]
    rw [hlen]
    exact h.mem_walkRegion_of_up ih hup

/-- An operation with the walks of its regions is a list without repetition if each of them is. -/
theorem nodup_cons_walkRegions (h : m.Linked) {k : Nat} (hk : ∀ r, (m.walkRegion k r).Nodup)
    (p : OpId) : (p :: (m.op p).regions.flatMap (m.walkRegion k)).Nodup := by
  refine List.nodup_cons.2 ⟨fun hp => ?_, List.nodup_flatMap.2 ⟨fun s _ => hk s, ?_⟩⟩
  · obtain ⟨s, hs, hp⟩ := List.mem_flatMap.1 hp
    obtain ⟨q, hq, hpq⟩ := h.exists_root hp
    exact h.not_transGen_self p (Relation.TransGen.tail' hpq (h.up_of_standsIn hq hs))
  · refine (h.regions_nodup p).imp_of_mem fun {s t} hs ht hst o hos hot => ?_
    obtain ⟨q, hq, hoq⟩ := h.exists_root hos
    obtain ⟨q', hq', hoq'⟩ := h.exists_root hot
    have hqq' : q = q' := by
      refine h.root_unique hoq hoq' ?_
      rw [h.parentOp?_of_standsIn hq, h.parentOp?_of_standsIn hq', (h.region_parent s p).2 hs,
        (h.region_parent t p).2 ht]
    exact hst (h.region_unique hq (hqq' ▸ hq'))

/-- **A walk has no repetition.**

**Proof sketch.** Along the walk, an operation is met below an operation of the region.  There is
only one such operation around it, since all of them step out to the owner of the region, and it
stands at one place only. -/
theorem nodup_walkRegion (h : m.Linked) (k : Nat) (r : RegionId) : (m.walkRegion k r).Nodup := by
  induction k generalizing r with
  | zero => exact List.nodup_nil
  | succ k ih =>
    -- what is met below an operation is inside it
    have hbelow : ∀ {o p : OpId}, o ∈ p :: (m.op p).regions.flatMap (m.walkRegion k) →
        m.Inside o p := by
      intro o p ho
      rcases List.mem_cons.1 ho with rfl | ho
      · exact .refl
      · obtain ⟨s, hs, ho⟩ := List.mem_flatMap.1 ho
        obtain ⟨q, hq, hoq⟩ := h.exists_root ho
        exact hoq.tail (h.up_of_standsIn hq hs)
    have hmeet : ∀ {o p q : OpId}, m.StandsIn p r → m.StandsIn q r →
        o ∈ p :: (m.op p).regions.flatMap (m.walkRegion k) →
        o ∈ q :: (m.op q).regions.flatMap (m.walkRegion k) → p = q := by
      intro o p q hp hq hop hoq
      refine h.root_unique (hbelow hop) (hbelow hoq) ?_
      rw [h.parentOp?_of_standsIn hp, h.parentOp?_of_standsIn hq]
    rw [walkRegion]
    refine List.nodup_flatMap.2 ⟨fun b hb => List.nodup_flatMap.2 ⟨fun p _ =>
      h.nodup_cons_walkRegions ih p, ?_⟩, ?_⟩
    · refine (h.ops_nodup b).imp_of_mem fun {p q} hp hq hpq o hop hoq => ?_
      exact hpq (hmeet ⟨b, hb, hp⟩ ⟨b, hb, hq⟩ hop hoq)
    · refine (h.blocks_nodup r).imp_of_mem fun {b c} hb hc hbc o hob hoc => ?_
      obtain ⟨p, hp, hop⟩ := List.mem_flatMap.1 hob
      obtain ⟨q, hq, hoq⟩ := List.mem_flatMap.1 hoc
      have hpq := hmeet ⟨b, hb, hp⟩ ⟨c, hc, hq⟩ hop hoq
      subst hpq
      exact hbc (Option.some.inj
        (((h.op_parent p b).2 hp).symm.trans ((h.op_parent p c).2 hq)))

/-- The walk of a module has no repetition. -/
theorem nodup_walk (h : m.Linked) : m.walk.Nodup := h.nodup_walkRegion _ _

/-- The walk of an operation has no repetition. -/
theorem nodup_walkOp (h : m.Linked) (o : OpId) : (m.walkOp o).Nodup :=
  h.nodup_cons_walkRegions (h.nodup_walkRegion _) o

/-- The walk of an operation lists what is inside it. -/
theorem mem_walkOp_iff (h : m.Linked) {o id : OpId} :
    o ∈ m.walkOp id ↔ m.Inside o id := by
  rw [walkOp, List.mem_cons, List.mem_flatMap]
  constructor
  · rintro (rfl | ⟨r, hr, ho⟩)
    · exact .refl
    · obtain ⟨q, hq, hoq⟩ := h.mem_walkRegion_iff.1 ho
      exact hoq.tail (h.up_of_standsIn hq hr)
  · intro ho
    rcases Relation.ReflTransGen.cases_tail ho with rfl | ⟨q, hoq, hup⟩
    · exact .inl rfl
    · obtain ⟨r, hr, hq⟩ := h.exists_standsIn_of_up hup
      exact .inr ⟨r, hr, h.mem_walkRegion_iff.2 ⟨q, hq, hoq⟩⟩

/-! ## Upwards -/

/-- An operation whose way up ends at the body is nested in an operation of the body.

**Proof sketch.** Induction on the steps of the climb: it ends at the body, or goes on from the
operation around. -/
theorem exists_root_of_isAttachedWithin (h : m.Linked) {k : Nat} {o : OpId}
    (ho : m.isAttachedWithin k o = true) : ∃ q, m.StandsIn q body ∧ m.Inside o q := by
  induction k generalizing o with
  | zero => cases ho
  | succ k ih =>
    rw [isAttachedWithin] at ho
    split at ho
    · cases ho
    · rename_i b hb
      dsimp only at ho
      split at ho
      · rename_i hbody
        exact ⟨o, hbody ▸ h.standsIn_of_parent hb, .refl⟩
      · split at ho
        · rename_i p hp
          obtain ⟨q, hq, hpq⟩ := ih ho
          exact ⟨q, hq, hpq.head (up_iff.2 ⟨b, hb, hp⟩)⟩
        · cases ho

/-- The way up from an operation nested in one of the body ends at the body, in as many steps as
there are ancestors.

**Proof sketch.** Induction on the chain from the operation outwards.  Each link takes one step
of the climb and one ancestor off the list; the last operation stands in the body. -/
theorem isAttachedWithin_of_root (h : m.Linked) {o q : OpId} (hq : m.StandsIn q body)
    (hoq : m.Inside o q) {k : Nat} (hk : (m.ancestors o).length < k) :
    m.isAttachedWithin k o = true := by
  induction hoq using Relation.ReflTransGen.head_induction_on generalizing k with
  | refl =>
    obtain ⟨k, rfl⟩ := Nat.exists_eq_succ_of_ne_zero (Nat.ne_zero_of_lt hk)
    obtain ⟨b, hb, hqb⟩ := hq
    have hbody : (m.block b).parent = body := (h.block_parent b body (h.blocks_lt _ b hb)).2 hb
    simp [isAttachedWithin, (h.op_parent q b).2 hqb, hbody]
  | @head o p hup _ ih =>
    obtain ⟨k, rfl⟩ := Nat.exists_eq_succ_of_ne_zero (Nat.ne_zero_of_lt hk)
    have hparent : m.parentOp? o = some p := hup
    rw [h.ancestors_eq o, hparent, List.length_cons] at hk
    obtain ⟨b, hb, howner⟩ := up_iff.1 hup
    have hne : (m.block b).parent ≠ body := by
      intro hbody
      rw [hbody, h.body_parent] at howner
      cases howner
    simp only [isAttachedWithin, hb, hne, ↓reduceIte, howner]
    exact ih (Nat.lt_of_succ_lt_succ hk)

/-- **The two directions agree**: the walk of a module lists the operations from which the way up
ends at the body. -/
theorem mem_walk_iff (h : m.Linked) {o : OpId} : o ∈ m.walk ↔ m.isAttached o = true := by
  rw [walk, h.mem_walkRegion_iff]
  refine ⟨?_, h.exists_root_of_isAttachedWithin⟩
  rintro ⟨q, hq, hoq⟩
  exact h.isAttachedWithin_of_root hq hoq (h.length_ancestors_lt o)

/-- An operation belongs to the tree if it is inside one that stands in the body. -/
theorem isAttached_iff (h : m.Linked) {o : OpId} :
    m.isAttached o = true ↔ ∃ q, m.StandsIn q body ∧ m.Inside o q := by
  rw [← h.mem_walk_iff, walk, h.mem_walkRegion_iff]

/-- What is around an operation of the tree belongs to the tree. -/
theorem isAttached_of_up (h : m.Linked) {o p : OpId} (ho : m.isAttached o = true)
    (hup : m.Up o p) : m.isAttached p = true := by
  obtain ⟨q, hq, hoq⟩ := h.isAttached_iff.1 ho
  rcases Relation.ReflTransGen.cases_head hoq with rfl | ⟨p', hup', hp'⟩
  · have hnone : m.parentOp? o = none := (h.parentOp?_of_standsIn hq).trans h.body_parent
    cases hnone.symm.trans hup
  · obtain rfl := rightUnique_up hup hup'
    exact h.isAttached_iff.2 ⟨q, hq, hp'⟩

/-- What is around an operation of the tree, at any distance, belongs to the tree. -/
theorem isAttached_of_inside (h : m.Linked) {o p : OpId} (ho : m.isAttached o = true)
    (hop : m.Inside o p) : m.isAttached p = true := by
  induction hop with
  | refl => exact ho
  | tail _ hup ih => exact h.isAttached_of_up ih hup

/-- An operation of the tree with nothing around it stands in the body. -/
theorem standsIn_body (h : m.Linked) {o : OpId} (ho : m.isAttached o = true)
    (hnone : m.parentOp? o = none) : m.StandsIn o body := by
  obtain ⟨q, hq, hoq⟩ := h.isAttached_iff.1 ho
  rcases Relation.ReflTransGen.cases_head hoq with rfl | ⟨p, hup, -⟩
  · exact hq
  · cases hnone.symm.trans hup

/-- Operations that stand where they stood belong to the tree only if they did before.

**Proof sketch.** Induction on the chain in `n` from the operation outwards.  Every link of it
was a link in `m`, since operations, blocks and regions that were there have the places they had. -/
theorem isAttached_of_isAttached {n : Module} (h : m.Linked) (hn : n.Linked)
    (hop : ∀ o b, o.index < m.ops.size → (n.op o).parent = some b → (m.op o).parent = some b)
    (hblock : ∀ b : BlockId, b.index < m.blocks.size → (n.block b).parent = (m.block b).parent)
    (hregion : ∀ r : RegionId, r.index < m.regions.size →
      (n.region r).parent = (m.region r).parent)
    {o : OpId} (hlt : o.index < m.ops.size) (ho : n.isAttached o = true) :
    m.isAttached o = true := by
  obtain ⟨q, hq, hoq⟩ := hn.isAttached_iff.1 ho
  induction hoq using Relation.ReflTransGen.head_induction_on with
  | refl =>
    obtain ⟨b, hb, hqb⟩ := hq
    have hparent := hop q b hlt ((hn.op_parent q b).2 hqb)
    have hbody : (m.block b).parent = body := by
      rw [← hblock b (h.block_lt hparent)]
      exact (hn.block_parent b body (hn.blocks_lt _ b hb)).2 hb
    exact h.isAttached_iff.2 ⟨q, hbody ▸ h.standsIn_of_parent hparent, .refl⟩
  | @head o p hup _ ih =>
    obtain ⟨b, hb, howner⟩ := up_iff.1 hup
    have hparent := hop o b hlt hb
    have hblt := h.block_lt hparent
    rw [hblock b hblt, hregion _ (h.parent_lt hblt)] at howner
    obtain ⟨q, hq, hpq⟩ :=
      h.isAttached_iff.1 (ih (h.owner_lt howner) (hn.isAttached_of_up ho hup))
    exact h.isAttached_iff.2 ⟨q, hq, hpq.head (up_iff.2 ⟨b, hparent, howner⟩)⟩

/-! ## Results and places -/

/-- A value is a result of one operation only. -/
theorem eq_of_mem_results (h : m.Linked) {o p : OpId} {v : ValueId}
    (ho : v ∈ (m.op o).results) (hp : v ∈ (m.op p).results) : o = p := by
  have hlt := h.results_lt p v hp
  obtain ⟨i, hi⟩ := List.getElem?_of_mem ho
  obtain ⟨j, hj⟩ := List.getElem?_of_mem hp
  have horigin := (h.result_origin v o i hlt).2 hi
  rw [(h.result_origin v p j hlt).2 hj] at horigin
  exact (ValueDef.result.inj horigin).1.symm

/-- A result of an operation is no argument of a block. -/
theorem notMem_args_of_mem_results (h : m.Linked) {o : OpId} {v : ValueId}
    (ho : v ∈ (m.op o).results) (b : BlockId) : v ∉ (m.block b).args := by
  intro harg
  have hlt := h.results_lt o v ho
  obtain ⟨i, hi⟩ := List.getElem?_of_mem ho
  obtain ⟨j, hj⟩ := List.getElem?_of_mem harg
  have horigin := (h.result_origin v o i hlt).2 hi
  rw [(h.arg_origin v b j hlt).2 hj] at horigin
  cases horigin

/-- The place of an operation is the number of those before it. -/
theorem indexOf?_eq (h : m.Linked) {id : OpId} {b : BlockId} {before behind : List OpId}
    (hops : (m.block b).ops = before ++ id :: behind) : m.indexOf? id = some before.length := by
  have hnodup := h.ops_nodup b
  have hparent : (m.op id).parent = some b := (h.op_parent id b).2 (by simp [hops])
  rw [hops] at hnodup
  have hnot : id ∉ before := fun hmem =>
    (List.nodup_append.1 hnodup).2.2 id hmem id (List.mem_cons_self ..) rfl
  rw [indexOf?, hparent, Option.bind_some, hops, List.idxOf?_eq_some_iff]
  refine ⟨by simp, by simp, fun j hj hmem => ?_⟩
  rw [List.getElem_append_left hj] at hmem
  exact hnot (hmem ▸ List.getElem_mem hj)

end Linked

/-- An operation of the tree stands in a block. -/
theorem exists_parent_of_isAttached {o : OpId} (ho : m.isAttached o = true) :
    ∃ b, (m.op o).parent = some b := by
  rw [isAttached, depthBound, isAttachedWithin] at ho
  split at ho
  · cases ho
  · exact ⟨_, ‹_›⟩

/-- What belongs to the tree is in the arena. -/
theorem op_lt_of_isAttached {o : OpId} (ho : m.isAttached o = true) : o.index < m.ops.size := by
  obtain ⟨b, hb⟩ := exists_parent_of_isAttached ho
  exact op_lt_of_parent hb

/-- What a walk comes to is in the arena. -/
theorem Linked.op_lt_of_mem_walk (h : m.Linked) : ∀ o ∈ m.walk, o.index < m.ops.size :=
  fun _ ho => op_lt_of_isAttached (h.mem_walk_iff.1 ho)

/-! ## Symbols and scopes -/

/-- A symbol that is found in a region stands there and goes by the name. -/
theorem standsIn_of_symbolIn? {r : RegionId} {name : String} {f : OpId}
    (h : m.symbolIn? r name = some f) :
    m.StandsIn f r ∧ (m.kind f).isSymbol = true ∧ m.symName? f = some name := by
  rw [symbolIn?] at h
  obtain ⟨⟨g, x⟩, hfound, rfl⟩ := Option.map_eq_some_iff.1 h
  have hx : x = name := by simpa using List.find?_some hfound
  obtain ⟨b, hb, hmem⟩ := List.mem_flatMap.1 (List.mem_of_find?_eq_some hfound)
  obtain ⟨o, ho, hsome⟩ := List.mem_filterMap.1 hmem
  split at hsome
  · rename_i hsymbol
    obtain ⟨y, hy, heq⟩ := Option.map_eq_some_iff.1 hsome
    cases heq
    exact ⟨⟨b, hb, ho⟩, hsymbol, hx ▸ hy⟩
  · cases hsome

/-- **Where a visible symbol stands**: directly in a scope around the operation, or in the body. -/
theorem Linked.lookup?_cases (hm : m.Linked) {o f : OpId} {name : String}
    (h : m.lookup? o name = some f) :
    (m.kind f).isSymbol = true ∧ m.symName? f = some name ∧ (m.StandsIn f body ∨
      ∃ c, m.Up f c ∧ (m.kind c).isSymbolTable = true ∧ m.Inside o c) := by
  rw [lookup?, Option.or_eq_some_iff] at h
  rcases h with hscope | ⟨-, htop⟩
  · obtain ⟨c, hc, hfound⟩ := List.exists_of_findSome?_eq_some hscope
    obtain ⟨r, hr, hfound⟩ := List.exists_of_findSome?_eq_some hfound
    obtain ⟨hstands, hsymbol, hname⟩ := standsIn_of_symbolIn? hfound
    obtain ⟨hc, htable⟩ := List.mem_filter.1 hc
    exact ⟨hsymbol, hname, .inr ⟨c, hm.up_of_standsIn hstands hr, htable,
      hm.mem_ancestors_iff.1 (List.mem_cons_of_mem o hc)⟩⟩
  · obtain ⟨hstands, hsymbol, hname⟩ := standsIn_of_symbolIn? htop
    exact ⟨hsymbol, hname, .inl hstands⟩

/-- Outside of all scopes a name means what the body declares. -/
theorem lookup?_eq_lookupTop? {o : OpId} (h : ∀ a ∈ m.ancestors o, (m.kind a).isSymbolTable = false)
    (name : String) : m.lookup? o name = m.lookupTop? name := by
  have hscopes : (m.ancestors o).filter (fun a => (m.kind a).isSymbolTable) = [] :=
    List.filter_eq_nil_iff.2 fun a ha => Bool.eq_false_iff.1 (h a ha)
  rw [lookup?, hscopes]
  rfl

end Module

end ContractIR
