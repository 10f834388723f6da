import ContractIR.Module.Rewrite
import ContractIR.Proofs.Module.Nesting
import ContractIR.Proofs.Module.Placement
import ContractIR.Proofs.Outcome

/-!
# Links when a module is rewritten

Replacing, erasing and moving operations keeps the links of a module, also where a step fails.

## Main definitions

* `ContractIR.leave`, `ContractIR.Preserves` — what a step leaves behind, and what it keeps.
* `ContractIR.Module.around` — the operations around a region.

## Main results

* `ContractIR.Module.run_eraseOp`, `run_placeOp`, `run_moveBefore` — the steps as equations.
* `ContractIR.Module.eq_of_eraseOp`, `eq_of_placeOp`, `eq_of_moveBefore` — what success leads to.
* `ContractIR.Module.Linked.move`, `foldl_moveToEnd`, `leave_moveBefore` — moving operations.
* `ContractIR.Module.Linked.replaceUses` — replacing values.
* `ContractIR.Module.preserves_eraseOp`, `preserves_replaceOp` — steps that may fail.
-/

set_option autoImplicit false

namespace ContractIR

/-! ## What steps leave behind -/

section Leave

variable {ε σ α β : Type} {P : σ → Prop}

/-- The state that a step leaves behind, whether it succeeds or fails. -/
def leave (x : EStateM ε σ α) (s : σ) : σ :=
  match x.run s with
  | .ok _ t => t
  | .error _ t => t

/-- What holds before a step holds for what it leaves behind. -/
def Preserves (P : σ → Prop) (x : EStateM ε σ α) : Prop := ∀ s, P s → P (leave x s)

/-- What two steps leave behind. -/
theorem leave_bind (x : EStateM ε σ α) (f : α → EStateM ε σ β) (s : σ) :
    leave (x >>= f) s =
      match x.run s with
      | .ok a t => leave (f a) t
      | .error _ t => t := by
  unfold leave
  rw [EStateM.run_bind]
  cases x.run s <;> rfl

/-- A step after the state was set. -/
theorem leave_set_bind (t s : σ) (f : PUnit → EStateM ε σ α) :
    leave (set t >>= f) s = leave (f ⟨⟩) t := rfl

namespace Preserves

/-- An answer keeps every property of the state. -/
theorem pure (a : α) : Preserves P (pure a : EStateM ε σ α) := fun _ hs => hs

/-- A failure keeps every property of the state. -/
theorem throw (e : ε) : Preserves P (throw e : EStateM ε σ α) := fun _ hs => hs

/-- One step after another one. -/
theorem bind {x : EStateM ε σ α} {f : α → EStateM ε σ β} (hx : Preserves P x)
    (hf : ∀ a, Preserves P (f a)) : Preserves P (x >>= f) := by
  intro s hs
  have hxs := hx s hs
  rw [leave_bind]
  unfold leave at hxs
  cases hrun : x.run s with
  | ok a t =>
    rw [hrun] at hxs
    exact hf a t hxs
  | error e t =>
    rw [hrun] at hxs
    exact hxs

/-- A step that looks at the state first. -/
theorem get_bind {f : σ → EStateM ε σ α} (hf : ∀ s, P s → P (leave (f s) s)) :
    Preserves P (get >>= f) := hf

/-- A change keeps a property if its function does. -/
theorem modify {f : σ → σ} (hf : ∀ s, P s → P (f s)) :
    Preserves P (modify f : EStateM ε σ PUnit) := hf

/-- A choice of two steps keeps what both of them keep. -/
theorem ite {p : Prop} [Decidable p] {x y : EStateM ε σ α} (hx : Preserves P x)
    (hy : Preserves P y) : Preserves P (if p then x else y) := by
  split
  · exact hx
  · exact hy

end Preserves

end Leave

/-! ## Rewriting -/

namespace Module

/-! ## The steps as equations -/

section Steps

variable {n : Module} {id anchor : OpId}

/-- Erasing an operation: a use from outside is reported, and then nothing is changed. -/
theorem run_eraseOp (m : Module) (id : OpId) :
    (eraseOp id).run m =
      match m.outsideUse? (m.walkOp id) with
      | some (inner, v, user) =>
        .error (.instruction (.stillUsed (m.kind inner) v (m.kind user))) m
      | none => .ok () (m.detachOp id) := by
  rw [eraseOp, Outcome.run_get_bind]
  cases m.outsideUse? (m.walkOp id) <;> rfl

/-- Putting an operation into a block: one that stands in a block is reported, and then nothing is
changed. -/
theorem run_placeOp (m : Module) (b : BlockId) (index : Option Nat) (id : OpId) :
    (placeOp b index id).run m =
      match (m.op id).parent with
      | some _ => .error (.alreadyPlaced id) m
      | none => .ok () (m.insertOp b index id) := by
  rw [placeOp, Outcome.run_get_bind]
  cases (m.op id).parent <;> rfl

/-- Moving an operation: a place that stands in no block is reported, and then nothing is
changed. -/
theorem run_moveBefore (m : Module) (id anchor : OpId) :
    (moveBefore id anchor).run m =
      match (m.op anchor).parent with
      | none => .error (.instruction (.detachedAnchor anchor)) m
      | some b =>
        .ok () ((m.detachOp id).insertOp b ((m.detachOp id).indexOf? anchor) id) := by
  rw [moveBefore, Outcome.run_get_bind]
  cases (m.op anchor).parent <;> rfl

variable {m : Module}

/-- An operation that is erased is taken out of its block. -/
theorem eq_of_eraseOp (h : (eraseOp id).run m = .ok () n) : n = m.detachOp id := by
  rw [run_eraseOp] at h
  split at h <;> cases h
  rfl

/-- An operation that is put into a block stood in none. -/
theorem eq_of_placeOp {b : BlockId} {index : Option Nat}
    (h : (placeOp b index id).run m = .ok () n) :
    (m.op id).parent = none ∧ n = m.insertOp b index id := by
  rw [run_placeOp] at h
  split at h <;> cases h
  exact ⟨‹_›, rfl⟩

/-- An operation that is moved before another one is put into the block of that one. -/
theorem eq_of_moveBefore (h : (moveBefore id anchor).run m = .ok () n) :
    ∃ b, (m.op anchor).parent = some b ∧
      n = (m.detachOp id).insertOp b ((m.detachOp id).indexOf? anchor) id := by
  rw [run_moveBefore] at h
  split at h <;> cases h
  exact ⟨_, ‹_›, rfl⟩

end Steps

/-! ## The operations around a region -/

/-- The operations around a region, nearest first. -/
def around (m : Module) (r : RegionId) : List OpId :=
  match (m.region r).parent with
  | some o => o :: m.ancestors o
  | none => []

namespace Linked

variable {m : Module}

/-- The operations around a region are those that the region is inside of. -/
theorem mem_around_iff (h : m.Linked) {r : RegionId} {p : OpId} :
    p ∈ m.around r ↔ m.RegionInside r p := by
  unfold around RegionInside
  cases hr : (m.region r).parent with
  | none => simp
  | some o => simp only [h.mem_ancestors_iff, Option.some.injEq, exists_eq_left']

/-! ## Moving operations -/

/-- Nothing gets inside an operation when one is taken out of its block. -/
theorem regionInside_of_detachOp {id : OpId} {r : RegionId} {p : OpId}
    (h : (m.detachOp id).RegionInside r p) : m.RegionInside r p := by
  obtain ⟨o, ho, hop⟩ := h
  rw [region_detachOp] at ho
  refine ⟨o, ho, Relation.ReflTransGen.mono (fun x y hxy => ?_) _ _ hop⟩
  obtain ⟨b, hb, howner⟩ := up_iff.1 hxy
  rw [region_detachOp, block_detachOp] at howner
  rw [op_detachOp] at hb
  split at hb
  · cases hb
  · refine up_iff.2 ⟨b, hb, ?_⟩
    split at howner <;> exact howner

/-- **Moving an operation keeps the links**, unless it is moved into itself. -/
theorem move (h : m.Linked) {id : OpId} (hid : id.index < m.ops.size) {b : BlockId}
    (hb : b.index < m.blocks.size) (hinside : ¬m.RegionInside (m.block b).parent id)
    (index : Option Nat) : ((m.detachOp id).insertOp b index id).Linked := by
  have hparent : ((m.detachOp id).block b).parent = (m.block b).parent := by
    rw [block_detachOp]
    split <;> rfl
  refine (h.detachOp id).insertOp (by simpa using hb) index (by simpa using hid) ?_ ?_
  · rw [op_detachOp, if_pos rfl]
  · rw [hparent]
    exact fun hin => hinside (regionInside_of_detachOp hin)

/-- What a block is inside of stays the same when operations are moved into the block.

**Proof sketch.** Induction on the chain outwards from the block.  It never meets the operation
that is moved, because the block is not inside it, so every step is one of before. -/
theorem regionInside_of_moveToEnd {id : OpId} {b : BlockId}
    (hinside : ¬m.RegionInside (m.block b).parent id) {p : OpId}
    (hp : (m.moveToEnd id b).RegionInside (m.block b).parent p) :
    m.RegionInside (m.block b).parent p := by
  obtain ⟨c, hc, hcp⟩ := hp
  rw [moveToEnd, region_insertOp, region_detachOp] at hc
  refine ⟨c, hc, ?_⟩
  -- on the way out from the block the moved operation is never met
  induction hcp with
  | refl => exact .refl
  | @tail x y _ hxy ih =>
    refine ih.tail ?_
    have hne : x ≠ id := by
      rintro rfl
      exact hinside ⟨c, hc, ih⟩
    obtain ⟨d, hd, howner⟩ := up_iff.1 hxy
    rw [moveToEnd, op_insertOp, if_neg fun hx => hne hx.1, op_detachOp, if_neg hne] at hd
    refine up_iff.2 ⟨d, hd, ?_⟩
    rw [moveToEnd, region_insertOp, region_detachOp, block_insertOp, block_detachOp] at howner
    split at howner <;> split at howner <;> exact howner

/-- **Moving some operations of a block keeps the links**, unless one is moved into itself. -/
theorem foldl_moveToEnd (h : m.Linked) {b : BlockId} (hb : b.index < m.blocks.size)
    (ids : List OpId) (hids : ∀ o ∈ ids, o.index < m.ops.size)
    (hinside : ∀ o ∈ ids, ¬m.RegionInside (m.block b).parent o) :
    (ids.foldl (fun n o => n.moveToEnd o b) m).Linked := by
  induction ids generalizing m with
  | nil => exact h
  | cons id ids ih =>
    have hid := hinside id List.mem_cons_self
    have hparent : ((m.moveToEnd id b).block b).parent = (m.block b).parent := by
      rw [moveToEnd, block_insertOp, block_detachOp]
      split <;> split <;> rfl
    rw [List.foldl_cons]
    refine ih (h.move (hids id List.mem_cons_self) hb hid none) (by simpa [moveToEnd] using hb)
      (fun o ho => ?_) (fun o ho => ?_)
    · simpa [moveToEnd] using hids o (List.mem_cons_of_mem _ ho)
    · rw [hparent]
      exact fun hin => hinside o (List.mem_cons_of_mem _ ho) (regionInside_of_moveToEnd hid hin)

/-- Moving an operation before another one keeps the links, unless it is moved into itself; without
a place to move to it stays where it is. -/
theorem leave_moveBefore (h : m.Linked) {id anchor : OpId} (hid : id.index < m.ops.size)
    (hinside : ∀ b ∈ (m.op anchor).parent, ¬m.RegionInside (m.block b).parent id) :
    (leave (moveBefore id anchor) m).Linked ∧
      (leave (moveBefore id anchor) m).blocks.size = m.blocks.size := by
  rw [leave, run_moveBefore]
  cases hanchor : (m.op anchor).parent with
  | none => exact ⟨h, rfl⟩
  | some b =>
    refine ⟨h.move hid (h.block_lt hanchor) (hinside b hanchor) _, ?_⟩
    show (((m.detachOp id).insertOp b ((m.detachOp id).indexOf? anchor) id)).blocks.size = _
    simp

/-! ## Replacing values -/

/-- Operations get operands that exist. -/
theorem foldl_replace (h : m.Linked) {old new : ValueId} (hnew : new.index < m.values.size)
    (ids : List OpId) :
    (ids.foldl
      (fun n o => n.modifyOp o fun x =>
        { x with operands := x.operands.map fun v => if v = old then new else v }) m).Linked := by
  induction ids generalizing m with
  | nil => exact h
  | cons id ids ih =>
    rw [List.foldl_cons]
    refine ih (h.modifyOp id (fun _ => rfl) (fun _ => rfl) (fun _ => rfl) fun v hv => ?_) hnew
    obtain ⟨w, hw, rfl⟩ := List.mem_map.1 hv
    split
    · exact hnew
    · exact h.operands_lt id w hw

/-- **Replacing a value by one that exists keeps the links.** -/
theorem replaceUses (h : m.Linked) (old : ValueId) {new : ValueId}
    (hnew : new.index < m.values.size) : (m.replaceUses old new).Linked :=
  h.foldl_replace hnew m.walk

end Linked

/-! ## Sizes -/

section Sizes

variable (m : Module)

/-- Replacing values creates nothing. -/
theorem size_replaceUses (old new : ValueId) :
    (m.replaceUses old new).ops.size = m.ops.size ∧
      (m.replaceUses old new).blocks.size = m.blocks.size ∧
      (m.replaceUses old new).values.size = m.values.size := by
  unfold replaceUses
  generalize m.walk = ids
  induction ids generalizing m with
  | nil => exact ⟨rfl, rfl, rfl⟩
  | cons id ids ih =>
    rw [List.foldl_cons]
    simpa using ih (m.modifyOp id fun x =>
      { x with operands := x.operands.map fun v => if v = old then new else v })

/-- Moving operations creates nothing. -/
theorem size_foldl_moveToEnd (b : BlockId) (ids : List OpId) :
    (ids.foldl (fun n o => n.moveToEnd o b) m).blocks.size = m.blocks.size := by
  induction ids generalizing m with
  | nil => rfl
  | cons id ids ih =>
    rw [List.foldl_cons, ih]
    simp [moveToEnd]

end Sizes

/-! ## Steps that may fail -/

/-- The links of a module agree, and it has at least so many blocks and values. -/
structure LinkedWith (blocks values : Nat) (m : Module) : Prop where
  linked : m.Linked
  blocks_le : blocks ≤ m.blocks.size
  values_le : values ≤ m.values.size

variable {blocks values : Nat}

/-- Taking an operation out of its block. -/
theorem LinkedWith.detachOp {m : Module} (h : m.LinkedWith blocks values) (id : OpId) :
    (m.detachOp id).LinkedWith blocks values :=
  ⟨h.linked.detachOp id, by simpa using h.blocks_le, by simpa using h.values_le⟩

/-- Replacing several values. -/
theorem LinkedWith.foldl_replaceUses {m : Module} (h : m.LinkedWith blocks values)
    (pairs : List (ValueId × ValueId)) (hnew : ∀ p ∈ pairs, p.2.index < values) :
    (pairs.foldl (fun n p => n.replaceUses p.1 p.2) m).LinkedWith blocks values := by
  induction pairs generalizing m with
  | nil => exact h
  | cons p pairs ih =>
    rw [List.foldl_cons]
    obtain ⟨_, hblocks, hvalues⟩ := size_replaceUses m p.1 p.2
    have hp := hnew p List.mem_cons_self
    refine ih ⟨h.linked.replaceUses p.1 (Nat.lt_of_lt_of_le hp h.values_le), ?_, ?_⟩
      fun q hq => hnew q (List.mem_cons_of_mem _ hq)
    · rw [hblocks]
      exact h.blocks_le
    · rw [hvalues]
      exact h.values_le

/-- Erasing an operation keeps the links. -/
theorem preserves_eraseOp (id : OpId) : Preserves (LinkedWith blocks values) (eraseOp id) := by
  refine .get_bind fun m hm => ?_
  cases hfound : m.outsideUse? (m.walkOp id) with
  | some _ => exact hm
  | none => exact hm.detachOp id

/-- Replacing an operation by values that exist keeps the links. -/
theorem preserves_replaceOp (id : OpId) {news : List ValueId}
    (hnews : ∀ v ∈ news, v.index < values) :
    Preserves (LinkedWith blocks values) (replaceOp id news) := by
  refine .get_bind fun m hm => ?_
  dsimp only
  split
  · rw [leave_set_bind]
    refine preserves_eraseOp id _ (hm.foldl_replaceUses _ fun p hp => ?_)
    exact hnews p.2 (List.of_mem_zip hp).2
  · exact hm

end Module

end ContractIR
