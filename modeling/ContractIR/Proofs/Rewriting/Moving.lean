import ContractIR.Proofs.Rewriting.Failures

/-!
# Moving an operation before another one

An operation that is moved before another one is taken out of its block first, and the place of the
other one is looked up after that.  So it does not matter whether both stood in one block, nor which
of them came first: no list changes its order up to the operation that is moved, and this one comes
right before the other one.  The exception is an operation that is moved before itself.  It has no
place any more when this place is looked up, so it goes to the end of its block.

## Main definitions

* `ContractIR.Module.others` — what a block lists, without one operation.

## Main results

* `ContractIR.Module.Linked.block_move`, `others_move` — the blocks after a move.
* `ContractIR.Module.Linked.placeAt_indexOf?` — the place before another operation.
* `ContractIR.Module.moveBefore_keeps_order` — what a move changes, and what it keeps.
-/

set_option autoImplicit false

namespace ContractIR

namespace Module

/-- What a block lists, without one operation. -/
def others (m : Module) (id : OpId) (b : BlockId) : List OpId :=
  (m.block b).ops.filter fun o => decide (o ≠ id)

variable {m : Module} {id anchor : OpId} {b : BlockId}

/-- The operation that is left out is not listed. -/
theorem notMem_others : id ∉ m.others id b := by
  rw [others, List.mem_filter]
  rintro ⟨-, hne⟩
  exact of_decide_eq_true hne rfl

/-- A list without the operation is not changed when the operation is left out. -/
theorem filter_ne_eq_self {ops : List OpId} (hid : id ∉ ops) :
    ops.filter (fun o => decide (o ≠ id)) = ops :=
  List.filter_eq_self.2 fun _ ho => decide_eq_true fun heq => hid (heq ▸ ho)

/-- Putting an operation into a list keeps the order of the other ones. -/
theorem filter_placeAt {ops : List OpId} (hid : id ∉ ops) (index : Option Nat) :
    (placeAt index id ops).filter (fun o => decide (o ≠ id)) = ops := by
  have hout : ∀ l : List OpId, (id :: l).filter (fun o => decide (o ≠ id)) =
      l.filter fun o => decide (o ≠ id) :=
    fun l => List.filter_cons_of_neg (by simp)
  have hplaced : (placeAt index id ops).filter (fun o => decide (o ≠ id)) =
      ops.filter fun o => decide (o ≠ id) := by
    cases index with
    | none => rw [placeAt, List.filter_append, hout, List.filter_nil, List.append_nil]
    | some i =>
      rw [placeAt, List.filter_append, hout, ← List.filter_append, List.take_append_drop]
  rw [hplaced, filter_ne_eq_self hid]

/-- The region of an operation is inside another one exactly if the operation is nested in it. -/
theorem regionInside_iff_transGen (hb : (m.op anchor).parent = some b) {p : OpId} :
    m.RegionInside (m.block b).parent p ↔ Relation.TransGen m.Up anchor p := by
  rw [Relation.TransGen.head'_iff]
  constructor
  · rintro ⟨o, ho, hop⟩
    exact ⟨o, up_iff.2 ⟨b, hb, ho⟩, hop⟩
  · rintro ⟨o, hup, hop⟩
    obtain ⟨c, hc, ho⟩ := up_iff.1 hup
    obtain rfl : b = c := Option.some.inj (hb.symm.trans hc)
    exact ⟨o, ho, hop⟩

namespace Linked

/-- The blocks after an operation was taken out and put into one of them. -/
theorem block_move (h : m.Linked) (hb : m.HasBlock b) (index : Option Nat) (x : BlockId) :
    ((m.detachOp id).insertOp b index id).block x =
      { m.block x with
        ops := if x = b then placeAt index id (m.others id x) else m.others id x } := by
  have hdetached : (m.detachOp id).block x = { m.block x with ops := m.others id x } := by
    rw [others, ← h.ops_detachOp, block_detachOp]
    split <;> rfl
  rw [block_insertOp, size_blocks_detachOp, hdetached]
  by_cases hx : x = b
  · rw [if_pos ⟨hx, hb⟩, if_pos hx]
  · rw [if_neg fun hand => hx hand.1, if_neg hx]

/-- **Moving an operation keeps the order of all other ones.** -/
theorem others_move (h : m.Linked) (hb : m.HasBlock b) (index : Option Nat) (x : BlockId) :
    ((m.detachOp id).insertOp b index id).others id x = m.others id x := by
  rw [others, h.block_move hb]
  dsimp only
  split
  · exact filter_placeAt notMem_others index
  · exact filter_ne_eq_self notMem_others

/-- **The place before another operation**, which is looked up when the operation to move has been
taken out, is right before the other one in its block. -/
theorem placeAt_indexOf? (h : m.Linked) (hb : (m.op anchor).parent = some b) (hne : id ≠ anchor) :
    ∃ before behind, m.others id b = before ++ anchor :: behind ∧
      placeAt ((m.detachOp id).indexOf? anchor) id (m.others id b) =
        before ++ id :: anchor :: behind := by
  have hmem : anchor ∈ m.others id b :=
    List.mem_filter.2 ⟨(h.op_parent anchor b).1 hb, decide_eq_true hne.symm⟩
  obtain ⟨before, behind, hothers⟩ := List.append_of_mem hmem
  have hindex : (m.detachOp id).indexOf? anchor = some before.length :=
    (h.detachOp id).indexOf?_eq ((h.ops_detachOp id b).trans hothers)
  refine ⟨before, behind, hothers, ?_⟩
  rw [hothers]
  exact placeAt_append id (.inl hindex)

/-- The last operation of a block is the one that can be taken out and put at the end without any
change. -/
theorem others_append_self_iff (h : m.Linked) :
    m.others id b ++ [id] = (m.block b).ops ↔ (m.block b).ops.getLast? = some id := by
  constructor
  · intro heq
    rw [← heq, List.getLast?_concat]
  · intro hlast
    obtain ⟨before, hops⟩ := List.getLast?_eq_some_iff.1 hlast
    have hnot : id ∉ before := by
      have hnodup := h.ops_nodup b
      rw [hops] at hnodup
      exact fun hmem => (List.nodup_append.1 hnodup).2.2 id hmem id (List.mem_singleton_self id) rfl
    rw [others, hops, List.filter_append, filter_ne_eq_self hnot]
    simp

end Linked

/-- An operation that was taken out of its block has no place. -/
theorem indexOf?_detachOp_self : (m.detachOp id).indexOf? id = none := by
  rw [indexOf?, op_detachOp, if_pos rfl, Option.bind_none]

/-- **What moving an operation before another one does.**  It succeeds where the other one stands in
a block `b`.  Every block lists its other operations in the order in which it listed them, and no
other block than `b` lists the operation.  The operation comes right before the other one.  If it
was to be moved before itself, however, it comes at the end of `b`; this is no change only if it was
the last one there.  The links of the module agree, unless the operation was moved into itself.

**Proof sketch.** The operation is left out of all lists and then put into the list of `b`, which
keeps the order of the other ones (`others_move`).  The place is looked up in between: it is that of
the other operation (`placeAt_indexOf?`), and there is none for an operation that was just taken out
(`indexOf?_detachOp_self`). -/
theorem moveBefore_keeps_order (hm : m.Linked) (hid : m.HasOp id)
    (hb : (m.op anchor).parent = some b) :
    ∃ n, (moveBefore id anchor).run m = .ok () n ∧
      (∀ x, n.others id x = m.others id x) ∧
      (n.op id).parent = some b ∧ (∀ x, x ≠ b → (n.block x).ops = m.others id x) ∧
      (id ≠ anchor → ∃ before behind, (n.block b).ops = before ++ id :: anchor :: behind) ∧
      (id = anchor → (n.block b).ops = m.others id b ++ [id] ∧
        (n.block b = m.block b ↔ (m.block b).ops.getLast? = some id)) ∧
      (¬Relation.TransGen m.Up anchor id → n.Linked) := by
  have hblock : m.HasBlock b := hm.block_lt hb
  have hrun := run_moveBefore m id anchor
  rw [hb] at hrun
  refine ⟨_, hrun, hm.others_move hblock _, ?_, fun x hx => ?_, fun hne => ?_, ?_, fun hnest => ?_⟩
  · rw [op_insertOp, if_pos ⟨rfl, by rw [size_ops_detachOp]; exact hid⟩]
  · rw [hm.block_move hblock, if_neg hx]
  · obtain ⟨before, behind, -, hplace⟩ := hm.placeAt_indexOf? hb hne
    exact ⟨before, behind, by rw [hm.block_move hblock, if_pos rfl, hplace]⟩
  · rintro rfl
    rw [hm.block_move hblock, if_pos rfl, indexOf?_detachOp_self, ← hm.others_append_self_iff]
    exact ⟨rfl, fun heq => congrArg Block.ops heq, fun heq => by rw [placeAt, heq]⟩
  · exact hm.move hid hblock (fun hin => hnest ((regionInside_iff_transGen hb).1 hin)) _

end Module

/-- Two constants in the body. -/
def twoConstants : Builder :=
  [Command.build (.constant 1 .word), .build (.constant 2 .word)].foldl (fun b c => c.run b)
    (.new (.new .unknown))

/-- The module of the example is built by valid commands. -/
theorem linked_twoConstants : twoConstants.ir.Linked :=
  ((Builder.Reachable.new .unknown).foldl (by decide +kernel)).sound.linked

/-- The second constant goes before the first one. -/
theorem twoConstants_moved :
    twoConstants.ir.Linked ∧ twoConstants.ir.topLevel = [⟨0⟩, ⟨1⟩] ∧
      ∃ n, (Module.moveBefore ⟨1⟩ ⟨0⟩).run twoConstants.ir = .ok () n ∧
        ∃ before behind, (n.block ⟨0⟩).ops = before ++ ⟨1⟩ :: ⟨0⟩ :: behind := by
  refine ⟨linked_twoConstants, by decide +kernel, ?_⟩
  have hsecond : twoConstants.ir.HasOp ⟨1⟩ := by decide +kernel
  have hparent : (twoConstants.ir.op ⟨0⟩).parent = some ⟨0⟩ := by decide +kernel
  obtain ⟨n, hrun, -, -, -, hplaced, -⟩ :=
    Module.moveBefore_keeps_order linked_twoConstants hsecond hparent
  exact ⟨n, hrun, hplaced (by decide)⟩

/-- The first constant is moved before itself, and then it comes after the second one. -/
theorem twoConstants_swapped :
    twoConstants.ir.Linked ∧ twoConstants.ir.isAttached ⟨0⟩ = true ∧
      ¬Relation.TransGen twoConstants.ir.Up ⟨0⟩ ⟨0⟩ ∧
      (twoConstants.ir.op ⟨0⟩).parent = some ⟨0⟩ ∧
      (twoConstants.ir.block ⟨0⟩).ops = [⟨0⟩, ⟨1⟩] ∧
      ∃ n, (Module.moveBefore ⟨0⟩ ⟨0⟩).run twoConstants.ir = .ok () n ∧
        (n.block ⟨0⟩).ops = [⟨1⟩, ⟨0⟩] := by
  have hparent : (twoConstants.ir.op ⟨0⟩).parent = some ⟨0⟩ := by decide +kernel
  have hrun := Module.run_moveBefore twoConstants.ir ⟨0⟩ ⟨0⟩
  rw [hparent] at hrun
  exact ⟨linked_twoConstants, by decide +kernel, linked_twoConstants.not_transGen_self ⟨0⟩, hparent,
    by decide +kernel, _, hrun, by decide +kernel⟩

end ContractIR
