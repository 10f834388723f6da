import ContractIR.Proofs.Module.Nesting
import ContractIR.Proofs.Module.Rewriting
import ContractIR.Proofs.Typing.Scopes

/-!
# Moving and erasing typed operations

A well-typed module has no use of a value outside the block that defines it.  So an operation
without results can be erased together with everything inside it, and a symbol can move to the
body, and the module stays well-typed.

## Main results

* `ContractIR.Module.WellTyped.run_eraseOp` — an operation without results can be erased.
* `ContractIR.Module.WellTyped.detachOp`, `move` — the module stays well-typed.
* `ContractIR.Module.EndedBut.congr` — blocks stay ended.
-/

set_option autoImplicit false

namespace ContractIR

namespace Module

variable {env : Env} {m n : Module}

/-! ## Erasing operations -/

namespace WellTyped

/-- A result is read by operations of the block that defines it. -/
theorem parent_eq_of_mem_operands (h : m.WellTyped env) {p user : OpId} {b : BlockId} {v : ValueId}
    (huser : (m.op user).parent = some b) (hv : v ∈ (m.op user).operands)
    (hp : v ∈ (m.op p).results) : (m.op p).parent = some b := by
  rcases h.reads user b huser v hv with harg | ⟨q, hq, hsub⟩
  · exact absurd harg (h.toLinked.notMem_args_of_mem_results hp b)
  · obtain rfl := h.toLinked.eq_of_mem_results hq hp
    exact (h.op_parent q b).2 (hsub.subset (by simp))

/-- Nothing outside an operation without results reads what is inside it.

**Proof sketch.** An operation stands beside what it reads from.  So a user of a result inside
has the same operation around it and is inside too, unless the result is one of the operation
itself, which has none. -/
theorem outsideUse?_eq_none (h : m.WellTyped env) {id : OpId} (hid : (m.op id).results = []) :
    m.outsideUse? (m.walkOp id) = none := by
  rw [outsideUse?, List.findSome?_eq_none_iff]
  intro inner hinner
  rw [List.findSome?_eq_none_iff]
  intro v hv
  rw [Option.map_eq_none_iff, List.find?_eq_none]
  intro user huser
  obtain ⟨hwalk, hoperand⟩ := List.mem_filter.1 huser
  obtain ⟨b, hb⟩ := exists_parent_of_isAttached (h.toLinked.mem_walk_iff.1 hwalk)
  have hparent := h.parent_eq_of_mem_operands hb (List.contains_iff_mem.1 hoperand) hv
  have hsame : m.parentOp? user = m.parentOp? inner := by
    rw [parentOp?_eq_owner? hb, parentOp?_eq_owner? hparent]
  rcases Relation.ReflTransGen.cases_head (h.mem_walkOp_iff.1 hinner) with rfl | ⟨p, hup, hp⟩
  · rw [hid] at hv
    cases hv
  · have hinside : m.Inside user id := .head (hsame.trans hup) hp
    simpa using h.mem_walkOp_iff.2 hinside

/-- An operation without results can be erased. -/
theorem run_eraseOp (h : m.WellTyped env) {id : OpId} (hid : (m.op id).results = []) :
    (eraseOp id).run m = .ok () (m.detachOp id) := by
  rw [Module.run_eraseOp, h.outsideUse?_eq_none hid]

/-- A module without one of its operations is well-typed, if the operation has no results.

**Proof sketch.** `of_placement`: an operation that is left stands where it stood, and what
others read is still there, for the one that was dropped has no results. -/
theorem detachOp (h : m.WellTyped env) {id : OpId} (hid : (m.op id).results = []) :
    (m.detachOp id).WellTyped env := by
  refine h.of_placement (h.toLinked.detachOp id) (size_blocks_detachOp _ _) (fun o => ?_)
    (region_detachOp _ _) (value_detachOp _ _) (fun b => ?_) (fun o b hb => .inl ?_)
    fun p o b hp hb hsub => ?_
  · rw [op_detachOp]
    split <;> rfl
  · rw [block_detachOp]
    split <;> exact ⟨rfl, rfl⟩
  · rw [op_detachOp] at hb
    split at hb
    · cases hb
    · exact hb
  · have hpid : p ≠ id := fun heq => hp (heq ▸ hid)
    have hoid : o ≠ id := by
      rintro rfl
      rw [op_detachOp, if_pos rfl] at hb
      cases hb
    exact sublist_detachOp hsub (by simp [hpid.symm, hoid.symm])

/-! ## Moving functions -/

/-- A function moves to the body.

**Proof sketch.** `of_placement`: the function is a symbol without results and comes to the body,
and everything else stays where it stood, in its order.  The body is not inside any operation. -/
theorem move (h : m.WellTyped env) {id : OpId} {b : BlockId} (hb : (m.op id).parent = some b)
    (hkind : (m.kind id).isSymbol = true) (hbody : m.region body = ⟨[⟨0⟩], none⟩)
    (hne : b ≠ ⟨0⟩) (index : Option Nat) :
    ((m.detachOp id).insertOp ⟨0⟩ index id).WellTyped env := by
  have hlt : (0 : Nat) < m.blocks.size := (owner?_body h.toLinked hbody).1
  have hparent : (m.block ⟨0⟩).parent = body :=
    (h.block_parent ⟨0⟩ body hlt).2 (by rw [hbody]; simp)
  have hinside : ¬m.RegionInside (m.block ⟨0⟩).parent id := by
    rintro ⟨o, ho, -⟩
    rw [hparent, hbody] at ho
    cases ho
  refine h.of_placement (h.toLinked.move (op_lt_of_parent hb) hlt hinside index) (by simp)
    (fun o => ?_) (fun r => by simp) (fun v => by simp) (fun x => ?_) (fun o x hx => ?_)
    fun p o x hp hx hsub => ?_
  · rw [op_insertOp, op_detachOp]
    split <;> split <;> rfl
  · rw [block_insertOp, block_detachOp]
    split <;> split <;> exact ⟨rfl, rfl⟩
  · rw [op_insertOp, op_detachOp] at hx
    split at hx
    · next heq =>
      obtain rfl := Option.some.inj hx
      exact .inr ⟨⟨b, heq.1 ▸ hb⟩, heq.1 ▸ hkind, hparent⟩
    · split at hx
      · cases hx
      · exact .inl hx
  · have hpid : p ≠ id := fun heq => hp (heq ▸ ((h.typed id b hb).of_isSymbol hkind).2)
    have hoid : o ≠ id := by
      rintro rfl
      have hx' : (m.op o).parent = some x := (h.op_parent o x).2 (hsub.subset (by simp))
      rw [op_insertOp, if_pos ⟨rfl, by simpa using op_lt_of_parent hb⟩] at hx
      rw [hb] at hx'
      exact hne ((Option.some.inj hx').trans (Option.some.inj hx).symm)
    exact sublist_insertOp (sublist_detachOp hsub (by simp [hpid.symm, hoid.symm]))

end WellTyped

/-- A terminator of an ended block is its last operation. -/
theorem Ended.eq_append {b : BlockId} (h : m.Ended b) {id : OpId} (hid : id ∈ (m.block b).ops)
    (hkind : (m.kind id).isTerminator = true) :
    ∃ init, (m.block b).ops = init ++ [id] ∧ ∀ o ∈ init, (m.kind o).isTerminator = false := by
  obtain ⟨init, last, hops, -, hinit⟩ := h
  rw [hops] at hid
  rcases List.mem_append.1 hid with hid | hid
  · rw [hinit id hid] at hkind
    cases hkind
  · obtain rfl := List.mem_singleton.1 hid
    exact ⟨init, hops, hinit⟩

/-- Blocks of functions stay ended while they list the same operations, up to levels. -/
theorem EndedBut.congr {E : BlockId → Prop} (h : m.EndedBut E)
    (hsize : n.blocks.size = m.blocks.size) (howner : ∀ b, n.owner? b = m.owner? b)
    (hkind : ∀ o, (n.kind o).low = (m.kind o).low)
    (hops : ∀ b, m.InFunction b → (n.block b).ops = (m.block b).ops) : n.EndedBut E := by
  rintro b ⟨hlt, f, hf, hfunction⟩
  rw [(OpKind.classes_of_low_eq (hkind f)).2.1] at hfunction
  have hb : m.InFunction b := ⟨hsize ▸ hlt, f, (howner b).symm.trans hf, hfunction⟩
  exact (h b hb).imp_right fun hended => hended.congr (hops b hb) fun o _ => hkind o

end Module

end ContractIR
