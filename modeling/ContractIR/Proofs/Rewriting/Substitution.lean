import ContractIR.Proofs.Module.Wiring

/-!
# Replacing several values

When an operation is replaced, the users of its results read other values from then on, one result
after the other.  Taken together this is one renaming: the operations of the tree get other
operands, and nothing else of the module is touched.

## Main definitions

* `ContractIR.Op.rename` — an operation with other operands.
* `ContractIR.Module.renamed` — the value that is read in the place of another one.
* `ContractIR.Module.rewire` — the module in which some values are replaced.

## Main results

* `ContractIR.Module.op_rewire` — what becomes of each operation.
* `ContractIR.Module.rewire_eq_self_iff` — when nothing changes.
* `ContractIR.Module.renamed_cases` — what a value becomes if no new value is replaced in turn.
-/

set_option autoImplicit false

namespace ContractIR

/-! ## Operations with other operands -/

section Rename

variable (f : ValueId → ValueId) (o : Op)

/-- The operation with other operands, one for each. -/
def Op.rename : Op := { o with operands := o.operands.map f }

/-- Renaming operands keeps the kind. -/
@[simp] theorem Op.kind_rename : (o.rename f).kind = o.kind := rfl

/-- Renaming renames the operands. -/
@[simp] theorem Op.operands_rename : (o.rename f).operands = o.operands.map f := rfl

/-- Renaming operands keeps the results. -/
@[simp] theorem Op.results_rename : (o.rename f).results = o.results := rfl

/-- Renaming operands keeps the regions. -/
@[simp] theorem Op.regions_rename : (o.rename f).regions = o.regions := rfl

/-- Renaming operands keeps the successors. -/
@[simp] theorem Op.successors_rename : (o.rename f).successors = o.successors := rfl

/-- Renaming operands keeps the attributes. -/
@[simp] theorem Op.attrs_rename : (o.rename f).attrs = o.attrs := rfl

/-- Renaming operands keeps the location. -/
@[simp] theorem Op.location_rename : (o.rename f).location = o.location := rfl

/-- Renaming operands keeps the place. -/
@[simp] theorem Op.parent_rename : (o.rename f).parent = o.parent := rfl

end Rename

/-- An operation reads the same if its operands keep their names. -/
theorem Op.rename_eq_self_iff {f : ValueId → ValueId} {o : Op} :
    o.rename f = o ↔ ∀ v ∈ o.operands, f v = v := by
  constructor
  · intro h v hv
    have hoperands : o.operands.map f = o.operands.map id := by
      rw [List.map_id, ← Op.operands_rename, h]
    exact List.map_inj_left.1 hoperands v hv
  · intro h
    rw [Op.rename, List.map_congr_left (g := id) h, List.map_id]

namespace Module

/-! ## Changing several operations alike -/

/-- Changing some operations, where changing one twice is the same as changing it once. -/
theorem op_foldl_modifyOp {f : Op → Op} (hdefault : f default = default)
    (hidempotent : ∀ x, f (f x) = f x) (ids : List OpId) (m : Module) (o : OpId) :
    (ids.foldl (fun n i => n.modifyOp i f) m).op o = if o ∈ ids then f (m.op o) else m.op o := by
  induction ids generalizing m with
  | nil => simp
  | cons id ids ih =>
    rw [List.foldl_cons, ih, op_modifyOp]
    by_cases ho : o = id
    · subst ho
      by_cases hlt : o.index < m.ops.size
      · simp [hlt, hidempotent]
      · simp [hlt, op_of_le (Nat.le_of_not_lt hlt), hdefault]
    · simp [ho]

/-- Modules with the same operations and the same other arenas are the same. -/
theorem eq_of_op_eq {m : Module} {ops : Array Op} (hsize : ops.size = m.ops.size)
    (hop : ∀ o, ({ m with ops := ops } : Module).op o = m.op o) : { m with ops := ops } = m := by
  have hops : ops = m.ops := by
    refine Array.ext hsize fun i hi hi' => ?_
    have heq := hop ⟨i⟩
    simpa [op, Array.getD_eq_getD_getElem?, hi, hi'] using heq
  rw [hops]

/-! ## Renaming -/

/-- The value that is read in the place of `v` when some values were replaced, one after the
other. -/
def renamed (pairs : List (ValueId × ValueId)) (v : ValueId) : ValueId :=
  pairs.foldl (fun v p => if v = p.1 then p.2 else v) v

/-- The module in which some values were replaced, one after the other. -/
def rewire (m : Module) (pairs : List (ValueId × ValueId)) : Module :=
  pairs.foldl (fun n p => n.replaceUses p.1 p.2) m

section Renamed

variable {pairs : List (ValueId × ValueId)} {v : ValueId}

/-- Without pairs no value is renamed. -/
@[simp] theorem renamed_nil : renamed [] v = v := rfl

/-- Pairs are applied one after the other. -/
theorem renamed_cons (p : ValueId × ValueId) :
    renamed (p :: pairs) v = renamed pairs (if v = p.1 then p.2 else v) := rfl

/-- A value that is not replaced keeps its name. -/
theorem renamed_of_notMem (h : ∀ p ∈ pairs, v ≠ p.1) : renamed pairs v = v := by
  induction pairs with
  | nil => rfl
  | cons p pairs ih =>
    rw [renamed_cons, if_neg (h p List.mem_cons_self)]
    exact ih fun q hq => h q (List.mem_cons_of_mem _ hq)

/-- **What a value becomes** if no new value is replaced in turn: it stays, or it is one of the old
values and becomes the new value beside it.

**Proof sketch.** Induction on the pairs.  A value that the first pair replaces is not touched by
the others, which replace no new value; any other value is left to them. -/
theorem renamed_cases (hnew : ∀ p ∈ pairs, ∀ q ∈ pairs, p.2 ≠ q.1) (v : ValueId) :
    (∀ p ∈ pairs, v ≠ p.1) ∧ renamed pairs v = v ∨
      ∃ p ∈ pairs, v = p.1 ∧ renamed pairs v = p.2 := by
  induction pairs with
  | nil => exact .inl ⟨by simp, rfl⟩
  | cons p pairs ih =>
    rw [renamed_cons]
    by_cases hv : v = p.1
    · refine .inr ⟨p, List.mem_cons_self, hv, ?_⟩
      rw [if_pos hv]
      exact renamed_of_notMem fun q hq =>
        hnew p List.mem_cons_self q (List.mem_cons_of_mem _ hq)
    · rw [if_neg hv]
      have hrest := ih fun q hq r hr =>
        hnew q (List.mem_cons_of_mem _ hq) r (List.mem_cons_of_mem _ hr)
      rcases hrest with ⟨hnone, heq⟩ | ⟨q, hq, hold, heq⟩
      · exact .inl ⟨fun q hq => (List.mem_cons.1 hq).elim (fun h => h ▸ hv) (hnone q), heq⟩
      · exact .inr ⟨q, List.mem_cons_of_mem _ hq, hold, heq⟩

/-- What holds for a value holds for the one that is read in its place, if it passes from every old
value to the new one. -/
theorem renamed_induction {P : ValueId → Prop} (hpairs : ∀ p ∈ pairs, P p.1 → P p.2) {v : ValueId}
    (hv : P v) : P (renamed pairs v) := by
  induction pairs generalizing v with
  | nil => exact hv
  | cons p pairs ih =>
    rw [renamed_cons]
    refine ih (fun q hq => hpairs q (List.mem_cons_of_mem _ hq)) ?_
    split
    · rename_i heq
      exact hpairs p List.mem_cons_self (heq ▸ hv)
    · exact hv

end Renamed

/-- New values of the types of the old ones, pair by pair. -/
theorem typeOf_eq_of_mem_zip {m : Module} {olds news : List ValueId}
    (h : m.typesOf news = m.typesOf olds) {p : ValueId × ValueId} (hp : p ∈ olds.zip news) :
    m.typeOf p.2 = m.typeOf p.1 := by
  induction olds generalizing news with
  | nil => cases hp
  | cons v olds ih =>
    cases news with
    | nil => cases hp
    | cons w news =>
      simp only [typesOf, List.map_cons, List.cons.injEq] at h
      rcases List.mem_cons.1 hp with rfl | hp
      · exact h.1
      · exact ih h.2 hp

/-! ## What becomes of a module -/

section ReplaceUses

variable (m : Module) (old new : ValueId)

/-- Replacing a value renames it in the operations of the tree. -/
theorem op_replaceUses (o : OpId) :
    (m.replaceUses old new).op o =
      if o ∈ m.walk then (m.op o).rename (renamed [(old, new)]) else m.op o := by
  refine op_foldl_modifyOp (f := Op.rename (renamed [(old, new)])) rfl (fun x => ?_) m.walk m o
  refine Op.rename_eq_self_iff.2 fun v hv => ?_
  obtain ⟨w, -, rfl⟩ := List.mem_map.1 hv
  simp only [renamed_cons, renamed_nil]
  split
  · simp
  · rfl

/-- Replacing a value changes operands only. -/
theorem rewired_replaceUses : m.Rewired (m.replaceUses old new) :=
  rewired_foldl (fun s o => s.rewired_modifyOp o fun _ => rfl) m.walk m

end ReplaceUses

section Rewire

variable (m : Module) (pairs : List (ValueId × ValueId))

/-- Replacing values changes operands only. -/
theorem rewired_rewire : m.Rewired (m.rewire pairs) := by
  unfold rewire
  exact rewired_foldl (fun s p => s.rewired_replaceUses p.1 p.2) pairs m

/-- **Replacing several values is one renaming** of the operands of the tree's operations. -/
theorem op_rewire (o : OpId) :
    (m.rewire pairs).op o = if o ∈ m.walk then (m.op o).rename (renamed pairs) else m.op o := by
  induction pairs generalizing m with
  | nil =>
    have hsame : (m.op o).rename (renamed []) = m.op o := Op.rename_eq_self_iff.2 fun _ _ => rfl
    rw [hsame, ite_self]
    rfl
  | cons p pairs ih =>
    have hstep : (m.rewire (p :: pairs)).op o = ((m.replaceUses p.1 p.2).rewire pairs).op o := rfl
    rw [hstep, ih, (m.rewired_replaceUses p.1 p.2).walk, op_replaceUses]
    split
    · rw [Op.rename, Op.rename, Op.rename, List.map_map]
      rfl
    · rfl

/-- Operands of operations of the tree are renamed. -/
theorem operands_rewire {o : OpId} (ho : o ∈ m.walk) :
    ((m.rewire pairs).op o).operands = (m.op o).operands.map (renamed pairs) := by
  rw [op_rewire, if_pos ho]
  rfl

/-- **When nothing changes**: no operation of the tree reads a value that gets another name. -/
theorem rewire_eq_self_iff :
    m.rewire pairs = m ↔ ∀ o ∈ m.walk, ∀ v ∈ (m.op o).operands, renamed pairs v = v := by
  constructor
  · intro h o ho
    have hop := m.op_rewire pairs o
    rw [h, if_pos ho] at hop
    exact Op.rename_eq_self_iff.1 hop.symm
  · intro h
    obtain ⟨ops, hsize, heq⟩ := (m.rewired_rewire pairs).arenas
    rw [heq]
    refine eq_of_op_eq hsize fun o => ?_
    rw [← heq, op_rewire]
    split
    · rename_i ho
      exact Op.rename_eq_self_iff.2 (h o ho)
    · rfl

end Rewire

end Module

end ContractIR
