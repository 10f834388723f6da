import ContractIR.Proofs.Module.Rewriting

/-!
# Modules with other wires

Which values an operation reads, and which blocks it leads to, has no effect on where things stand.
A module in which operations get other operands and successors has the same tree, and the same walks
in both directions.

## Main definitions

* `ContractIR.Module.Rewired` — a module with other operands and successors.

## Main results

* `ContractIR.Module.rewired_modifyOp`, `rewired_foldl` — changes of operands and successors.
* `ContractIR.Module.Rewired.walk`, `walkOp`, `ancestors` — walks stay the same.
-/

set_option autoImplicit false

namespace ContractIR

namespace Module

variable {m n p : Module}

/-- `n` is `m`, but for operands and successors of operations. -/
structure Rewired (m n : Module) : Prop where
  arenas : ∃ ops, ops.size = m.ops.size ∧ n = { m with ops := ops }
  op : ∀ o, n.op o =
    { m.op o with operands := (n.op o).operands, successors := (n.op o).successors }

/-! ## Changes of operands and successors -/

/-- A module has its own wires. -/
theorem Rewired.refl (m : Module) : m.Rewired m := ⟨⟨m.ops, rfl, rfl⟩, fun _ => rfl⟩

/-- Changing wires twice changes nothing but wires. -/
theorem Rewired.trans (h : m.Rewired n) (h' : n.Rewired p) : m.Rewired p where
  arenas := by
    obtain ⟨ops, hsize, rfl⟩ := h.arenas
    obtain ⟨ops', hsize', rfl⟩ := h'.arenas
    exact ⟨ops', hsize'.trans hsize, rfl⟩
  op o := by
    rw [h'.op, h.op]

/-- One operation gets other operands and successors. -/
theorem rewired_modifyOp (m : Module) (id : OpId) {f : Op → Op}
    (hf : ∀ x, f x = { x with operands := (f x).operands, successors := (f x).successors }) :
    m.Rewired (m.modifyOp id f) where
  arenas := ⟨_, by simp, rfl⟩
  op o := by
    rw [op_modifyOp]
    split
    · exact hf _
    · rfl

/-- Several steps, each of which changes operands and successors. -/
theorem rewired_foldl {α : Type} {step : Module → α → Module}
    (hstep : ∀ (s : Module) (a : α), s.Rewired (step s a)) (as : List α) (m : Module) :
    m.Rewired (as.foldl step m) := by
  induction as generalizing m with
  | nil => exact .refl m
  | cons a as ih => exact (hstep m a).trans (ih _)

/-! ## What stays the same -/

namespace Rewired

variable (h : m.Rewired n)

include h

/-- There are as many operations. -/
theorem size_ops : n.ops.size = m.ops.size := by
  obtain ⟨ops, hsize, rfl⟩ := h.arenas
  exact hsize

/-- Blocks are what they were. -/
theorem block (b : BlockId) : n.block b = m.block b := by
  obtain ⟨ops, -, rfl⟩ := h.arenas
  rfl

/-- Regions are what they were. -/
theorem region (r : RegionId) : n.region r = m.region r := by
  obtain ⟨ops, -, rfl⟩ := h.arenas
  rfl

/-- Values are what they were. -/
theorem value (v : ValueId) : n.value v = m.value v := by
  obtain ⟨ops, -, rfl⟩ := h.arenas
  rfl

/-- Operations keep their kinds. -/
theorem kind (o : OpId) : n.kind o = m.kind o := by
  rw [Module.kind, h.op]
  rfl

/-- Operations keep their attributes. -/
theorem attrs (o : OpId) : (n.op o).attrs = (m.op o).attrs := by rw [h.op]

/-- Operations keep their locations. -/
theorem location (o : OpId) : (n.op o).location = (m.op o).location := by rw [h.op]

/-- Operations keep their results. -/
theorem results (o : OpId) : (n.op o).results = (m.op o).results := by rw [h.op]

/-- Operations keep their regions. -/
theorem regions (o : OpId) : (n.op o).regions = (m.op o).regions := by rw [h.op]

/-- Operations stand where they stood. -/
theorem parent (o : OpId) : (n.op o).parent = (m.op o).parent := by rw [h.op]

/-- Nesting is bounded by the same number. -/
theorem depthBound : n.depthBound = m.depthBound := congrArg (· + 1) h.size_ops

/-- A walk over a region finds the same operations. -/
theorem walkRegion (depth : Nat) (r : RegionId) : n.walkRegion depth r = m.walkRegion depth r :=
  walkRegion_congr (S := fun _ => True)
    (fun r _ => ⟨h.region r, fun b _ => ⟨congrArg Block.ops (h.block b), fun o _ =>
      ⟨h.regions o, fun _ _ => trivial⟩⟩⟩) depth trivial

/-- A walk over the module finds the same operations. -/
theorem walk : n.walk = m.walk := by
  rw [Module.walk, Module.walk, h.depthBound, h.walkRegion]

/-- A walk over an operation finds the same operations. -/
theorem walkOp (o : OpId) : n.walkOp o = m.walkOp o := by
  rw [Module.walkOp, Module.walkOp, h.regions, h.depthBound]
  exact congrArg (o :: ·) (List.flatMap_congr fun r _ => h.walkRegion _ r)

/-- The same operation is around an operation. -/
theorem parentOp? (o : OpId) : n.parentOp? o = m.parentOp? o := by
  simp only [Module.parentOp?, h.parent, h.block, h.region]

/-- Operations keep their places. -/
theorem indexOf? (o : OpId) : n.indexOf? o = m.indexOf? o := by
  simp only [Module.indexOf?, h.parent, h.block]

/-- Operations are nested in the same ones. -/
theorem ancestors (o : OpId) : n.ancestors o = m.ancestors o := by
  rw [Module.ancestors, Module.ancestors, h.depthBound]
  generalize m.depthBound = depth
  induction depth generalizing o with
  | zero => rfl
  | succ depth ih => simp only [ancestorsWithin, h.parentOp?, ih]

/-- The same operations are part of the tree. -/
theorem isAttached (o : OpId) : n.isAttached o = m.isAttached o := by
  rw [Module.isAttached, Module.isAttached, h.depthBound]
  generalize m.depthBound = depth
  induction depth generalizing o with
  | zero => rfl
  | succ depth ih => simp only [isAttachedWithin, h.parent, h.block, h.region, ih]

end Rewired

end Module

end ContractIR
