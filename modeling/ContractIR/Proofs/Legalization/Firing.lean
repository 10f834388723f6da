import ContractIR.Proofs.Legalization.Reworking

/-!
# What a single rewrite does

A pattern that does not decline rewrites one operation.  Most operations get their low-level form in
place: a function gets a linkage, a cell becomes a stack slot, and others only change their kind.  A
return from contract code is dropped, and the sequence for its context takes its place.  All other
operations, their results and the blocks that they stand in stay as they are.

## Main definitions

* `ContractIR.EraVM.lowered`, `loweredType` — an operation in its low-level form, and the types of
  its results.
* `ContractIR.EraVM.LowersAt` — one operation gets its low-level form.
* `ContractIR.EraVM.ReplacesAt` — one return is replaced.

## Main results

* `ContractIR.EraVM.fires_of_rewrite` — every pattern declines a cell of no known type, or does one
  of the two.
-/

set_option autoImplicit false

namespace ContractIR.EraVM

open Conversion

/-! ## Low-level forms -/

/-- The first result of an operation, and the type of what it holds as a cell. -/
def cell? (m : Module) (o : OpId) : Option (ValueId × Ty) :=
  (m.result? o 0).bind fun v => (m.typeOf v).element?.map fun elem => (v, elem)

/-- The attributes of the low-level form: functions have a linkage, and stack slots the type of what
they hold. -/
def loweredAttrs (m : Module) (o : OpId) : AttrDict :=
  match m.kind o with
  | .func .func =>
    if (m.attr? o AttrName.linkage).isNone then
      (m.op o).attrs.set AttrName.linkage (.str "external")
    else (m.op o).attrs
  | .memref .alloca =>
    match cell? m o with
    | some (_, elem) => (m.op o).attrs.set AttrName.elemType (.type elem)
    | none => (m.op o).attrs
  | _ => (m.op o).attrs

/-- The low-level form of an operation. -/
def lowered (m : Module) (o : OpId) : Op :=
  { m.op o with kind := (m.kind o).low, attrs := loweredAttrs m o }

/-- The type of a value when an operation has its low-level form: the result of a cell is the
address of a stack slot. -/
def loweredType (m : Module) (o : OpId) (v : ValueId) : Ty :=
  if m.kind o = .memref .alloca ∧ m.result? o 0 = some v then AddressSpace.stack.ptr else m.typeOf v

section Lowered

variable {m n : Module} {o : OpId}

/-- What an operation holds as a cell depends on it and on the types of its results. -/
theorem cell?_congr (hresults : (n.op o).results = (m.op o).results)
    (htypes : ∀ v ∈ (m.op o).results, n.typeOf v = m.typeOf v) : cell? n o = cell? m o := by
  rw [cell?, cell?, Module.result?, Module.result?, hresults]
  cases hv : (m.op o).results[0]? with
  | none => rfl
  | some v => rw [Option.bind_some, Option.bind_some, htypes v (List.mem_of_getElem? hv)]

/-- The low-level form depends on the operation and on the types of its results. -/
theorem lowered_congr (hop : n.op o = m.op o)
    (htypes : ∀ v ∈ (m.op o).results, n.typeOf v = m.typeOf v) : lowered n o = lowered m o := by
  have hkind : n.kind o = m.kind o := congrArg Op.kind hop
  rw [lowered, lowered, loweredAttrs, loweredAttrs, hkind,
    cell?_congr (congrArg Op.results hop) htypes, Module.attr?, Module.attr?, hop]

/-- The types of the results depend on the operation and on their types before. -/
theorem loweredType_congr (hop : n.op o = m.op o) {v : ValueId} (htype : n.typeOf v = m.typeOf v) :
    loweredType n o v = loweredType m o v := by
  rw [loweredType, loweredType, Module.kind, Module.kind, Module.result?, Module.result?, hop,
    htype]

/-- Values that are no results keep their types. -/
theorem loweredType_of_notMem {v : ValueId} (hv : v ∉ (m.op o).results) :
    loweredType m o v = m.typeOf v :=
  if_neg fun h => hv (List.mem_of_getElem? h.2)

/-- Only cells change the types of their results. -/
theorem loweredType_of_ne {v : ValueId} (hkind : m.kind o ≠ .memref .alloca) :
    loweredType m o v = m.typeOf v :=
  if_neg fun h => hkind h.1

/-- What is neither a function nor a cell keeps its attributes. -/
theorem loweredAttrs_of_ne (hfunc : m.kind o ≠ .func .func) (hcell : m.kind o ≠ .memref .alloca) :
    loweredAttrs m o = (m.op o).attrs := by
  rw [loweredAttrs]
  split
  · rename_i h
    exact absurd h hfunc
  · rename_i h
    exact absurd h hcell
  · rfl

/-- The attributes of a stack slot. -/
theorem loweredAttrs_of_cell (hkind : m.kind o = .memref .alloca) {v : ValueId} {elem : Ty}
    (hcell : cell? m o = some (v, elem)) :
    loweredAttrs m o = (m.op o).attrs.set AttrName.elemType (.type elem) := by
  rw [loweredAttrs, hkind, hcell]

/-- The cell of an operation. -/
theorem cell?_eq_some {v : ValueId} {elem : Ty} :
    cell? m o = some (v, elem) ↔ m.result? o 0 = some v ∧ (m.typeOf v).element? = some elem := by
  simp only [cell?, Option.bind_eq_some_iff, Option.map_eq_some_iff, Prod.mk.injEq]
  constructor
  · rintro ⟨v', hv, elem', helem, rfl, rfl⟩
    exact ⟨hv, helem⟩
  · rintro ⟨hv, helem⟩
    exact ⟨v, hv, elem, helem, rfl, rfl⟩

end Lowered

/-! ## Rewriting in place -/

/-- One operation gets its low-level form, and nothing else changes. -/
structure LowersAt (m n : Module) (x : OpId) : Prop where
  high : (m.kind x).dialect ≠ .llvm
  low : (m.kind x).low.dialect = .llvm
  cell : m.kind x = .memref .alloca → (cell? m x).isSome
  linked : n.Linked
  size_ops : n.ops.size = m.ops.size
  op : ∀ o, n.op o = if o = x then lowered m x else m.op o
  blocks : n.blocks = m.blocks
  regions : n.regions = m.regions
  types : ∀ v, n.typeOf v = loweredType m x v

section InPlace

variable {m n : Module} {x : OpId}

/-- One operation has another kind, and all else about operations is as it was. -/
theorem op_setKind_eq (hx : x.index < m.ops.size) (kind : OpKind) (o : OpId) :
    (m.setKind x kind).op o = if o = x then { m.op x with kind := kind } else m.op o := by
  rw [Module.setKind]
  split
  · rename_i ho
    rw [ho, Module.op_modifyOp_self _ _ hx]
  · rename_i ho
    exact Module.op_modifyOp_of_ne _ _ ho

/-- Changing the kind is all there is to do for most operations. -/
theorem lowersAt_setKind (hm : m.Linked) (hx : x.index < m.ops.size) {k : LlvmOp}
    (hhigh : (m.kind x).dialect ≠ .llvm) (hlow : (m.kind x).low = .llvm k)
    (hfunc : m.kind x ≠ .func .func) (hcell : m.kind x ≠ .memref .alloca) :
    LowersAt m (m.setKind x (.llvm k)) x where
  high := hhigh
  low := by rw [hlow]; rfl
  cell h := absurd h hcell
  linked := hm.modifyOp x (fun _ => rfl) (fun _ => rfl) (fun _ => rfl) (hm.operands_lt x)
  size_ops := Module.size_ops_modifyOp ..
  op o := by rw [op_setKind_eq hx, lowered, hlow, loweredAttrs_of_ne hfunc hcell]
  blocks := rfl
  regions := rfl
  types v := (loweredType_of_ne hcell).symm

/-- A function becomes a low-level function with a linkage.

**Proof sketch.** The rewrite changes the kind and, if there is no linkage, adds one; both
outcomes are the operation that `lowered` describes, and nothing else changes. -/
theorem lowersAt_lowerFuncOp (hm : m.Linked) (hx : x.index < m.ops.size)
    (hkind : m.kind x = .func .func) {a : Bool} (h : (lowerFuncOp x).run m = .ok a n) :
    a = true ∧ LowersAt m n x := by
  obtain ⟨rfl, -, hn⟩ := reworks_lowerFuncOp hm hx hkind h
  have hcell : m.kind x ≠ .memref .alloca := by
    rw [hkind]
    decide
  have hset := op_setKind_eq hx (.llvm .func)
  have hattr :
      (m.setKind x (.llvm .func)).attr? x AttrName.linkage = m.attr? x AttrName.linkage := by
    rw [Module.attr?, hset, if_pos rfl]
    rfl
  rw [run_lowerFuncOp, hattr] at h
  have hlowered : lowered m x = { m.op x with
      kind := .llvm .func
      attrs := if (m.attr? x AttrName.linkage).isNone then
          (m.op x).attrs.set AttrName.linkage (.str "external")
        else (m.op x).attrs } := by
    rw [lowered, loweredAttrs, hkind]
    rfl
  have hhigh : (m.kind x).dialect ≠ .llvm := by
    rw [hkind]
    decide
  have hlow : (m.kind x).low.dialect = .llvm := by
    rw [hkind]
    rfl
  refine ⟨rfl, ?_⟩
  split at h <;> cases h
  · rename_i hnone
    refine ⟨hhigh, hlow, fun hc => absurd hc hcell, hn, by simp [Module.setAttr, Module.setKind],
      fun o => ?_, rfl, rfl, fun v => (loweredType_of_ne hcell).symm⟩
    have hsize : x.index < (m.setKind x (.llvm .func)).ops.size := by
      rw [Module.setKind, Module.size_ops_modifyOp]
      exact hx
    by_cases ho : o = x
    · rw [ho, Module.setAttr, Module.op_modifyOp_self _ _ hsize, hset, if_pos rfl, if_pos rfl,
        hlowered, if_pos hnone]
    · rw [Module.setAttr, Module.op_modifyOp_of_ne _ _ ho, hset, if_neg ho, if_neg ho]
  · rename_i hsome
    refine ⟨hhigh, hlow, fun hc => absurd hc hcell, hn, Module.size_ops_modifyOp .., fun o => ?_,
      rfl, rfl, fun v => (loweredType_of_ne hcell).symm⟩
    rw [hset, hlowered, if_neg hsome]

/-- A cell becomes a stack slot, if it is known what it holds.

**Proof sketch.** The rewrite declines a cell whose contents are not known.  Otherwise it is
`asSlot`, whose lemmas say what the operation and the type of its value become. -/
theorem lowersAt_lowerAllocaOp (hm : m.Linked) (hx : x.index < m.ops.size)
    (hkind : m.kind x = .memref .alloca) {a : Bool} (h : (lowerAllocaOp x).run m = .ok a n) :
    a = false ∧ n = m ∧ cell? m x = none ∨ a = true ∧ LowersAt m n x := by
  rcases run_lowerAllocaOp_eq_ok h with ⟨rfl, rfl, hnone⟩ | ⟨rfl, v, elem, hv, helem, rfl⟩
  · exact .inl ⟨rfl, rfl, by simpa [cell?] using hnone⟩
  · have hcell : cell? m x = some (v, elem) := cell?_eq_some.2 ⟨hv, helem⟩
    have hvlt := hm.results_lt x v (List.mem_of_getElem? hv)
    refine .inr ⟨rfl, by rw [hkind]; decide, by rw [hkind]; rfl, fun _ => by rw [hcell]; rfl,
      linked_asSlot hm x v elem, by simp [Module.setAttr, Module.setKind, Module.setType],
      fun o => ?_, rfl, rfl, fun u => ?_⟩
    · split
      · rename_i ho
        rw [ho, lowered, loweredAttrs_of_cell hkind hcell, hkind]
        exact op_asSlot hx
      · rename_i ho
        exact op_asSlot_of_ne ho
    · rw [← asSlot, typeOf_asSlot hvlt, loweredType, hkind, hv]
      simp [eq_comm]

end InPlace

/-! ## Replacing a return -/

/-- A return from contract code is dropped, and the sequence for the context around it stands in its
place.  Nothing else changes. -/
structure ReplacesAt (contexts : Contexts) (m n : Module) (x : OpId) (context : CodeContext)
    (code : List OpId) : Prop where
  kind : m.kind x = .sol .ret
  around : contexts.around? m x = some context
  linked : n.Linked
  detached : n.op x = { m.op x with parent := none }
  op : ∀ o : OpId, o ≠ x → o.index < m.ops.size → n.op o = m.op o
  new : ∀ o : OpId, o ∈ code ↔ m.ops.size ≤ o.index ∧ o.index < n.ops.size
  kinds : code.map n.kind = writtenKinds context
  parents : ∀ o ∈ code, (n.op o).parent = (m.op x).parent
  nodup : code.Nodup
  size_ops : m.ops.size ≤ n.ops.size
  parent : ∀ b, (n.block b).parent = (m.block b).parent
  regions : ∀ r : RegionId, r.index < m.regions.size → n.region r = m.region r
  types : ∀ v : ValueId, v.index < m.values.size → n.typeOf v = m.typeOf v

/-- A return that is replaced is replaced at its place.

**Proof sketch.** The return is taken out of the module that grew by its code, so an old
operation other than it is as it was, and the code stands in the block in its place. -/
theorem ReplacesReturn.replacesAt {contexts : Contexts} {m n : Module} {x : OpId} {b : BlockId}
    {context : CodeContext} {offset length : ValueId} {before behind code : List OpId} {p : Module}
    (h : ReplacesReturn m n x b context offset length before behind code p)
    (hb : (m.op x).parent = some b) (hkind : m.kind x = .sol .ret)
    (hcontext : contexts.around? m x = some context) : ReplacesAt contexts m n x context code := by
  have hx : x.index < m.ops.size := Module.op_lt_of_parent hb
  have hsize : n.ops.size = p.ops.size := by rw [h.dropped, Module.size_ops_detachOp]
  have hne : ∀ o ∈ code, o ≠ x := by
    rintro o ho rfl
    exact absurd ((h.new o).1 ho).1 (Nat.not_le.2 hx)
  have hop : ∀ o ∈ code, n.op o = p.op o := fun o ho => by
    rw [h.dropped, Module.op_detachOp, if_neg (hne o ho)]
  have hmem : ∀ o ∈ code, o ∈ (p.block b).ops := fun o ho => by
    rw [h.written]
    simp [ho]
  refine
    { kind := hkind
      around := hcontext
      linked := h.dropped ▸ h.linked.detachOp x
      detached := by rw [h.dropped, Module.op_detachOp, if_pos rfl, h.grown.ops x hx]
      op := fun o ho hlt => by rw [h.dropped, Module.op_detachOp, if_neg ho, h.grown.ops o hlt]
      new := fun o => by rw [hsize, h.new]
      kinds := ?_
      parents := fun o ho => by rw [hop o ho, (h.linked.op_parent o b).2 (hmem o ho), hb]
      nodup := ?_
      size_ops := hsize ▸ h.grown.size_ops
      parent := fun y => (h.block_eq y).2
      regions := fun r hr => by rw [h.dropped, Module.region_detachOp, h.grown.regions r hr]
      types := fun v hv => by
        rw [h.dropped, Module.typeOf, Module.value_detachOp, h.grown.values v hv]
        rfl }
  · rw [← h.kinds]
    exact List.map_congr_left fun o ho => congrArg Op.kind (hop o ho)
  · have hnodup := h.linked.ops_nodup b
    rw [h.written] at hnodup
    exact (List.nodup_append.1 (List.nodup_append.1 hnodup).1).2.1

/-! ## All patterns -/

/-- A pattern rewrote an operation in place, or replaced it as a return. -/
inductive FiresAt (contexts : Contexts) (m n : Module) (x : OpId) (name : String) : Prop
  | lowers (h : LowersAt m n x) (hname : name ≠ "sol-return")
  | replaces (context : CodeContext) (code : List OpId) (h : ReplacesAt contexts m n x context code)
      (hname : name = "sol-return")

/-- **What a pattern does** to an operation of the tree: it declines a cell if it is not known what
it holds, and rewrites anything else.

**Proof sketch.** One case for each pattern: a return is replaced (`ReplacesReturn.replacesAt`),
a function and a cell are lowered in place (`lowersAt_lowerFuncOp`, `lowersAt_lowerAllocaOp`), all
others only change their kind. -/
theorem fires_of_rewrite {contexts : Contexts} {p : Pattern} (hp : p ∈ patterns contexts)
    {m n : Module} (hm : m.Linked) {x : OpId} (hattached : m.isAttached x = true)
    (hkind : m.kind x = p.root) {a : Bool} (hrun : (p.rewrite x).run m = .ok a n) :
    a = false ∧ n = m ∧ m.kind x = .memref .alloca ∧ cell? m x = none ∨
      a = true ∧ FiresAt contexts m n x p.name := by
  obtain ⟨b, hb⟩ := Module.exists_parent_of_isAttached hattached
  have hx := Module.op_lt_of_parent hb
  rcases mem_patterns.1 hp with rfl | rfl | rfl | ⟨r, hr, rfl⟩
  · obtain ⟨rfl, context, offset, length, before, behind, code, p, hcontext, hreplaces⟩ :=
      replacesReturn_of_run hm hb hrun
    exact .inr ⟨rfl, .replaces context code (hreplaces.replacesAt hb hkind hcontext) rfl⟩
  · obtain ⟨rfl, hlowers⟩ := lowersAt_lowerFuncOp hm hx hkind hrun
    exact .inr ⟨rfl, .lowers hlowers (by dsimp only; decide)⟩
  · rcases lowersAt_lowerAllocaOp hm hx hkind hrun with ⟨rfl, rfl, hcell⟩ | ⟨rfl, hlowers⟩
    · exact .inl ⟨rfl, rfl, hkind, hcell⟩
    · exact .inr ⟨rfl, .lowers hlowers (by dsimp only; decide)⟩
  · cases hrun
    have hkind : m.kind x = r.2.1 := hkind
    obtain ⟨-, hcell, hhigh⟩ := kind_of_mem_renames r hr
    have hfunc : r.2.1 ≠ .func .func := by
      intro hc
      have hplain := (kind_of_mem_renames r hr).1
      rw [hc] at hplain
      cases hplain
    have hname : ∀ r ∈ renames, r.1 ≠ "sol-return" := by decide
    exact .inr ⟨rfl, .lowers (lowersAt_setKind hm hx (by rw [hkind]; exact hhigh)
      (by rw [hkind]; exact low_of_mem_renames r hr) (by rw [hkind]; exact hfunc)
      (by rw [hkind]; exact hcell)) (hname r hr)⟩

end ContractIR.EraVM
