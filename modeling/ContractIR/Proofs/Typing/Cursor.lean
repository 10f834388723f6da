import ContractIR.Proofs.Builder.Growth
import ContractIR.Proofs.Typing.Modules

/-!
# Writing typed code

A cursor is a builder at a place in a block of a well-typed module.  Each step that creates an
operation of code succeeds at a cursor that knows the operands with their types; it leaves a cursor
behind the new operation, which knows the result.  The steps compose, so that what a longer routine
writes is well-typed because its parts are.

## Main definitions

* `ContractIR.Cursor` — a builder at a place in a block of a well-typed module.
* `ContractIR.Cursor.Knows` — a value with its type may be read at a place.
* `ContractIR.Cursor.Leads` — one cursor stands behind some code that was written at another one.
* `ContractIR.Cursor.Writes`, `ContractIR.Cursor.Ends` — a step succeeds and writes code without a
  terminator, or code that ends with one.

## Main results

* `ContractIR.Cursor.Writes.bind`, `ContractIR.Cursor.Writes.bind_ends` — steps compose.
* `ContractIR.Cursor.writes_value`, `ContractIR.Cursor.writes_op` — typed operations are written.
-/

set_option autoImplicit false

namespace ContractIR

open ContractIR.Module (OpSpec)

/-! ## Operations in place -/

namespace Module

variable {env : Env} {m : Module}

/-- The types of the results of an operation that was added. -/
theorem typesOf_results_addOp (spec : OpSpec) (location : Location) (b : BlockId)
    (index : Option Nat) :
    (m.addOp spec location b index).typesOf
      ((m.addOp spec location b index).op ⟨m.ops.size⟩).results = spec.results := by
  rw [op_addOp, if_pos rfl]
  apply List.ext_getElem?
  intro i
  simp only [OpSpec.toOp, typesOf, List.map_map, List.getElem?_map]
  by_cases hi : i < spec.results.length
  · have hty : spec.results[i]? = some spec.results[i] := List.getElem?_eq_getElem hi
    simp [List.getElem?_range hi, typeOf, addOp, value_createOp_add m spec location hty]
  · simp [hi]

/-- A new typed operation, put where it may read its operands, keeps a module well-typed.

**Proof sketch.** Growth in one block (`WellTyped.of_extends`).  The only new operation is the
one that is inserted; it reads arguments of the block or results of operations in front of it, and
no block is new. -/
theorem WellTyped.of_insert {n : Module} (h : m.WellTyped env) (hlinked : n.Linked) {b : BlockId}
    (hext : Extends (· = b) m n) (hsize : n.ops.size = m.ops.size + 1)
    (hblocks : n.blocks.size = m.blocks.size) (hb : b.index < m.blocks.size)
    {before behind : List OpId} (hops : (m.block b).ops = before ++ behind)
    (hops' : (n.block b).ops = before ++ ⟨m.ops.size⟩ :: behind)
    (hoperands : ∀ v ∈ (n.op ⟨m.ops.size⟩).operands,
      v ∈ (m.block b).args ∨ ∃ p ∈ before, v ∈ (m.op p).results)
    (htyped : n.OpTyped env ⟨m.ops.size⟩) : n.WellTyped env := by
  refine h.of_extends hlinked hext ?_ ?_ ?_
  · intro x hx
    by_cases hxb : x = b
    · rw [hxb, hops', hops]
      exact List.Sublist.append_left (List.sublist_cons_self _ _) _
    · rw [hext.blocks x hx hxb]
  · intro id x hid hx
    obtain rfl : id = ⟨m.ops.size⟩ := by
      have hlt := op_lt_of_parent hx
      rw [← OpId.index_eq_iff]
      simp only
      omega
    have hmem : ⟨m.ops.size⟩ ∈ (n.block b).ops := hops' ▸ List.mem_append_right _ (.head _)
    obtain rfl : x = b := by
      have hplace := (hlinked.op_parent _ _).2 hmem
      rw [hx] at hplace
      exact Option.some.inj hplace
    refine ⟨htyped, fun v hv => ?_⟩
    rcases hoperands v hv with harg | ⟨p, hmem, hp⟩
    · exact .inl ((hext.grown x hb).1 ▸ harg)
    · have hplt : p.index < m.ops.size := op_lt_of (v ∈ ·.results) (by simp) hp
      refine .inr ⟨p, by rw [hext.ops p hplt]; exact hp, ?_⟩
      rw [hops']
      exact (List.singleton_sublist.2 hmem).append (List.singleton_sublist.2 (.head _))
  · intro x hx v hv
    rw [block_of_le (hblocks ▸ hx)] at hv
    cases hv

end Module

/-! ## Cursors -/

/-- A builder at a place in a block of a well-typed module, with the operations of the block that
stand before and behind the place. -/
structure Cursor (env : Env) where
  builder : Builder
  block : BlockId
  before : List OpId
  behind : List OpId
  typed : builder.ir.WellTyped env
  block_lt : block.index < builder.ir.blocks.size
  ops : (builder.ir.block block).ops = before ++ behind
  point : ∃ index, builder.point = some ⟨block, index⟩ ∧
    (index = some before.length ∨ index = none ∧ behind = [])

namespace Cursor

variable {env : Env}

/-- The module that is written to. -/
def ir (c : Cursor env) : Module := c.builder.ir

/-- The cursor at the end of a block. -/
def atEnd (b : Builder) (typed : b.ir.WellTyped env) (x : BlockId)
    (hx : x.index < b.ir.blocks.size) : Cursor env where
  builder := { b with point := some ⟨x, none⟩ }
  block := x
  before := (b.ir.block x).ops
  behind := []
  typed := typed
  block_lt := hx
  ops := (List.append_nil _).symm
  point := ⟨none, rfl, .inr ⟨rfl, rfl⟩⟩

/-- A value of a type may be read at the place of a cursor. -/
def Knows (c : Cursor env) (v : ValueId) (t : Ty) : Prop :=
  c.ir.typeOf v = t ∧
    (v ∈ (c.ir.block c.block).args ∨ ∃ p ∈ c.before, v ∈ (c.ir.op p).results)

/-- Known values are values of the module. -/
theorem Knows.index_lt {c : Cursor env} {v : ValueId} {t : Ty} (h : c.Knows v t) :
    v.index < c.ir.values.size := by
  rcases h.2 with harg | ⟨p, -, hp⟩
  · exact c.typed.args_lt _ v harg
  · exact c.typed.results_lt p v hp

/-- One cursor stands behind some code that was written at another one. -/
structure Leads (c d : Cursor env) (code : List OpId) : Prop where
  extends_ir : Module.Extends (· = c.block) c.ir d.ir
  block : d.block = c.block
  before : d.before = c.before ++ code
  behind : d.behind = c.behind
  size_blocks : d.ir.blocks.size = c.ir.blocks.size
  new : ∀ o : OpId, o ∈ code ↔ c.ir.ops.size ≤ o.index ∧ o.index < d.ir.ops.size

namespace Leads

variable {c d e : Cursor env} {code more : List OpId}

/-- A cursor stands behind no code at all. -/
theorem refl (c : Cursor env) : c.Leads c [] :=
  ⟨.refl _ _, rfl, (List.append_nil _).symm, rfl, rfl, by simp⟩

/-- Code is written behind other code. -/
theorem trans (h : c.Leads d code) (k : d.Leads e more) : c.Leads e (code ++ more) where
  extends_ir := h.extends_ir.trans (h.block ▸ k.extends_ir)
  block := k.block.trans h.block
  before := by rw [k.before, h.before, List.append_assoc]
  behind := k.behind.trans h.behind
  size_blocks := k.size_blocks.trans h.size_blocks
  new o := by
    have hd := h.extends_ir.size_ops
    have he := k.extends_ir.size_ops
    rw [List.mem_append, h.new, k.new]
    omega

/-- Operations before the place of a cursor stay as they are. -/
theorem op_eq (h : c.Leads d code) {o : OpId} (ho : o ∈ c.before) : d.ir.op o = c.ir.op o := by
  have hmem : o ∈ (c.builder.ir.block c.block).ops := c.ops ▸ List.mem_append_left _ ho
  exact h.extends_ir.ops o (c.typed.ops_lt hmem)

/-- What is known stays known.

**Proof sketch.** The value is an argument of the block, which keeps its arguments, or the result
of an operation in front, which stays in front with its results. -/
theorem knows (h : c.Leads d code) {v : ValueId} {t : Ty} (hv : c.Knows v t) : d.Knows v t := by
  have hargs := (h.extends_ir.grown c.block c.block_lt).1
  have hlt := hv.index_lt
  obtain ⟨hty, hplace⟩ := hv
  refine ⟨?_, ?_⟩
  · rw [Module.typeOf, h.extends_ir.values v hlt]
    exact hty
  · rcases hplace with harg | ⟨p, hmem, hp⟩
    · refine .inl ?_
      rw [h.block, hargs]
      exact harg
    · refine .inr ⟨p, ?_, ?_⟩
      · rw [h.before]
        exact List.mem_append_left _ hmem
      · rw [h.op_eq hmem]
        exact hp

/-- A block of the region that a cursor stands in stays in that region. -/
theorem sameRegion (h : c.Leads d code) {x : BlockId}
    (hx : x.index < c.ir.blocks.size ∧ (c.ir.block x).parent = (c.ir.block c.block).parent) :
    x.index < d.ir.blocks.size ∧ (d.ir.block x).parent = (d.ir.block d.block).parent := by
  refine ⟨h.size_blocks ▸ hx.1, ?_⟩
  rw [h.block, (h.extends_ir.grown x hx.1).2.1, (h.extends_ir.grown c.block c.block_lt).2.1, hx.2]

end Leads

/-! ## One operation -/

/-- New code is typed if its kind reads and gives the types of its operands and results.

**Proof sketch.** The operation is `code` of its kind with the types that it was created with,
because the types of its operands are not touched; what it may need around it are the two last
hypotheses. -/
theorem opTyped_addOp {m : Module} {spec : OpSpec} (hregions : spec.regions = 0)
    (hvalues : ∀ v ∈ spec.operands, v.index < m.values.size)
    (htype : spec.kind.HasType env spec.attrs (m.typesOf spec.operands) spec.results)
    (hbranch : spec.kind ≠ .llvm .condBr) {location : Location} {b : BlockId} {index : Option Nat}
    (hreturns : spec.kind.low = .llvm .ret →
      (m.addOp spec location b index).ReturnsWell ⟨m.ops.size⟩)
    (hcontext : spec.kind = .sol .ret → ∃ f,
      (m.addOp spec location b index).parentOp? ⟨m.ops.size⟩ = some f ∧ env.returning f) :
    (m.addOp spec location b index).OpTyped env ⟨m.ops.size⟩ := by
  have hresults := m.typesOf_results_addOp spec location b index
  have hop := m.op_addOp spec location b index ⟨m.ops.size⟩
  rw [if_pos rfl] at hop
  have htypes : (m.addOp spec location b index).typesOf spec.operands = m.typesOf spec.operands :=
    List.map_congr_left fun v hv => by
      rw [Module.typeOf, m.value_addOp_of_lt spec location b index (hvalues v hv)]
      rfl
  refine .code ?_ ?_ ?_ ?_ ?_
  · rw [hop]
    simp [OpSpec.toOp, hregions]
  · rw [hresults, Module.kind, hop]
    simp only [OpSpec.toOp, htypes]
    exact htype
  · intro hlow
    rw [Module.kind, hop] at hlow
    exact hreturns hlow
  · intro hkind
    rw [Module.kind, hop] at hkind
    exact absurd hkind hbranch
  · intro hkind
    rw [Module.kind, hop] at hkind
    exact hcontext hkind

/-- A cursor steps behind a new typed operation whose operands it knows.

**Proof sketch.** The new cursor stands behind the operation.  The module stays well-typed by
`WellTyped.of_insert`, since what the cursor knows is readable there; the insertion point moves by
one, or stays at the end. -/
theorem exists_advance (c : Cursor env) {n : Module} (hlinked : n.Linked)
    (hext : Module.Extends (· = c.block) c.ir n) (hsize : n.ops.size = c.ir.ops.size + 1)
    (hblocks : n.blocks.size = c.ir.blocks.size)
    (hops : (n.block c.block).ops = c.before ++ ⟨c.ir.ops.size⟩ :: c.behind)
    (hoperands : ∀ v ∈ (n.op ⟨c.ir.ops.size⟩).operands, ∃ t, c.Knows v t)
    (htyped : n.OpTyped env ⟨c.ir.ops.size⟩) :
    ∃ d : Cursor env, d.builder = { c.builder with
        ir := n
        point := c.builder.point.map InsertPoint.next } ∧ c.Leads d [⟨c.ir.ops.size⟩] := by
  obtain ⟨index, hpoint, hindex⟩ := c.point
  have hknown : ∀ v ∈ (n.op ⟨c.ir.ops.size⟩).operands, v ∈ (c.ir.block c.block).args ∨
      ∃ p ∈ c.before, v ∈ (c.ir.op p).results := by
    intro v hv
    obtain ⟨t, -, hplace⟩ := hoperands v hv
    exact hplace
  refine ⟨
    { builder := { c.builder with ir := n, point := c.builder.point.map InsertPoint.next }
      block := c.block
      before := c.before ++ [⟨c.ir.ops.size⟩]
      behind := c.behind
      typed := c.typed.of_insert hlinked hext hsize hblocks c.block_lt c.ops hops hknown htyped
      block_lt := hblocks ▸ c.block_lt
      ops := by rw [List.append_assoc]; exact hops
      point := ?_ }, rfl, hext, rfl, rfl, rfl, hblocks, fun o => ?_⟩
  · refine ⟨index.map (· + 1), by rw [hpoint]; rfl, ?_⟩
    rcases hindex with rfl | ⟨rfl, hbehind⟩
    · exact .inl (by simp)
    · exact .inr ⟨rfl, hbehind⟩
  · change o ∈ [⟨c.ir.ops.size⟩] ↔ c.ir.ops.size ≤ o.index ∧ o.index < n.ops.size
    rw [List.mem_singleton, ← OpId.index_eq_iff, hsize]
    simp only
    omega

/-- Creating an operation at a cursor puts it between what stands before and behind. -/
theorem run_op (c : Cursor env) (spec : OpSpec) : ∃ index,
    (Build.op spec).run c.builder = .ok ⟨c.ir.ops.size⟩ { c.builder with
      ir := c.ir.addOp spec c.builder.location c.block index
      point := c.builder.point.map InsertPoint.next } ∧
    ((c.ir.addOp spec c.builder.location c.block index).block c.block).ops =
      c.before ++ ⟨c.ir.ops.size⟩ :: c.behind := by
  obtain ⟨index, hpoint, hindex⟩ := c.point
  refine ⟨index, ?_, ?_⟩
  · simp only [Build.op, EStateM.run_bind, EStateM.run_get, hpoint]
    rfl
  · rw [Module.block_addOp, if_pos ⟨rfl, c.block_lt⟩]
    simp only [ir, c.ops]
    exact Module.placeAt_append _ hindex

/-- Any typed operation whose operands are known is written at a cursor. -/
theorem exists_write (c : Cursor env) {spec : OpSpec}
    (hoperands : ∀ v ∈ spec.operands, ∃ t, c.Knows v t)
    (htyped : ∀ index, (c.ir.addOp spec c.builder.location c.block index).OpTyped env
      ⟨c.ir.ops.size⟩) :
    ∃ (d : Cursor env) (index : Option Nat),
      (Build.op spec).run c.builder = .ok ⟨c.ir.ops.size⟩ d.builder ∧
        d.ir = c.ir.addOp spec c.builder.location c.block index ∧
        c.Leads d [⟨c.ir.ops.size⟩] := by
  obtain ⟨index, hrun, hops⟩ := c.run_op spec
  have hvalues : ∀ v ∈ spec.operands, v.index < c.ir.values.size := fun v hv =>
    (hoperands v hv).elim fun t ht => ht.index_lt
  have hop := c.ir.op_addOp spec c.builder.location c.block index ⟨c.ir.ops.size⟩
  rw [if_pos rfl] at hop
  obtain ⟨d, hd, hlead⟩ := c.exists_advance
    (n := c.ir.addOp spec c.builder.location c.block index)
    (c.typed.toLinked.addOp spec c.builder.location hvalues c.block_lt index)
    ((Module.Extends.refl (· = c.block) c.ir).addOp spec _ (.inl rfl) index)
    (Module.size_ops_addOp _ _ _ _ _) (Module.size_blocks_addOp _ _ _ _ _) hops
    (by rw [hop]; exact hoperands) (htyped index)
  exact ⟨d, index, by rw [hrun, hd], by rw [ir, hd], hlead⟩

/-! ## Routines -/

section Routines

variable {ε α β : Type}

/-- A step succeeds at a cursor and writes code without a terminator. -/
def Writes (x : EStateM ε Builder α) (c : Cursor env) (Q : α → Cursor env → Prop) : Prop :=
  ∃ (a : α) (d : Cursor env) (code : List OpId), x.run c.builder = .ok a d.builder ∧
    c.Leads d code ∧ (∀ o ∈ code, (d.ir.kind o).isPlain = true) ∧ Q a d

/-- A step succeeds at a cursor and writes code that ends with a terminator of a kind. -/
def Ends (x : EStateM ε Builder α) (c : Cursor env) (kind : OpKind) : Prop :=
  ∃ (a : α) (d : Cursor env) (code : List OpId) (last : OpId), x.run c.builder = .ok a d.builder ∧
    c.Leads d (code ++ [last]) ∧ (∀ o ∈ code, (d.ir.kind o).isPlain = true) ∧
    d.ir.kind last = kind

variable {c : Cursor env} {Q : α → Cursor env → Prop}

/-- Doing nothing writes nothing. -/
theorem Writes.pure {a : α} (ha : Q a c) : Writes (pure a : EStateM ε Builder α) c Q :=
  ⟨a, c, [], rfl, .refl c, by simp, ha⟩

/-- Plain code stays plain while more is written. -/
theorem Leads.plain {d e : Cursor env} {code more : List OpId} (h : c.Leads d code)
    (k : d.Leads e more) (hcode : ∀ o ∈ code, (d.ir.kind o).isPlain = true) :
    ∀ o ∈ code, (e.ir.kind o).isPlain = true := by
  intro o ho
  rw [Module.kind, k.op_eq (by rw [h.before]; exact List.mem_append_right _ ho)]
  exact hcode o ho

/-- One step after another. -/
theorem Writes.bind {x : EStateM ε Builder α} {f : α → EStateM ε Builder β}
    {R : β → Cursor env → Prop} (hx : Writes x c Q)
    (hf : ∀ a d code, c.Leads d code → Q a d → Writes (f a) d R) : Writes (x >>= f) c R := by
  obtain ⟨a, d, code, hrun, hlead, hplain, ha⟩ := hx
  obtain ⟨b, e, more, hrun', hlead', hplain', hb⟩ := hf a d code hlead ha
  refine ⟨b, e, code ++ more, ?_, hlead.trans hlead', fun o ho => ?_, hb⟩
  · rw [EStateM.run_bind, hrun]
    exact hrun'
  · rcases List.mem_append.1 ho with ho | ho
    · exact hlead.plain hlead' hplain o ho
    · exact hplain' o ho

/-- A step, and then one that ends the block. -/
theorem Writes.bind_ends {x : EStateM ε Builder α} {f : α → EStateM ε Builder β} {kind : OpKind}
    (hx : Writes x c Q) (hf : ∀ a d code, c.Leads d code → Q a d → Ends (f a) d kind) :
    Ends (x >>= f) c kind := by
  obtain ⟨a, d, code, hrun, hlead, hplain, ha⟩ := hx
  obtain ⟨b, e, more, last, hrun', hlead', hplain', hlast⟩ := hf a d code hlead ha
  refine ⟨b, e, code ++ more, last, ?_, ?_, fun o ho => ?_, hlast⟩
  · rw [EStateM.run_bind, hrun]
    exact hrun'
  · rw [List.append_assoc]
    exact hlead.trans hlead'
  · rcases List.mem_append.1 ho with ho | ho
    · exact hlead.plain hlead' hplain o ho
    · exact hplain' o ho

/-- The answer of a step that ends a block does not matter. -/
theorem Ends.bind_pure {x : EStateM ε Builder α} {kind : OpKind} (hx : Ends x c kind)
    (f : α → β) : Ends (x >>= fun a => Pure.pure (f a)) c kind := by
  obtain ⟨a, d, code, last, hrun, hrest⟩ := hx
  refine ⟨f a, d, code, last, ?_, hrest⟩
  rw [EStateM.run_bind, hrun]
  rfl

/-- A step that only looks writes nothing. -/
theorem Writes.of_run {x : EStateM ε Builder α} {a : α} (h : x.run c.builder = .ok a c.builder) :
    Writes x c fun a' d => a' = a ∧ c = d := ⟨a, c, [], h, .refl c, by simp, rfl, rfl⟩

/-- A step of building, as a step of compilation. -/
theorem Writes.liftM {x : Build α} (hx : Writes x c Q) : Writes (liftM x : Lower α) c Q := by
  obtain ⟨a, d, code, hrun, hlead, hplain, ha⟩ := hx
  exact ⟨a, d, code, by rw [run_liftM, hrun], hlead, hplain, ha⟩

/-- A step of building that ends a block, as a step of compilation. -/
theorem Ends.liftM {x : Build α} {kind : OpKind} (hx : Ends x c kind) :
    Ends (liftM x : Lower α) c kind := by
  obtain ⟨a, d, code, last, hrun, hlead, hplain, hlast⟩ := hx
  exact ⟨a, d, code, last, by rw [run_liftM, hrun], hlead, hplain, hlast⟩

end Routines

/-! ## Typed operations -/

section Typed

variable {c : Cursor env} {spec : OpSpec} {t : Ty}

/-- Typed code is written as a single operation of its kind.

**Proof sketch.** `exists_write` with the typing of the operation that was written, by
`opTyped_addOp`; what owns the block is not changed by growth. -/
theorem exists_write_code (hregions : spec.regions = 0)
    (hoperands : ∀ v ∈ spec.operands, ∃ t, c.Knows v t)
    (htype : spec.kind.HasType env spec.attrs (c.ir.typesOf spec.operands) spec.results)
    (hret : spec.kind.low ≠ .llvm .ret) (hbranch : spec.kind ≠ .llvm .condBr)
    (hcontext : spec.kind = .sol .ret → ∃ f, c.ir.owner? c.block = some f ∧ env.returning f) :
    ∃ (d : Cursor env) (index : Option Nat),
      (Build.op spec).run c.builder = .ok ⟨c.ir.ops.size⟩ d.builder ∧
        d.ir = c.ir.addOp spec c.builder.location c.block index ∧
        c.Leads d [⟨c.ir.ops.size⟩] ∧ d.ir.kind ⟨c.ir.ops.size⟩ = spec.kind := by
  have hvalues : ∀ v ∈ spec.operands, v.index < c.ir.values.size := fun v hv =>
    (hoperands v hv).elim fun t ht => ht.index_lt
  obtain ⟨d, index, hrun, hir, hlead⟩ := c.exists_write hoperands fun index => by
    have hext : Module.Extends (· = c.block) c.ir
        (c.ir.addOp spec c.builder.location c.block index) :=
      (Module.Extends.refl (· = c.block) c.ir).addOp spec _ (.inl rfl) index
    refine opTyped_addOp hregions hvalues htype hbranch (fun hlow => absurd hlow hret)
      fun hsol => ?_
    obtain ⟨f, howner, hf⟩ := hcontext hsol
    refine ⟨f, ?_, hf⟩
    rw [Module.parentOp?_eq_owner? (b := c.block) (by rw [Module.op_addOp, if_pos rfl]; rfl)]
    exact (Module.WellTyped.owner?_of_extends c.typed.toLinked hext c.block_lt).trans howner
  refine ⟨d, index, hrun, hir, hlead, ?_⟩
  rw [Module.kind, hir, Module.op_addOp, if_pos rfl]
  rfl

/-- Plain code without a result that is looked at. -/
theorem writes_op (spec : OpSpec) (hregions : spec.regions = 0)
    (hoperands : ∀ v ∈ spec.operands, ∃ t, c.Knows v t)
    (htype : spec.kind.HasType env spec.attrs (c.ir.typesOf spec.operands) spec.results)
    (hplain : spec.kind.isPlain = true) : Writes (Build.op spec) c fun _ _ => True := by
  obtain ⟨d, index, hrun, -, hlead, hkind⟩ :=
    exists_write_code hregions hoperands htype (OpKind.low_ne_ret hplain)
      (OpKind.ne_condBr hplain) fun hsol => absurd hsol (OpKind.ne_solReturn hplain)
  refine ⟨_, d, _, hrun, hlead, fun o ho => ?_, trivial⟩
  rw [List.mem_singleton.1 ho, hkind, hplain]

/-- Plain code with one result, which is known afterwards.

**Proof sketch.** `exists_write_code`, and the one result is read off the new operation; it is
known because that operation is now in front of the cursor. -/
theorem writes_value (spec : OpSpec) (hregions : spec.regions = 0) (hresults : spec.results = [t])
    (hoperands : ∀ v ∈ spec.operands, ∃ t, c.Knows v t)
    (htype : spec.kind.HasType env spec.attrs (c.ir.typesOf spec.operands) spec.results)
    (hplain : spec.kind.isPlain = true) :
    Writes (Build.value spec) c fun v d => d.Knows v t := by
  obtain ⟨d, index, hrun, hir, hlead, hkind⟩ :=
    exists_write_code hregions hoperands htype (OpKind.low_ne_ret hplain)
      (OpKind.ne_condBr hplain) fun hsol => absurd hsol (OpKind.ne_solReturn hplain)
  have htypes := c.ir.typesOf_results_addOp spec c.builder.location c.block index
  rw [← hir, hresults] at htypes
  obtain ⟨v, hv, hty⟩ := List.map_eq_singleton_iff.1 htypes
  refine ⟨v, d, [⟨c.ir.ops.size⟩], ?_, hlead, fun o ho => ?_, hty, .inr ⟨⟨c.ir.ops.size⟩, ?_, ?_⟩⟩
  · have hhead : (d.builder.ir.op ⟨c.ir.ops.size⟩).results.headD default = v := by
      have hv : (d.builder.ir.op ⟨c.ir.ops.size⟩).results = [v] := hv
      rw [hv]
      rfl
    simp only [Build.value, EStateM.run_bind, hrun, Build.ir, EStateM.run_get, EStateM.run_pure,
      hhead]
  · rw [List.mem_singleton.1 ho, hkind, hplain]
  · rw [hlead.before]
    exact List.mem_append_right _ (.head _)
  · rw [hv]
    exact .head _

/-- A terminator. -/
theorem ends_op (spec : OpSpec) (hregions : spec.regions = 0)
    (hoperands : ∀ v ∈ spec.operands, ∃ t, c.Knows v t)
    (htype : spec.kind.HasType env spec.attrs (c.ir.typesOf spec.operands) spec.results)
    (hret : spec.kind.low ≠ .llvm .ret) (hbranch : spec.kind ≠ .llvm .condBr)
    (hcontext : spec.kind = .sol .ret → ∃ f, c.ir.owner? c.block = some f ∧ env.returning f) :
    Ends (Build.op spec) c spec.kind := by
  obtain ⟨d, index, hrun, -, hlead, hkind⟩ :=
    exists_write_code hregions hoperands htype hret hbranch hcontext
  exact ⟨_, d, [], _, hrun, hlead, by simp, hkind⟩

end Typed

end Cursor

end ContractIR
