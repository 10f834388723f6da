import ContractIR.Proofs.Lowering.Assembly
import ContractIR.Proofs.Typing.Cursor

/-!
# Functions and containers in well-typed modules

New functions and containers with their blocks keep a module well-typed.  Whether the blocks of
functions end with terminators is a matter of its own: while code is moved or written, some blocks
are still open.

## Main definitions

* `ContractIR.Module.Ended` — a block ends with its only terminator.
* `ContractIR.Module.EndedBut` — all blocks of functions do, but for some open ones.

## Main results

* `ContractIR.Module.WellTyped.addScope`, `appendBlock` — new scopes and blocks.
* `ContractIR.Module.EndedBut.of_extends` — building leaves ended blocks ended.
-/

set_option autoImplicit false

namespace ContractIR

namespace Module

variable {env : Env} {m n : Module}

/-! ## Scopes -/

/-- The types of the arguments of a block that was just added. -/
theorem typesOf_args_appendBlock (m : Module) (r : RegionId) (argTypes : List Ty) :
    (m.appendBlock r argTypes).2.typesOf
      ((m.appendBlock r argTypes).2.block ⟨m.blocks.size⟩).args = argTypes := by
  rw [block_appendBlock, if_pos rfl]
  apply List.ext_getElem?
  intro i
  simp only [typesOf, List.map_map, List.getElem?_map]
  by_cases hi : i < argTypes.length
  · have hty : argTypes[i]? = some argTypes[i] := List.getElem?_eq_getElem hi
    simp [List.getElem?_range hi, typeOf, value_appendBlock_add m r argTypes hty]
  · simp [hi]

/-- The types of the arguments of the block of a scope that was just added. -/
theorem typesOf_args_addScope (m : Module) (spec : OpSpec) (location : Location) (b : BlockId)
    (argTypes : List Ty) :
    (m.addScope spec location b argTypes).typesOf
      ((m.addScope spec location b argTypes).block ⟨m.blocks.size⟩).args = argTypes := by
  have htypes := typesOf_args_appendBlock (m.addOp spec location b none) ⟨m.regions.size⟩ argTypes
  rw [size_blocks_addOp] at htypes
  exact htypes

/-- A new function or container with one block keeps a module well-typed.

**Proof sketch.** Growth in the block that the scope is put into (`of_extends`).  The only new
operation is typed by hypothesis and reads nothing; the only new block has arguments that hold no
cells. -/
theorem WellTyped.addScope (h : m.WellTyped env) {spec : OpSpec} {location : Location} {b : BlockId}
    {argTypes : List Ty} (hoperands : spec.operands = []) (hregions : spec.regions = 1)
    (hb : b.index < m.blocks.size) (hargs : ∀ t ∈ argTypes, t.element? = none)
    (htyped : (m.addScope spec location b argTypes).OpTyped env ⟨m.ops.size⟩) :
    (m.addScope spec location b argTypes).WellTyped env := by
  have hext : Extends (· = b) m (m.addScope spec location b argTypes) :=
    (Extends.refl (· = b) m).addScope spec location (.inl rfl) argTypes
  have hadded : (m.addOp spec location b none).Linked :=
    h.toLinked.addOp spec location (by simp [hoperands]) hb none
  have hlinked : (m.addScope spec location b argTypes).Linked :=
    hadded.appendBlock (by simp [hregions]) argTypes
  have hnewBlock : ∀ x : BlockId, x.index < m.blocks.size → x ≠ ⟨m.blocks.size⟩ := by
    rintro x hx rfl
    exact absurd hx (Nat.lt_irrefl _)
  refine h.of_extends hlinked hext ?_ ?_ ?_
  · intro x hx
    rw [block_addScope, if_neg (hnewBlock x hx)]
    split
    · exact List.sublist_append_left _ _
    · exact .refl _
  · intro id x hid hx
    obtain rfl : id = ⟨m.ops.size⟩ := by
      have hlt := op_lt_of_parent hx
      rw [size_ops_addScope] at hlt
      rw [← OpId.index_eq_iff]
      simp only
      omega
    refine ⟨htyped, fun v hv => ?_⟩
    rw [op_addScope, if_pos rfl] at hv
    simp only [OpSpec.toOp, hoperands] at hv
    cases hv
  · intro x hx v hv
    by_cases hxnew : x = ⟨m.blocks.size⟩
    · rw [hxnew] at hv
      have hmem := List.mem_map_of_mem (f := (m.addScope spec location b argTypes).typeOf) hv
      rw [← typesOf, typesOf_args_addScope] at hmem
      exact hargs _ hmem
    · rw [block_addScope, if_neg hxnew, if_neg (by rintro ⟨rfl, _⟩; omega), block_of_le hx] at hv
      cases hv

/-- What owns the block of a new operation owned it before. -/
theorem WellTyped.parentOp?_new {B : BlockId → Prop} (h : m.WellTyped env) (hext : Extends B m n)
    {b : BlockId} (hb : b.index < m.blocks.size) {id : OpId} (hid : (n.op id).parent = some b) :
    n.parentOp? id = m.owner? b := by
  rw [parentOp?_eq_owner? hid, WellTyped.owner?_of_extends h.toLinked hext hb]

/-- A new function, still without code, keeps a module well-typed.

**Proof sketch.** `addScope` for a function: its name and signature are read off its attributes,
and its one region starts with the new block, whose arguments have the types of its inputs. -/
theorem WellTyped.addScope_function (h : m.WellTyped env) {spec : OpSpec} {location : Location}
    {b : BlockId} {name : String} {signature : Signature} (hb : b.index < m.blocks.size)
    (hkind : spec.kind.isFunction = true) (hoperands : spec.operands = [])
    (hresults : spec.results = []) (hregions : spec.regions = 1)
    (hname : spec.attrs.get? AttrName.symName = some (.str name))
    (hsignature : spec.attrs.get? AttrName.functionType = some (.type signature.toTy))
    (houter : ∀ c, m.owner? b = some c → (m.kind c).isContainer = true)
    (hinputs : ∀ t ∈ signature.inputs, t.element? = none) :
    (m.addScope spec location b signature.inputs).WellTyped env := by
  have hext : Extends (· = b) m (m.addScope spec location b signature.inputs) :=
    (Extends.refl (· = b) m).addScope _ location (.inl rfl) _
  have hop := m.op_addScope spec location b signature.inputs ⟨m.ops.size⟩
  rw [if_pos rfl] at hop
  have hregion := m.region_addScope_new spec location b signature.inputs (by omega)
  have hregions' : ((m.addScope spec location b signature.inputs).op ⟨m.ops.size⟩).regions =
      [⟨m.regions.size⟩] := by
    rw [hop]
    simp [OpSpec.toOp, hregions]
  have hname' : (m.addScope spec location b signature.inputs).symName? ⟨m.ops.size⟩ =
      some name := by
    rw [symName?, attr?, hop]
    simp [OpSpec.toOp, hname, Attr.str?]
  have hsignature' : (m.addScope spec location b signature.inputs).signature? ⟨m.ops.size⟩ =
      some signature := by
    rw [signature?, attr?, hop]
    simp [OpSpec.toOp, hsignature, Attr.type?, Signature.toTy, Ty.signature?]
  refine h.addScope hoperands hregions hb hinputs
    (.function ?_ ?_ ?_ hregions' hname' hsignature' ?_ ?_)
  · rw [kind, hop]
    exact hkind
  · rw [hop]
    exact hoperands
  · rw [hop]
    simp [OpSpec.toOp, hresults]
  · intro e he
    rw [hregion] at he
    rw [← Option.some.inj he]
    exact typesOf_args_addScope m _ _ _ _
  · intro c hc
    rw [h.parentOp?_new hext hb (by rw [hop]; rfl)] at hc
    rw [kind, hext.ops c (h.owner_lt hc)]
    exact houter c hc

/-- A block without arguments adds no values. -/
theorem typesOf_appendBlock_nil (r : RegionId) (vs : List ValueId) :
    (m.appendBlock r []).2.typesOf vs = m.typesOf vs := by
  refine List.map_congr_left fun v _ => ?_
  have hvalue : (m.appendBlock r []).2.value v = m.value v := by
    rcases Nat.lt_or_ge v.index m.values.size with hv | hv
    · exact value_appendBlock_of_lt m r [] hv
    · rw [value, value, Array.getD_eq_getD_getElem?, Array.getD_eq_getD_getElem?,
        Array.getElem?_eq_none, Array.getElem?_eq_none hv]
      have hsize := m.size_values_appendBlock r []
      simp only [List.length_nil, Nat.add_zero] at hsize
      omega
  rw [typeOf, hvalue]
  rfl

/-- Another block in a region that has one keeps a module well-typed.

**Proof sketch.** Every operation stays as it was (`OpTyped.congr`): the new block comes last, so
the first block of the region is the same, and it has no arguments. -/
theorem WellTyped.appendBlock (h : m.WellTyped env) {r : RegionId} (hr : (m.region r).blocks ≠ []) :
    (m.appendBlock r []).2.WellTyped env := by
  have hlt : r.index < m.regions.size := by
    obtain ⟨b, hb⟩ := List.exists_mem_of_ne_nil _ hr
    exact region_lt_of_mem_blocks hb
  have hold : ∀ b : BlockId, b.index < m.blocks.size →
      (m.appendBlock r []).2.block b = m.block b := by
    intro b hb
    rw [block_appendBlock, if_neg]
    rintro rfl
    exact absurd hb (Nat.lt_irrefl _)
  have htypes : ∀ vs, (m.appendBlock r []).2.typesOf vs = m.typesOf vs :=
    typesOf_appendBlock_nil r
  have houter : ∀ id b, (m.op id).parent = some b →
      (m.appendBlock r []).2.parentOp? id = m.parentOp? id := by
    intro id b hb
    simp only [parentOp?, op_appendBlock, hb, Option.bind_some, hold b (h.block_lt hb),
      parent_region_appendBlock]
  refine { toLinked := h.toLinked.appendBlock hlt [], typed := ?_, reads := ?_, args := ?_ }
  · intro id b hb
    rw [op_appendBlock] at hb
    refine (h.typed id b hb).congr (by rw [op_appendBlock]) ?_ (htypes _)
      (.inl ⟨by rw [op_appendBlock], houter id b hb⟩) (fun x hx => ?_) ?_ ?_
    · rw [htypes]
      exact List.forall₂_same.2 fun t _ => .inl rfl
    · rw [size_blocks_appendBlock, hold x hx]
      exact ⟨Nat.lt_succ_of_lt hx, rfl⟩
    · intro f _
      exact ⟨rfl, rfl⟩
    · intro s hs e he
      have hhead : (m.region s).blocks.head? = some e := by
        rw [region_appendBlock] at he
        split at he
        · rename_i hsr
          obtain ⟨first, rest, hcons⟩ := List.exists_cons_of_ne_nil hr
          rw [hsr.1] at he ⊢
          rw [hcons] at he ⊢
          exact he
        · exact he
      refine ⟨hhead, ?_⟩
      rw [htypes, hold e (h.blocks_lt s e (List.mem_of_mem_head? hhead))]
  · intro id b hb v hv
    rw [op_appendBlock] at hb hv
    rcases h.reads id b hb v hv with harg | ⟨p, hp, hsub⟩
    · exact .inl (by rw [hold b (h.block_lt hb)]; exact harg)
    · exact .inr ⟨p, hp, by rw [hold b (h.block_lt hb)]; exact hsub⟩
  · intro b v hv
    have htype : (m.appendBlock r []).2.typeOf v = m.typeOf v := List.singleton_inj.1 (htypes [v])
    rw [htype]
    rw [block_appendBlock] at hv
    split at hv
    · cases hv
    · exact h.args b v hv

/-! ## Ended blocks -/

/-- A block ends with its only terminator. -/
def Ended (m : Module) (b : BlockId) : Prop :=
  ∃ init last, (m.block b).ops = init ++ [last] ∧ (m.kind last).isTerminator = true ∧
    ∀ o ∈ init, (m.kind o).isTerminator = false

/-- A block belongs to a function. -/
def InFunction (m : Module) (b : BlockId) : Prop :=
  b.index < m.blocks.size ∧ ∃ f, m.owner? b = some f ∧ (m.kind f).isFunction = true

/-- The blocks of functions are ended, but for some. -/
def EndedBut (m : Module) (E : BlockId → Prop) : Prop := ∀ b, m.InFunction b → E b ∨ m.Ended b

/-- A block is ended as long as it lists the same operations of the same levels. -/
theorem Ended.congr {b : BlockId} (h : m.Ended b) (hops : (n.block b).ops = (m.block b).ops)
    (hkind : ∀ o ∈ (m.block b).ops, (n.kind o).low = (m.kind o).low) : n.Ended b := by
  obtain ⟨init, last, hsplit, hlast, hinit⟩ := h
  refine ⟨init, last, hops.trans hsplit, ?_, fun o ho => ?_⟩
  · rw [(OpKind.classes_of_low_eq (hkind last (by simp [hsplit]))).1, hlast]
  · rw [(OpKind.classes_of_low_eq (hkind o (by simp [hsplit, ho]))).1, hinit o ho]

/-- A block in which nothing is built stays ended. -/
theorem Ended.of_extends {B : BlockId → Prop} {b : BlockId} (h : m.Ended b) (hlinked : m.Linked)
    (hext : Extends B m n) (hb : b.index < m.blocks.size) (hB : ¬B b) : n.Ended b := by
  refine h.congr (by rw [hext.blocks b hb hB]) fun o ho => ?_
  rw [kind, hext.ops o (hlinked.ops_lt ho)]
  rfl

/-- The block of a function in a module that grew was one before. -/
theorem InFunction.of_extends {B : BlockId → Prop} (h : m.Linked) (hext : Extends B m n)
    {b : BlockId} (hb : b.index < m.blocks.size) (hn : n.InFunction b) : m.InFunction b := by
  obtain ⟨-, f, hf, hkind⟩ := hn
  rw [WellTyped.owner?_of_extends h hext hb] at hf
  refine ⟨hb, f, hf, ?_⟩
  rw [kind, hext.ops f (h.owner_lt hf)] at hkind
  exact hkind

/-- What is built elsewhere leaves ended blocks ended. -/
theorem EndedBut.of_extends {B E F : BlockId → Prop} (h : m.EndedBut E) (hlinked : m.Linked)
    (hext : Extends B m n)
    (hold : ∀ b, m.InFunction b → E b ∨ B b → F b ∨ n.Ended b)
    (hnew : ∀ b, m.blocks.size ≤ b.index → n.InFunction b → F b ∨ n.Ended b) : n.EndedBut F := by
  intro b hb
  rcases Nat.lt_or_ge b.index m.blocks.size with hlt | hge
  · have hm := hb.of_extends hlinked hext hlt
    by_cases hB : B b
    · exact hold b hm (.inr hB)
    · rcases h b hm with hE | hended
      · exact hold b hm (.inl hE)
      · exact .inr (hended.of_extends hlinked hext hlt hB)
  · exact hnew b hge hb

end Module

/-- Code that ends with a terminator, written at the end of a block without one, ends the block.
None of it declares a symbol.

**Proof sketch.** The operations of the block are those in front of the cursor, the plain code
and the terminator.  None in front of the terminator is one, by hypothesis or because plain code
contains none. -/
theorem Cursor.Ends.ended {env : Env} {ε α : Type} {x : EStateM ε Builder α} {c : Cursor env}
    {kind : OpKind} (h : Cursor.Ends x c kind) (hkind : kind.isTerminator = true)
    (hbefore : ∀ o ∈ c.before, (c.ir.kind o).isTerminator = false) (hbehind : c.behind = []) :
    ∃ (a : α) (d : Cursor env), x.run c.builder = .ok a d.builder ∧
      Module.Extends (· = c.block) c.ir d.ir ∧ d.ir.blocks.size = c.ir.blocks.size ∧
      d.ir.Ended c.block ∧ ∀ o : OpId, c.ir.ops.size ≤ o.index → o.index < d.ir.ops.size →
        (d.ir.kind o).isSymbol = false := by
  obtain ⟨a, d, code, last, hrun, hlead, hplain, hlast⟩ := h
  simp only [OpKind.isPlain, Bool.and_eq_true, Bool.not_eq_true'] at hplain
  refine ⟨a, d, hrun, hlead.extends_ir, hlead.size_blocks,
    ⟨c.before ++ code, last, ?_, ?_, ?_⟩, fun o hge hlt => ?_⟩
  · have hops : (d.ir.block d.block).ops = d.before ++ d.behind := d.ops
    rw [hlead.block, hlead.before, hlead.behind, hbehind, List.append_nil] at hops
    rw [hops, List.append_assoc]
  · rw [hlast, hkind]
  · intro o ho
    rcases List.mem_append.1 ho with ho | ho
    · rw [Module.kind, hlead.op_eq ho]
      exact hbefore o ho
    · exact (hplain o ho).1
  · rcases List.mem_append.1 ((hlead.new o).2 ⟨hge, hlt⟩) with ho | ho
    · exact (hplain o ho).2
    · rw [List.mem_singleton.1 ho, hlast, OpKind.isSymbol_of_isTerminator hkind]

end ContractIR
