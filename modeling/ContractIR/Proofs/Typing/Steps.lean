import ContractIR.Proofs.Typing.Cursor

/-!
# Typed steps of building

What each helper that generated code uses writes at a cursor, and of which type its result is.

## Main results

* `ContractIR.Cursor.writes_integer`, `writes_binary`, `writes_icmp` — numbers.
* `ContractIR.Cursor.writes_addressOf`, `writes_load`, `writes_store`, `writes_gep` — memory.
* `ContractIR.Cursor.writes_call`, `ends_unreachable`, `ends_condBr` — control.
-/

set_option autoImplicit false

namespace ContractIR

open ContractIR.Module (OpSpec)

/-- Whether code is plain is decided by the low-level kind. -/
theorem OpKind.isPlain_of_low {kind : OpKind} {k : LlvmOp} (h : kind.low = .llvm k)
    (hplain : (OpKind.llvm k).isPlain = true) : kind.isPlain = true := by
  obtain ⟨hterminator, -, -, hsymbol⟩ := OpKind.classes_of_low_eq (k := kind) (l := .llvm k) h
  rw [OpKind.isPlain, hterminator, hsymbol]
  exact hplain

namespace Cursor

variable {env : Env} {ε α : Type} {c : Cursor env}

/-- A step that runs like another one writes the same. -/
theorem Writes.of_run_eq {x y : EStateM ε Builder α} {Q : α → Cursor env → Prop}
    (hy : Writes y c Q) (h : x.run c.builder = y.run c.builder) : Writes x c Q := by
  obtain ⟨a, d, code, hrun, hrest⟩ := hy
  exact ⟨a, d, code, h.trans hrun, hrest⟩

/-- A step that runs like another one ends a block in the same way. -/
theorem Ends.of_run_eq {x y : EStateM ε Builder α} {kind : OpKind} (hy : Ends y c kind)
    (h : x.run c.builder = y.run c.builder) : Ends x c kind := by
  obtain ⟨a, d, code, last, hrun, hrest⟩ := hy
  exact ⟨a, d, code, last, h.trans hrun, hrest⟩

/-- The type of a known value is found. -/
theorem run_typeOf {v : ValueId} {t : Ty} (h : c.Knows v t) :
    (Build.typeOf v).run c.builder = .ok t c.builder := by
  rw [← h.1]
  rfl

/-- The types of two known values. -/
theorem typesOf_pair {v w : ValueId} {t u : Ty} (hv : c.Knows v t) (hw : c.Knows w u) :
    c.ir.typesOf [v, w] = [t, u] := by
  simp [Module.typesOf, hv.1, hw.1]

/-- The types of known values. -/
theorem typesOf_eq {vs : List ValueId} {ts : List Ty} (h : List.Forall₂ c.Knows vs ts) :
    c.ir.typesOf vs = ts := by
  induction h with
  | nil => rfl
  | cons hv _ ih => rw [Module.typesOf, List.map_cons, hv.1, ← Module.typesOf, ih]

/-- Both of two known values are known. -/
theorem knows_pair {v w : ValueId} {t u : Ty} (hv : c.Knows v t) (hw : c.Knows w u) :
    ∀ x ∈ [v, w], ∃ s, c.Knows x s := by
  intro x hx
  rcases List.mem_pair.1 hx with rfl | rfl
  · exact ⟨t, hv⟩
  · exact ⟨u, hw⟩

/-! ## Numbers -/

/-- A constant. -/
theorem writes_integer {kind : OpKind} (hkind : kind.low = .llvm .constant) (n : Int) (w : Nat) :
    Writes (Build.integer kind n (.int w)) c fun v d => d.Knows v (.int w) := by
  refine writes_value
    { kind := kind
      results := [.int w]
      attrs := .ofList [(AttrName.value, .int n (.int w))] } rfl rfl (by simp) ?_ ?_
  · exact .constant hkind rfl
  · exact OpKind.isPlain_of_low hkind rfl

/-- Two known integers of one type have a common type. -/
theorem run_sameInteger {kind : OpKind} {lhs rhs : ValueId} {w : Nat} (hl : c.Knows lhs (.int w))
    (hr : c.Knows rhs (.int w)) :
    (Build.sameInteger kind lhs rhs).run c.builder = .ok (.int w) c.builder := by
  simp [Build.sameInteger, EStateM.run_bind, run_typeOf hl, run_typeOf hr, Ty.isInt]

/-- Arithmetic on two integers of one type. -/
theorem writes_binary {kind : OpKind} {k : LlvmOp} (hkind : kind.low = .llvm k)
    (hk : Build.Llvm.isBinary k = true) {lhs rhs : ValueId} {w : Nat} (hl : c.Knows lhs (.int w))
    (hr : c.Knows rhs (.int w)) :
    Writes (Build.binary kind lhs rhs) c fun v d => d.Knows v (.int w) := by
  refine Writes.of_run_eq (writes_value
    { kind := kind, operands := [lhs, rhs], results := [.int w] } rfl rfl (knows_pair hl hr) ?_
    ?_) ?_
  · rw [typesOf_pair hl hr]
    exact .binary hkind hk
  · apply OpKind.isPlain_of_low hkind
    cases k <;> first | rfl | cases hk
  · rw [Build.binary, EStateM.run_bind, run_sameInteger hl hr]

/-- A low-level comparison of two integers of one type. -/
theorem writes_icmp (p : Predicate) {lhs rhs : ValueId} {w : Nat} (hl : c.Knows lhs (.int w))
    (hr : c.Knows rhs (.int w)) :
    Writes (Build.Llvm.icmp p lhs rhs) c fun v d => d.Knows v Ty.i1 := by
  refine Writes.of_run_eq (writes_value
    { kind := .llvm .icmp
      operands := [lhs, rhs]
      results := [Ty.i1]
      attrs := .ofList [(AttrName.predicate, p.toAttr)] } rfl rfl (knows_pair hl hr) ?_ rfl) ?_
  · rw [typesOf_pair hl hr]
    exact .icmp rfl rfl
  · rw [Build.Llvm.icmp, Build.compare, EStateM.run_bind, run_sameInteger hl hr]

/-- Low-level arithmetic on two integers of one type. -/
theorem writes_llvmBinary {k : LlvmOp} (hk : Build.Llvm.isBinary k = true) {lhs rhs : ValueId}
    {w : Nat} (hl : c.Knows lhs (.int w)) (hr : c.Knows rhs (.int w)) :
    Writes (Build.Llvm.binary k lhs rhs) c fun v d => d.Knows v (.int w) := by
  rw [Build.Llvm.binary, if_pos hk]
  exact writes_binary rfl hk hl hr

/-! ## Memory -/

/-- The address of a global of the ABI. -/
theorem writes_addressOf {g : EraVM.Global} (hg : env.symbols g.name) (s : Nat) :
    Writes (Build.Llvm.addressOf g.name (.ptr s)) c fun v d => d.Knows v (.ptr s) :=
  writes_value _ rfl rfl (by simp) (.addressOf rfl rfl hg) rfl

/-- The reading of an integer behind a pointer. -/
theorem writes_load {p : ValueId} {s : Nat} (hp : c.Knows p (.ptr s)) (w : Nat) :
    Writes (Build.Llvm.load p (.int w)) c fun v d => d.Knows v (.int w) := by
  refine Writes.of_run_eq (writes_value
    { kind := .llvm .load, operands := [p], results := [.int w] } rfl rfl ?_ ?_ rfl) ?_
  · intro v hv
    rw [List.mem_singleton.1 hv]
    exact ⟨_, hp⟩
  · simp only [Module.typesOf, List.map_cons, List.map_nil, hp.1]
    exact .load rfl rfl
  · rw [Build.Llvm.load, EStateM.run_bind, run_typeOf hp]
    rfl

/-- The writing of a value behind a pointer. -/
theorem writes_store {v p : ValueId} {t : Ty} {s : Nat} (hv : c.Knows v t)
    (hp : c.Knows p (.ptr s)) : Writes (Build.Llvm.store v p) c fun _ _ => True := by
  refine Writes.of_run_eq (writes_op
    { kind := .llvm .store, operands := [v, p] } rfl
    (knows_pair hv hp) ?_ rfl) ?_
  · rw [typesOf_pair hv hp]
    exact .store rfl rfl
  · rw [Build.Llvm.store, EStateM.run_bind, run_typeOf hp]
    rfl

/-- The reading of a pointer as an integer. -/
theorem writes_ptrToInt {p : ValueId} {s : Nat} (hp : c.Knows p (.ptr s)) (w : Nat) :
    Writes (Build.Llvm.ptrToInt p (.int w)) c fun v d => d.Knows v (.int w) := by
  refine Writes.of_run_eq (writes_value
    { kind := .llvm .ptrToInt, operands := [p], results := [.int w] } rfl rfl ?_ ?_ rfl) ?_
  · intro v hv
    rw [List.mem_singleton.1 hv]
    exact ⟨_, hp⟩
  · simp only [Module.typesOf, List.map_cons, List.map_nil, hp.1]
    exact .ptrToInt rfl
  · rw [Build.Llvm.ptrToInt, EStateM.run_bind, run_typeOf hp]
    rfl

/-- The reading of an integer as a pointer. -/
theorem writes_intToPtr {v : ValueId} {w : Nat} (hv : c.Knows v (.int w)) (s : Nat) :
    Writes (Build.Llvm.intToPtr v (.ptr s)) c fun p d => d.Knows p (.ptr s) := by
  refine Writes.of_run_eq (writes_value
    { kind := .llvm .intToPtr, operands := [v], results := [.ptr s] } rfl rfl ?_ ?_ rfl) ?_
  · intro x hx
    rw [List.mem_singleton.1 hx]
    exact ⟨_, hv⟩
  · simp only [Module.typesOf, List.map_cons, List.map_nil, hv.1]
    exact .intToPtr rfl
  · rw [Build.Llvm.intToPtr, EStateM.run_bind, run_typeOf hv]
    rfl

/-- Address arithmetic with some integers.

**Proof sketch.** `writes_value` with the rule of address arithmetic: the base is a pointer of
the type of the result and all indices are integers. -/
theorem writes_gep {p : ValueId} {s : Nat} (hp : c.Knows p (.ptr s)) {indices : List ValueId}
    (hindices : ∀ v ∈ indices, ∃ w, c.Knows v (.int w)) (elem : Ty) :
    Writes (Build.Llvm.gep p indices elem) c fun v d => d.Knows v (.ptr s) := by
  refine Writes.of_run_eq (writes_value
    { kind := .llvm .gep
      operands := p :: indices
      results := [.ptr s]
      attrs := .ofList [(AttrName.elemType, .type elem)] } rfl rfl ?_ ?_ rfl) ?_
  · rintro v (_ | ⟨_, hv⟩)
    · exact ⟨_, hp⟩
    · exact (hindices v hv).imp' Ty.int fun _ h => h
  · simp only [Module.typesOf, List.map_cons, hp.1]
    refine .gep rfl (fun t ht => ?_) rfl
    obtain ⟨v, hv, rfl⟩ := List.mem_map.1 ht
    obtain ⟨w, hw⟩ := hindices v hv
    rw [hw.1]
    rfl
  · rw [Build.Llvm.gep, EStateM.run_bind, run_typeOf hp]
    rfl

/-! ## Control -/

/-- A call of a function of the ABI. -/
theorem writes_call {kind : OpKind} (hkind : kind.low = .llvm .call) {callee : String}
    {signature : Signature} (hsignature : EraVM.abiSignature? callee = some signature)
    (hcallee : env.symbols callee) {args : List ValueId}
    (hargs : List.Forall₂ c.Knows args signature.inputs) :
    Writes (Build.op
      { kind := kind
        operands := args
        attrs := .ofList [(AttrName.callee, .symbol callee)] }) c fun _ _ => True := by
  refine writes_op _ rfl (fun v hv => ?_) ?_ (OpKind.isPlain_of_low hkind rfl)
  · obtain ⟨t, -, ht⟩ := Outcome.exists_right hargs hv
    exact ⟨t, ht⟩
  · rw [typesOf_eq hargs]
    exact .call hkind rfl hsignature hcallee

/-- The mark of a place that is never reached. -/
theorem ends_unreachable : Ends Build.Llvm.unreachable c (.llvm .unreachable) :=
  ends_op _ rfl (by simp) (.unreachable rfl) (by simp) (by simp) (by simp)

/-- A return of a stretch of memory from contract code. -/
theorem ends_solReturn {offset length : ValueId} (ho : c.Knows offset Ty.word)
    (hl : c.Knows length Ty.word) {f : OpId} (howner : c.ir.owner? c.block = some f)
    (hf : env.returning f) : Ends (Build.solReturn offset length) c (.sol .ret) := by
  refine Ends.of_run_eq (ends_op
    { kind := .sol .ret, operands := [offset, length] } rfl
    (knows_pair ho hl) ?_ (by simp [OpKind.low]) (by simp) fun _ => ⟨f, howner, hf⟩) ?_
  · rw [typesOf_pair ho hl]
    exact .solReturn rfl
  · rw [Build.solReturn, EStateM.run_bind, run_sameInteger ho hl]

/-- A conditional branch to two blocks of the region around it.

**Proof sketch.** The operation is added with its operand and gets its successors then; both
steps are growth in the block.  It is typed because the condition is a truth value and the two
blocks stand in the same region, so the cursor may step behind it (`exists_advance`). -/
theorem ends_condBr {v : ValueId} (hv : c.Knows v Ty.i1) {thenBlock elseBlock : BlockId}
    (hthen : thenBlock.index < c.ir.blocks.size ∧
      (c.ir.block thenBlock).parent = (c.ir.block c.block).parent)
    (helse : elseBlock.index < c.ir.blocks.size ∧
      (c.ir.block elseBlock).parent = (c.ir.block c.block).parent) :
    Ends (Build.Llvm.condBr v thenBlock elseBlock) c (.llvm .condBr) := by
  let spec : OpSpec := { kind := .llvm .condBr, operands := [v] }
  obtain ⟨index, hrun, hops⟩ := c.run_op spec
  let grown := c.ir.addOp spec c.builder.location c.block index
  let id : OpId := ⟨c.ir.ops.size⟩
  have hext : Module.Extends (· = c.block) c.ir (grown.setSuccessors id [thenBlock, elseBlock]) :=
    ((Module.Extends.refl (· = c.block) c.ir).addOp spec _ (.inl rfl) index).modifyOp
      (Nat.le_refl _) (fun _ => rfl) (fun _ => rfl) fun _ => rfl
  have hop : (grown.setSuccessors id [thenBlock, elseBlock]).op id =
      { spec.toOp c.builder.location c.ir.values.size c.ir.regions.size (some c.block) with
        successors := [thenBlock, elseBlock] } := by
    rw [Module.setSuccessors, Module.op_modifyOp_self _ _ (by simp [grown, id]), Module.op_addOp,
      if_pos rfl]
  have hlinked : (grown.setSuccessors id [thenBlock, elseBlock]).Linked := by
    have hgrown : grown.Linked := c.typed.toLinked.addOp spec _ (fun x hx => by
      rw [List.mem_singleton.1 hx]
      exact hv.index_lt) c.block_lt index
    exact hgrown.modifyOp id (fun _ => rfl) (fun _ => rfl) (fun _ => rfl) (hgrown.operands_lt id)
  have hblock : ∀ b, b.index < c.ir.blocks.size →
      ((grown.setSuccessors id [thenBlock, elseBlock]).block b).parent = (c.ir.block b).parent :=
    fun b hb => (hext.grown b hb).2.1
  have hsize : (grown.setSuccessors id [thenBlock, elseBlock]).blocks.size = c.ir.blocks.size := by
    simp [Module.setSuccessors, grown]
  have htype : (grown.setSuccessors id [thenBlock, elseBlock]).typeOf v = Ty.i1 := by
    rw [Module.typeOf, hext.values v hv.index_lt]
    exact hv.1
  have hbranches : (grown.setSuccessors id [thenBlock, elseBlock]).BranchesWell id := by
    refine ⟨by rw [hop]; rfl, c.block, by rw [hop]; rfl, hsize ▸ c.block_lt, fun b hb => ?_⟩
    rw [hop] at hb
    rw [hsize]
    rcases List.mem_pair.1 hb with rfl | rfl
    · exact ⟨hthen.1, by rw [hblock _ hthen.1, hblock _ c.block_lt]; exact hthen.2⟩
    · exact ⟨helse.1, by rw [hblock _ helse.1, hblock _ c.block_lt]; exact helse.2⟩
  have htyped : (grown.setSuccessors id [thenBlock, elseBlock]).OpTyped env id := by
    refine .code (by rw [hop]; rfl) ?_ ?_ (fun _ => hbranches) ?_
    · rw [Module.kind, hop]
      simp only [spec, OpSpec.toOp, Module.typesOf, List.map_cons, List.map_nil, htype]
      exact .condBr rfl
    · rw [Module.kind, hop]
      intro hlow
      cases hlow
    · rw [Module.kind, hop]
      intro hsol
      cases hsol
  obtain ⟨d, hd, hlead⟩ := c.exists_advance (n := grown.setSuccessors id [thenBlock, elseBlock])
    hlinked hext (by simp [Module.setSuccessors, grown]) hsize hops
    (fun x hx => ⟨_, (by rw [hop] at hx; exact List.mem_singleton.1 hx ▸ hv)⟩) htyped
  refine ⟨id, d, [], id, ?_, hlead, by simp, by rw [Module.kind, ir, hd, hop]; rfl⟩
  rw [Build.Llvm.condBr, EStateM.run_bind, run_typeOf hv]
  simp only [↓reduceIte, EStateM.run_bind, spec] at hrun ⊢
  rw [hrun, hd]
  rfl

end Cursor

end ContractIR
