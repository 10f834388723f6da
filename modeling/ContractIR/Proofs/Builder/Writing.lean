import ContractIR.Proofs.Builder.Growth
import ContractIR.Proofs.Module.Placement

/-!
# Writing code in order

A builder that stands between two parts of a block writes its operations there, one behind the
other.  This is said of a step that succeeds, whatever the module around it looks like, so that it
also applies where nothing is known about types.

## Main definitions

* `ContractIR.Builder.At` — a builder stands between two parts of a block.
* `ContractIR.Builder.Wrote` — what a builder wrote, and that it wrote nothing else.
* `ContractIR.Inserts` — a step writes code at its place, and what is known of the code.
* `ContractIR.Lays` — a step writes code of given kinds.

## Main results

* `ContractIR.Inserts.bind` — steps that follow each other write one piece of code.
* `ContractIR.inserts_op`, `ContractIR.inserts_value` — single operations.
-/

set_option autoImplicit false

namespace ContractIR

open ContractIR.Module (OpSpec)

/-! ## Places and code -/

/-- A builder stands in a block, between some operations of the block and the others. -/
structure Builder.At (b : Builder) (x : BlockId) (before behind : List OpId) : Prop where
  block_lt : x.index < b.ir.blocks.size
  ops : (b.ir.block x).ops = before ++ behind
  point : ∃ index, b.point = some ⟨x, index⟩ ∧
    (index = some before.length ∨ index = none ∧ behind = [])

/-- Where a builder stands tells what it wrote behind some operations. -/
theorem Builder.At.code_eq {b : Builder} {x : BlockId} {before behind code code' : List OpId}
    (h : b.At x (before ++ code) behind) (k : b.At x (before ++ code') behind) : code = code' :=
  List.append_cancel_left (List.append_cancel_right (h.ops.symm.trans k.ops))

/-- A builder wrote code into a block.  The code is all that is new. -/
structure Builder.Wrote (x : BlockId) (b c : Builder) (code : List OpId) : Prop where
  extends_ir : Module.Extends (· = x) b.ir c.ir
  size_blocks : c.ir.blocks.size = b.ir.blocks.size
  new : ∀ o : OpId, o ∈ code ↔ b.ir.ops.size ≤ o.index ∧ o.index < c.ir.ops.size
  members : code ⊆ (c.ir.block x).ops
  results_lt : ∀ o ∈ code, ∀ v ∈ (c.ir.op o).results, v.index < c.ir.values.size
  location : c.location = b.location
  linked : b.ir.Linked → c.ir.Linked

namespace Builder.Wrote

variable {x : BlockId} {b c d : Builder} {code more : List OpId}

/-- Nothing was written. -/
theorem refl (x : BlockId) (b : Builder) : b.Wrote x b [] :=
  ⟨.refl _ _, rfl, by simp, by simp, by simp, rfl, id⟩

/-- Code stays as it is while more is written. -/
theorem op_eq (h : b.Wrote x c code) (k : c.Wrote x d more) {o : OpId} (ho : o ∈ code) :
    d.ir.op o = c.ir.op o := k.extends_ir.ops o ((h.new o).1 ho).2

/-- Code was written, and then some more.

**Proof sketch.** Field by field.  An operation of the second stretch is numbered past those of
the first, so the two are told apart by `new`; the first stretch stays in its block, since blocks
only grow, and keeps its results, since its operations are unchanged (`op_eq`). -/
theorem trans (h : b.Wrote x c code) (k : c.Wrote x d more) : b.Wrote x d (code ++ more) where
  extends_ir := h.extends_ir.trans k.extends_ir
  size_blocks := k.size_blocks.trans h.size_blocks
  new o := by
    have hc := h.extends_ir.size_ops
    have hd := k.extends_ir.size_ops
    rw [List.mem_append, h.new, k.new]
    omega
  members o ho := by
    rcases List.mem_append.1 ho with ho | ho
    · have hmem := h.members ho
      exact (k.extends_ir.grown x (Module.block_lt_of_mem_ops hmem)).2.2.subset hmem
    · exact k.members ho
  results_lt o ho v hv := by
    rcases List.mem_append.1 ho with ho | ho
    · rw [h.op_eq k ho] at hv
      exact Nat.lt_of_lt_of_le (h.results_lt o ho v hv) k.extends_ir.size_values
    · exact k.results_lt o ho v hv
  location := k.location.trans h.location
  linked hb := k.linked (h.linked hb)

end Builder.Wrote

/-! ## Steps -/

section Steps

variable {ε α β : Type} {x : BlockId} {b : Builder}

/-- Wherever in a block a builder stands, a step that succeeds writes code there, with `Q`, and
leaves the builder behind the code. -/
def Inserts (x : BlockId) (y : EStateM ε Builder α) (b : Builder)
    (Q : α → Builder → List OpId → Prop) : Prop :=
  ∀ before behind, b.At x before behind → ∀ a c, y.run b = .ok a c →
    ∃ code, b.Wrote x c code ∧ c.At x (before ++ code) behind ∧ Q a c code

namespace Inserts

variable {Q R : α → Builder → List OpId → Prop}

/-- An answer inserts no code. -/
theorem pure {a : α} (ha : Q a b []) : Inserts x (pure a : EStateM ε Builder α) b Q := by
  rintro before behind hb _ _ h
  cases h
  exact ⟨[], .refl x b, by rwa [List.append_nil], ha⟩

/-- A failure inserts no code. -/
theorem throw (e : ε) : Inserts x (throw e : EStateM ε Builder α) b Q := by
  rintro before behind hb _ _ h
  cases h

/-- One step after another. -/
theorem bind {y : EStateM ε Builder α} {f : α → EStateM ε Builder β}
    {S : β → Builder → List OpId → Prop} (hy : Inserts x y b Q)
    (hf : ∀ a c code, b.Wrote x c code → Q a c code →
      Inserts x (f a) c fun a' d more => S a' d (code ++ more)) : Inserts x (y >>= f) b S := by
  intro before behind hb a' d h
  obtain ⟨a, c, hrun, hrest⟩ := Outcome.run_bind_eq_ok.1 h
  obtain ⟨code, hcode, hc, ha⟩ := hy before behind hb a c hrun
  obtain ⟨more, hmore, hd, ha'⟩ := hf a c code hcode ha _ behind hc a' d hrest
  exact ⟨code ++ more, hcode.trans hmore, by rwa [← List.append_assoc], ha'⟩

/-- A step of which less needs to be known. -/
theorem weaken {y : EStateM ε Builder α} (hy : Inserts x y b Q)
    (hQ : ∀ a c code, b.Wrote x c code → Q a c code → R a c code) : Inserts x y b R := by
  intro before behind hb a c h
  obtain ⟨code, hcode, hc, ha⟩ := hy before behind hb a c h
  exact ⟨code, hcode, hc, hQ a c code hcode ha⟩

/-- Two things are known of the code that a step writes. -/
theorem and {y : EStateM ε Builder α} (hy : Inserts x y b Q) (ky : Inserts x y b R) :
    Inserts x y b fun a c code => Q a c code ∧ R a c code := by
  intro before behind hb a c h
  obtain ⟨code, hcode, hc, ha⟩ := hy before behind hb a c h
  obtain ⟨code', -, hc', ha'⟩ := ky before behind hb a c h
  obtain rfl := hc.code_eq hc'
  exact ⟨code, hcode, hc, ha, ha'⟩

/-- Something is known, for all members of a type at once, of the code that a step writes. -/
theorem forall_of_forall {ι : Type} [Nonempty ι] {y : EStateM ε Builder α}
    {S : ι → α → Builder → List OpId → Prop} (hy : ∀ i, Inserts x y b (S i)) :
    Inserts x y b fun a c code => ∀ i, S i a c code := by
  intro before behind hb a c h
  obtain ⟨i⟩ := ‹Nonempty ι›
  obtain ⟨code, hcode, hc, -⟩ := hy i before behind hb a c h
  refine ⟨code, hcode, hc, fun j => ?_⟩
  obtain ⟨code', -, hc', ha⟩ := hy j before behind hb a c h
  obtain rfl := hc.code_eq hc'
  exact ha

/-- A step that only looks, and then another one. -/
theorem read_bind {y : EStateM ε Builder α} {f : α → EStateM ε Builder β}
    {S : β → Builder → List OpId → Prop} (hy : ∀ a c, y.run b = .ok a c → c = b)
    (hf : ∀ a, y.run b = .ok a b → Inserts x (f a) b S) : Inserts x (y >>= f) b S := by
  intro before behind hb a' d h
  obtain ⟨a, c, hrun, hrest⟩ := Outcome.run_bind_eq_ok.1 h
  obtain rfl := hy a c hrun
  exact hf a hrun before behind hb a' d hrest

/-- A step behind a check. -/
theorem ite {p : Prop} [Decidable p] {y : EStateM ε Builder α} {e : ε} (hy : p → Inserts x y b Q) :
    Inserts x (if p then y else MonadExcept.throw e) b Q := by
  split
  · rename_i hp
    exact hy hp
  · exact throw e

/-- A step of building, as a step of compilation. -/
theorem liftM {y : Build α} (hy : Inserts x y b Q) : Inserts x (liftM y : Lower α) b Q := by
  intro before behind hb a c h
  rw [run_liftM] at h
  split at h
  · cases h
    exact hy before behind hb _ _ ‹_›
  · cases h

end Inserts

/-! ## Operations -/

/-- A builder made an operation in a block. -/
structure Builder.Made (x : BlockId) (spec : OpSpec) (b c : Builder) (id : OpId) : Prop where
  op : c.ir.op id = spec.toOp b.location b.ir.values.size b.ir.regions.size (some x)
  size_values : c.ir.values.size = b.ir.values.size + spec.results.length
  value : ∀ i ty, spec.results[i]? = some ty →
    c.ir.value ⟨b.ir.values.size + i⟩ = ⟨ty, .result id i⟩

/-- Creating an operation writes it.

**Proof sketch.** `run_op_eq_ok` shows the module afterwards as `addOp` at the place of the
insertion point.  Every field is then the lemma about `addOp` that speaks about it, and the list
of the block is that of `placeAt_append`. -/
theorem inserts_op (spec : OpSpec) (hoperands : ∀ v ∈ spec.operands, v.index < b.ir.values.size) :
    Inserts x (Build.op spec) b fun id c code => code = [id] ∧ b.Made x spec c id := by
  intro before behind hb id c h
  obtain ⟨index, hpoint, hindex⟩ := hb.point
  obtain ⟨p, hp, rfl, hnext, hir⟩ := run_op_eq_ok h
  obtain rfl := Option.some.inj (hpoint.symm.trans hp)
  have hlocation : c.location = b.location := by
    unfold Build.op at h
    rw [Outcome.run_get_bind, hpoint] at h
    cases h
    rfl
  have hop : c.ir.op ⟨b.ir.ops.size⟩ =
      spec.toOp b.location b.ir.values.size b.ir.regions.size (some x) := by
    rw [hir, Module.op_addOp, if_pos rfl]
  have hvalues : c.ir.values.size = b.ir.values.size + spec.results.length := by
    rw [hir, Module.size_values_addOp]
  have hops : (c.ir.block x).ops = before ++ [⟨b.ir.ops.size⟩] ++ behind := by
    rw [hir, Module.block_addOp, if_pos ⟨rfl, hb.block_lt⟩]
    simp only [hb.ops, List.append_assoc, List.singleton_append]
    exact Module.placeAt_append _ hindex
  refine ⟨[⟨b.ir.ops.size⟩], ⟨?_, ?_, fun o => ?_, ?_, ?_, hlocation, fun hlinked => ?_⟩,
    ⟨?_, hops, ?_⟩, rfl, hop, hvalues, fun i ty hty => ?_⟩
  · rw [hir]
    exact (Module.Extends.refl (· = x) b.ir).addOp spec _ (.inl rfl) index
  · rw [hir, Module.size_blocks_addOp]
  · rw [hir, Module.size_ops_addOp, List.mem_singleton, ← OpId.index_eq_iff]
    simp only
    omega
  · rw [hops]
    simp
  · intro o ho v hv
    rw [List.mem_singleton.1 ho, hop] at hv
    obtain ⟨i, hi, rfl⟩ := List.mem_map.1 hv
    rw [hvalues]
    exact Nat.add_lt_add_left (List.mem_range.1 hi) _
  · rw [hir]
    exact hlinked.addOp spec _ hoperands hb.block_lt index
  · rw [hir, Module.size_blocks_addOp]
    exact hb.block_lt
  · refine ⟨index.map (· + 1), hnext, ?_⟩
    rcases hindex with rfl | ⟨rfl, rfl⟩
    · exact .inl (by simp)
    · exact .inr ⟨rfl, rfl⟩
  · rw [hir, Module.addOp, Module.value_insertOp, Module.value_createOp_add _ _ _ hty]

/-- Creating an operation with one result writes it. -/
theorem inserts_value (spec : OpSpec) {ty : Ty} (hresults : spec.results = [ty])
    (hoperands : ∀ v ∈ spec.operands, v.index < b.ir.values.size) :
    Inserts x (Build.value spec) b fun v c code => ∃ id, code = [id] ∧ b.Made x spec c id ∧
      v = ⟨b.ir.values.size⟩ ∧ (c.ir.op id).results = [v] := by
  refine (inserts_op spec hoperands).bind fun id c code _ hid => ?_
  obtain ⟨rfl, hmade⟩ := hid
  have hone : (c.ir.op id).results = [⟨b.ir.values.size⟩] := by
    rw [hmade.op]
    simp [OpSpec.toOp, hresults]
  refine .read_bind (y := Build.ir) (fun a d h => ?_) fun m h => ?_
  · cases h
    rfl
  · cases h
    refine .pure ⟨id, rfl, hmade, ?_, ?_⟩
    · rw [hone]
      rfl
    · rw [hone]
      rfl

/-- The type of a value is only looked at. -/
theorem run_typeOf_eq (v : ValueId) (a : Ty) (c : Builder) (h : (Build.typeOf v).run b = .ok a c) :
    c = b := by
  cases h
  rfl

/-- The common type of two values is only looked at. -/
theorem run_sameInteger_eq (kind : OpKind) (v w : ValueId) (a : Ty) (c : Builder)
    (h : (Build.sameInteger kind v w).run b = .ok a c) : c = b := by
  obtain ⟨_, _, hv, hrest⟩ := Outcome.run_bind_eq_ok.1 h
  obtain rfl := run_typeOf_eq v _ _ hv
  obtain ⟨_, _, hw, hcheck⟩ := Outcome.run_bind_eq_ok.1 hrest
  obtain rfl := run_typeOf_eq w _ _ hw
  split at hcheck
  · cases hcheck
    rfl
  · cases hcheck

/-! ## Kinds of operations -/

/-- A step writes code of given kinds. -/
def Lays (x : BlockId) (y : EStateM ε Builder α) (b : Builder) (kinds : List OpKind)
    (Q : α → Builder → Prop) : Prop :=
  Inserts x y b fun a c code => code.map c.ir.kind = kinds ∧ Q a c

namespace Lays

variable {Q : α → Builder → Prop} {kinds more : List OpKind}

/-- An answer lays no code down. -/
theorem pure {a : α} (ha : Q a b) : Lays x (pure a : EStateM ε Builder α) b [] Q :=
  Inserts.pure ⟨rfl, ha⟩

/-- One step after another. -/
theorem bind {y : EStateM ε Builder α} {f : α → EStateM ε Builder β} {R : β → Builder → Prop}
    (hy : Lays x y b kinds Q)
    (hf : ∀ a c, b.ir.values.size ≤ c.ir.values.size → Q a c → Lays x (f a) c more R) :
    Lays x (y >>= f) b (kinds ++ more) R := by
  refine Inserts.bind hy fun a c code hcode ha => ?_
  refine Inserts.weaken (hf a c hcode.extends_ir.size_values ha.2) fun a' d new hnew ha' => ?_
  have hold : code.map d.ir.kind = code.map c.ir.kind :=
    List.map_congr_left fun o ho => congrArg Op.kind (hcode.op_eq hnew ho)
  rw [List.map_append, hold, ha.1, ha'.1]
  exact ⟨rfl, ha'.2⟩

/-- A step behind one that only looks. -/
theorem read_bind {y : EStateM ε Builder α} {f : α → EStateM ε Builder β} {R : β → Builder → Prop}
    (hy : ∀ a c, y.run b = .ok a c → c = b) (hf : ∀ a, Lays x (f a) b kinds R) :
    Lays x (y >>= f) b kinds R :=
  Inserts.read_bind hy fun a _ => hf a

/-- A step behind a check. -/
theorem ite {p : Prop} [Decidable p] {y : EStateM ε Builder α} {e : ε} (hy : Lays x y b kinds Q) :
    Lays x (if p then y else MonadExcept.throw e) b kinds Q :=
  Inserts.ite fun _ => hy

/-- A step of building, as a step of compilation. -/
theorem liftM {y : Build α} (hy : Lays x y b kinds Q) : Lays x (liftM y : Lower α) b kinds Q :=
  Inserts.liftM hy

end Lays

/-- An operation. -/
theorem lays_op (spec : OpSpec) (hoperands : ∀ v ∈ spec.operands, v.index < b.ir.values.size) :
    Lays x (Build.op spec) b [spec.kind] fun _ _ => True := by
  refine (inserts_op spec hoperands).weaken fun id c code _ hid => ?_
  obtain ⟨rfl, hmade⟩ := hid
  refine ⟨?_, trivial⟩
  rw [List.map_singleton, Module.kind, hmade.op]
  rfl

/-- An operation with one result. -/
theorem lays_value (spec : OpSpec) {ty : Ty} (hresults : spec.results = [ty])
    (hoperands : ∀ v ∈ spec.operands, v.index < b.ir.values.size) :
    Lays x (Build.value spec) b [spec.kind] fun v c => v.index < c.ir.values.size := by
  refine (inserts_value spec hresults hoperands).weaken fun v c code _ hv => ?_
  obtain ⟨id, rfl, hmade, rfl, -⟩ := hv
  refine ⟨?_, ?_⟩
  · rw [List.map_singleton, Module.kind, hmade.op]
    rfl
  · simp only [hmade.size_values, hresults, List.length_singleton]
    exact Nat.lt_succ_self _

end Steps

end ContractIR
