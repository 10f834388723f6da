import ContractIR.Proofs.Legalization.Firing
import ContractIR.Proofs.Legalization.Relocating
import Mathlib.Algebra.BigOperators.Group.List.Basic
import Mathlib.Algebra.GroupWithZero.Nat
import Mathlib.Data.List.Perm.Lattice

/-!
# The work of a conversion

Every rewrite takes one operation out of the work that is left, and a return from contract code that
is replaced adds the operations of its sequence that are not low-level ones.  So each operation can
be charged beforehand with all rewrites that it leads to: one for itself, and for a return those of
its sequence.

## Main definitions

* `ContractIR.EraVM.GivesWay` — one operation of the tree is replaced, and the others stay.
* `ContractIR.EraVM.charge`, `workload` — the rewrites that an operation leads to, and their sum.
* `ContractIR.EraVM.returnsLeft` — the number of returns that are still to be replaced.

## Main results

* `ContractIR.EraVM.FiresAt.givesWay` — every rewrite has this form, if returns own no regions.
* `ContractIR.EraVM.FiresAt.workload` — every rewrite makes the workload one less.
* `ContractIR.EraVM.workload_eq` — the workload of a module, counted by kinds and contexts.
-/

set_option autoImplicit false

namespace ContractIR

namespace Module

variable {m n : Module}

/-- Operations of the tree that stand where they stood still belong to the tree, with the same
operations around them, if the same is true of what is around them.

**Proof sketch.** Induction on what is around an operation.  It stands in the block in which it
stood, the block belongs to what it belonged to, and by induction that stays in the tree. -/
theorem Linked.stays (hm : m.Linked) (hn : n.Linked) {S : OpId → Prop}
    (hattached : ∀ o, S o → m.isAttached o = true) (hup : ∀ o p, S o → m.Up o p → S p)
    (hop : ∀ o, S o → (n.op o).parent = (m.op o).parent)
    (hblock : ∀ b, (n.block b).parent = (m.block b).parent)
    (hregion : ∀ r : RegionId, r.index < m.regions.size → n.region r = m.region r) {o : OpId}
    (ho : S o) : n.isAttached o = true ∧ n.ancestors o = m.ancestors o := by
  induction o using hm.acyclic.induction with
  | _ o ih =>
    obtain ⟨b, hb, hblockAttached⟩ := hm.exists_blockAttached (hattached o ho)
    have hnb : (n.op o).parent = some b := (hop o ho).trans hb
    have howner : n.owner? b = m.owner? b := by
      rw [owner?, owner?, hblock, hregion _ (hm.parent_lt (hm.block_lt hb))]
    have hparent : n.parentOp? o = m.parentOp? o := by
      rw [parentOp?_eq_owner? hnb, parentOp?_eq_owner? hb, howner]
    constructor
    · refine hn.isAttached_of_parent hnb ?_
      rcases hblockAttached with hbody | ⟨f, hf, -⟩
      · exact .inl (by rw [hregion _ hm.body_lt]; exact hbody)
      · have hof : m.Up o f := up_iff_owner?.2 ⟨b, hb, hf⟩
        exact .inr ⟨f, howner.trans hf, (ih f hof (hup o f ho hof)).1⟩
    · rw [hn.ancestors_eq, hm.ancestors_eq, hparent]
      split
      · rename_i p hp
        rw [(ih p hp (hup o p ho hp)).2]
      · rfl

end Module

namespace EraVM

open Conversion

variable {contexts : Contexts} {m n : Module} {x : OpId} {code : List OpId}

/-! ## One operation is replaced -/

/-- Returns from contract code own no regions. -/
def BareReturns (m : Module) : Prop :=
  ∀ o, m.isAttached o = true → m.kind o = .sol .ret → (m.op o).regions = []

/-- One operation of the tree is replaced by others, and the rest of the tree stays. -/
structure GivesWay (m n : Module) (x : OpId) (code : List OpId) : Prop where
  linked : n.Linked
  size_ops : m.ops.size ≤ n.ops.size
  attached : ∀ o, n.isAttached o = true ↔ m.isAttached o = true ∧ o ≠ x ∨ o ∈ code
  apart : ∀ o ∈ code, m.isAttached o = true → o = x
  fresh : ∀ o ∈ code, o = x ∨ m.ops.size ≤ o.index
  nodup : code.Nodup
  op : ∀ o, m.isAttached o = true → o ≠ x → n.op o = m.op o
  types : ∀ o, m.isAttached o = true → o ≠ x → ∀ v ∈ (m.op o).results, n.typeOf v = m.typeOf v
  ancestors : ∀ o, m.isAttached o = true → o ≠ x → n.ancestors o = m.ancestors o

/-- What is rewritten in place gives way to itself.

**Proof sketch.** No operation changes its place, so by `stays` every operation of the tree
remains in it with the same operations around it.  The converse is the same argument backwards. -/
theorem LowersAt.givesWay (h : LowersAt m n x) (hm : m.Linked) (hx : m.isAttached x = true) :
    GivesWay m n x [x] := by
  have hparent : ∀ o, (n.op o).parent = (m.op o).parent := by
    intro o
    rw [h.op]
    split
    · rename_i ho
      rw [ho]
      rfl
    · rfl
  have hblock : ∀ b, (n.block b).parent = (m.block b).parent := by
    intro b
    rw [Module.block, h.blocks]
    rfl
  have hregion : ∀ r, n.region r = m.region r := by
    intro r
    rw [Module.region, h.regions]
    rfl
  have hstays : ∀ o, m.isAttached o = true →
      n.isAttached o = true ∧ n.ancestors o = m.ancestors o :=
    fun o ho => hm.stays h.linked (fun _ => id) (fun _ _ => hm.isAttached_of_up)
      (fun o _ => hparent o) hblock (fun r _ => hregion r) ho
  refine ⟨h.linked, Nat.le_of_eq h.size_ops.symm, fun o => ⟨fun ho => ?_, ?_⟩, by simp, by simp,
    List.nodup_singleton x, fun o _ hne => by rw [h.op, if_neg hne], fun o _ hne v hv => ?_,
    fun o ho _ => (hstays o ho).2⟩
  · have hlt : o.index < m.ops.size := h.size_ops ▸ Module.op_lt_of_isAttached ho
    have hattached := hm.isAttached_of_isAttached h.linked (fun o b _ hob => hparent o ▸ hob)
      (fun b _ => hblock b) (fun r _ => by rw [hregion]) hlt ho
    by_cases hox : o = x
    · exact .inr (by simp [hox])
    · exact .inl ⟨hattached, hox⟩
  · rintro (⟨ho, -⟩ | ho)
    · exact (hstays o ho).1
    · rw [List.mem_singleton.1 ho]
      exact (hstays x hx).1
  · rw [h.types, loweredType_of_notMem fun hx => hne (hm.eq_of_mem_results hv hx)]

/-- A return that is replaced gives way to its sequence.

**Proof sketch.** A return has no regions, so it is around nothing, and `stays` applies to all
operations of the tree but the return.  The code stands in the block of the return, and what else
is attached afterwards was attached before. -/
theorem ReplacesAt.givesWay {context : CodeContext} (h : ReplacesAt contexts m n x context code)
    (hm : m.Linked) (hx : m.isAttached x = true) (hbare : (m.op x).regions = []) :
    GivesWay m n x code := by
  obtain ⟨b, hb, hblockAttached⟩ := hm.exists_blockAttached hx
  have hxlt := Module.op_lt_of_parent hb
  have hlt : ∀ o, m.isAttached o = true → o.index < m.ops.size := fun _ =>
    Module.op_lt_of_isAttached
  -- nothing is inside the return
  have hup : ∀ o p, m.Up o p → p ≠ x := by
    rintro o p hop rfl
    obtain ⟨r, hr, -⟩ := hm.exists_standsIn_of_up hop
    rw [hbare] at hr
    cases hr
  have hstays : ∀ o, m.isAttached o = true ∧ o ≠ x →
      n.isAttached o = true ∧ n.ancestors o = m.ancestors o := fun o ho =>
    hm.stays h.linked (S := fun o => m.isAttached o = true ∧ o ≠ x) (fun _ h => h.1)
      (fun o p h hop => ⟨hm.isAttached_of_up h.1 hop, hup o p hop⟩)
      (fun o ho => by rw [h.op o ho.2 (hlt o ho.1)]) h.parent h.regions ho
  have hcode : ∀ o ∈ code, n.isAttached o = true := by
    intro o ho
    refine h.linked.isAttached_of_parent ((h.parents o ho).trans hb) ?_
    have howner : n.owner? b = m.owner? b := by
      rw [Module.owner?, Module.owner?, h.parent, h.regions _ (hm.parent_lt (hm.block_lt hb))]
    rcases hblockAttached with hbody | ⟨f, hf, hattached⟩
    · exact .inl (by rw [h.regions _ hm.body_lt]; exact hbody)
    · have hxf : m.Up x f := Module.up_iff_owner?.2 ⟨b, hb, hf⟩
      exact .inr ⟨f, howner.trans hf, (hstays f ⟨hattached, hup x f hxf⟩).1⟩
  refine ⟨h.linked, h.size_ops,
    fun o => ⟨fun ho => ?_, fun ho => ho.elim (fun ho => (hstays o ho).1) (hcode o)⟩,
    fun o ho hattached => ?_, fun o ho => .inr ((h.new o).1 ho).1, h.nodup,
    fun o ho hne => h.op o hne (hlt o ho), fun o _ _ v hv => h.types v (hm.results_lt o v hv),
    fun o ho hne => (hstays o ⟨ho, hne⟩).2⟩
  · obtain ⟨c, hc⟩ := Module.exists_parent_of_isAttached ho
    have hne : o ≠ x := by
      rintro rfl
      rw [h.detached] at hc
      cases hc
    by_cases hold : o.index < m.ops.size
    · refine .inl ⟨hm.isAttached_of_isAttached h.linked (fun p d hp hpd => ?_)
        (fun b _ => h.parent b)
        (fun r hr => by rw [h.regions r hr]) hold ho, hne⟩
      by_cases hpx : p = x
      · rw [hpx, h.detached] at hpd
        cases hpd
      · rw [← hpd, h.op p hpx hp]
    · exact .inr ((h.new o).2 ⟨Nat.not_lt.1 hold, Module.op_lt_of_parent hc⟩)
  · exact absurd (hlt o hattached) (Nat.not_lt.2 ((h.new o).1 ho).1)

/-- **Every rewrite replaces one operation** by itself or by a sequence. -/
theorem FiresAt.givesWay {name : String} (h : FiresAt contexts m n x name) (hm : m.Linked)
    (hbare : BareReturns m) (hx : m.isAttached x = true) : ∃ code, GivesWay m n x code := by
  cases h with
  | lowers h => exact ⟨_, h.givesWay hm hx⟩
  | replaces context code h => exact ⟨code, h.givesWay hm hx (hbare x hx h.kind)⟩

/-- What is said of an operation by itself and by what is around it is summed up over a walk.

**Proof sketch.** The walk afterwards is the walk before without the operation, followed by the
code, up to the order.  Both are without repetition, so it suffices to compare their members. -/
theorem GivesWay.sum_walk (h : GivesWay m n x code) (hm : m.Linked) (hx : m.isAttached x = true)
    {w : Module → OpId → Nat} (hw : ∀ o, m.isAttached o = true → o ≠ x → w n o = w m o) :
    (n.walk.map (w n)).sum + w m x = (m.walk.map (w m)).sum + (code.map (w n)).sum := by
  have hmem : ∀ {o}, o ∈ m.walk ↔ m.isAttached o = true := hm.mem_walk_iff
  have hrest : ∀ {o}, o ∈ m.walk.erase x ↔ o ≠ x ∧ m.isAttached o = true := fun {o} => by
    rw [hm.nodup_walk.mem_erase_iff, hmem]
  have hnodup : (m.walk.erase x ++ code).Nodup := by
    refine List.nodup_append'.2 ⟨hm.nodup_walk.erase x, h.nodup, fun o ho hcode => ?_⟩
    exact (hrest.1 ho).1 (h.apart o hcode (hrest.1 ho).2)
  have hn : n.walk.Perm (m.walk.erase x ++ code) := by
    refine (List.perm_ext_iff_of_nodup h.linked.nodup_walk hnodup).2 fun o => ?_
    rw [h.linked.mem_walk_iff, h.attached, List.mem_append, hrest, and_comm]
  have hold : (m.walk.erase x).map (w n) = (m.walk.erase x).map (w m) :=
    List.map_congr_left fun o ho => hw o (hrest.1 ho).2 (hrest.1 ho).1
  have hsplit : (m.walk.map (w m)).sum = w m x + ((m.walk.erase x).map (w m)).sum := by
    rw [((List.perm_cons_erase (hmem.2 hx)).map (w m)).sum_eq, List.map_cons, List.sum_cons]
  rw [(hn.map (w n)).sum_eq, List.map_append, List.sum_append, hold, hsplit]
  omega

/-! ## Charges -/

/-- The number of kinds in a list that are not low-level ones. -/
def highKinds (kinds : List OpKind) : Nat := kinds.countP fun k => decide (k.dialect ≠ .llvm)

/-- The number of rewrites that the sequence of a return needs. -/
def sequenceCharge (contexts : Contexts) (m : Module) (o : OpId) : Nat :=
  if m.kind o = .sol .ret then
    ((contexts.around? m o).map fun context => highKinds (writtenKinds context)).getD 0
  else 0

/-- The number of rewrites that an operation leads to: none for a low-level one, and otherwise its
own one and those of the sequence that it becomes. -/
def charge (contexts : Contexts) (m : Module) (o : OpId) : Nat :=
  if (m.kind o).dialect = .llvm then 0 else 1 + sequenceCharge contexts m o

/-- The number of rewrites that the operations of a module lead to. -/
def workload (contexts : Contexts) (m : Module) : Nat := (m.walk.map (charge contexts m)).sum

/-- An operation is a return from contract code of a context. -/
def ReturnsTo (contexts : Contexts) (m : Module) (context : CodeContext) (o : OpId) : Prop :=
  m.kind o = .sol .ret ∧ contexts.around? m o = some context

instance (contexts : Contexts) (m : Module) (context : CodeContext) (o : OpId) :
    Decidable (ReturnsTo contexts m context o) := inferInstanceAs (Decidable (_ ∧ _))

/-- The number of returns of a context in a module. -/
def returnCount (contexts : Contexts) (context : CodeContext) (m : Module) : Nat :=
  m.walk.countP fun o => decide (ReturnsTo contexts m context o)

/-- The number of operations of a module that are not low-level ones. -/
def highCount (m : Module) : Nat := m.walk.countP fun o => decide ((m.kind o).dialect ≠ .llvm)

/-- The charge of an operation in numbers. -/
theorem charge_eq (contexts : Contexts) (m : Module) (o : OpId) :
    charge contexts m o = (if (m.kind o).dialect ≠ .llvm then 1 else 0) +
      2 * (if ReturnsTo contexts m .runtime o then 1 else 0) +
      12 * (if ReturnsTo contexts m .deploy o then 1 else 0) := by
  rw [charge, sequenceCharge]
  by_cases hret : m.kind o = .sol .ret
  · cases hcontext : contexts.around? m o with
    | none => simp [ReturnsTo, hret, hcontext, OpKind.dialect]
    | some context => cases context <;> simp [ReturnsTo, hret, hcontext, OpKind.dialect] <;> decide
  · by_cases hlow : (m.kind o).dialect = .llvm <;> simp [ReturnsTo, hret, hlow]

/-- **The workload of a module**: one rewrite for every operation that is not a low-level one, two
more for a return from runtime code and twelve more for one from deploy code. -/
theorem workload_eq (contexts : Contexts) (m : Module) :
    workload contexts m = highCount m + 2 * returnCount contexts .runtime m +
      12 * returnCount contexts .deploy m := by
  have hsum : ∀ ids : List OpId, (ids.map (charge contexts m)).sum =
      ids.countP (fun o => decide ((m.kind o).dialect ≠ .llvm)) +
        2 * ids.countP (fun o => decide (ReturnsTo contexts m .runtime o)) +
        12 * ids.countP (fun o => decide (ReturnsTo contexts m .deploy o)) := by
    intro ids
    induction ids with
    | nil => rfl
    | cons o ids ih =>
      simp only [List.map_cons, List.sum_cons, List.countP_cons, ih, charge_eq, decide_eq_true_eq]
      omega
  exact hsum m.walk

/-- One for a return from contract code whose context is known, and none for anything else. -/
def returnMark (contexts : Contexts) (m : Module) (o : OpId) : Nat :=
  if m.kind o = .sol .ret ∧ (contexts.around? m o).isSome then 1 else 0

/-- The number of returns whose context is known. -/
def returnsLeft (contexts : Contexts) (m : Module) : Nat := (m.walk.map (returnMark contexts m)).sum

/-- What is no return has no mark. -/
theorem returnMark_of_ne {o : OpId} (h : m.kind o ≠ .sol .ret) : returnMark contexts m o = 0 :=
  if_neg fun hc => h hc.1

/-- A return whose context is known is one from runtime code or one from deploy code. -/
theorem returnMark_eq (contexts : Contexts) (m : Module) (o : OpId) :
    returnMark contexts m o = (if ReturnsTo contexts m .runtime o then 1 else 0) +
      (if ReturnsTo contexts m .deploy o then 1 else 0) := by
  rw [returnMark]
  cases hcontext : contexts.around? m o with
  | none => simp [ReturnsTo, hcontext]
  | some context => cases context <;> simp [ReturnsTo, hcontext]

/-- **The returns of a module**, counted by contexts. -/
theorem returnsLeft_eq (contexts : Contexts) (m : Module) :
    returnsLeft contexts m = returnCount contexts .runtime m + returnCount contexts .deploy m := by
  have hsum : ∀ ids : List OpId, (ids.map (returnMark contexts m)).sum =
      ids.countP (fun o => decide (ReturnsTo contexts m .runtime o)) +
        ids.countP (fun o => decide (ReturnsTo contexts m .deploy o)) := by
    intro ids
    induction ids with
    | nil => rfl
    | cons o ids ih =>
      simp only [List.map_cons, List.sum_cons, List.countP_cons, ih, returnMark_eq,
        decide_eq_true_eq]
      omega
  exact hsum m.walk

/-! ## Every rewrite does a part of the work -/

/-- What stays is a return as it was. -/
theorem GivesWay.around?_eq (h : GivesWay m n x code) {o : OpId} (ho : m.isAttached o = true)
    (hne : o ≠ x) : contexts.around? n o = contexts.around? m o := by
  rw [Contexts.around?, Contexts.around?, h.ancestors o ho hne]

/-- What stays is charged as it was. -/
theorem GivesWay.charge_eq (h : GivesWay m n x code) {o : OpId} (ho : m.isAttached o = true)
    (hne : o ≠ x) : charge contexts n o = charge contexts m o := by
  rw [charge, charge, sequenceCharge, sequenceCharge, h.around?_eq ho hne, Module.kind, Module.kind,
    h.op o ho hne]

/-- What stays has the mark that it had. -/
theorem GivesWay.returnMark_eq (h : GivesWay m n x code) {o : OpId} (ho : m.isAttached o = true)
    (hne : o ≠ x) : returnMark contexts n o = returnMark contexts m o := by
  rw [returnMark, returnMark, h.around?_eq ho hne, Module.kind, Module.kind, h.op o ho hne]

/-- What is rewritten in place has its low-level kind. -/
theorem LowersAt.kind_self (h : LowersAt m n x) : n.kind x = (m.kind x).low := by
  rw [Module.kind, h.op, if_pos rfl]
  rfl

/-- What is rewritten in place is no return, before and after. -/
theorem LowersAt.ne_return (h : LowersAt m n x) : m.kind x ≠ .sol .ret ∧ n.kind x ≠ .sol .ret := by
  have hlow := h.low
  refine ⟨fun hc => ?_, fun hc => ?_⟩
  · rw [hc] at hlow
    cases hlow
  · rw [← h.kind_self, hc] at hlow
    cases hlow

/-- What a return is replaced by is no return. -/
theorem ReplacesAt.ne_return {context : CodeContext} (h : ReplacesAt contexts m n x context code) :
    ∀ o ∈ code, n.kind o ≠ .sol .ret := fun _ ho =>
  ne_return_of_mem_writtenKinds context _ (h.kinds ▸ List.mem_map_of_mem ho)

/-- The sequence of a return is charged with the rewrites of its kinds. -/
theorem ReplacesAt.charge_code {context : CodeContext}
    (h : ReplacesAt contexts m n x context code) :
    (code.map (charge contexts n)).sum = highKinds (writtenKinds context) := by
  have hsum : ∀ ids : List OpId, (∀ o ∈ ids, n.kind o ≠ .sol .ret) →
      (ids.map (charge contexts n)).sum = highKinds (ids.map n.kind) := by
    intro ids hids
    induction ids with
    | nil => rfl
    | cons o ids ih =>
      obtain ⟨ho, hids⟩ := List.forall_mem_cons.1 hids
      rw [List.map_cons, List.sum_cons, ih hids, charge, sequenceCharge, if_neg ho]
      simp only [highKinds, List.map_cons, List.countP_cons]
      by_cases hlow : (n.kind o).dialect = .llvm <;> simp [hlow, Nat.add_comm]
  rw [hsum code h.ne_return, h.kinds]

/-- **Every rewrite makes the workload one less.**

**Proof sketch.** By the sort of the rewrite, with `sum_walk` for `charge`.  What is lowered in
place is charged one before and nothing after; a return is charged one more than its sequence. -/
theorem FiresAt.workload {name : String} (h : FiresAt contexts m n x name) (hm : m.Linked)
    (hbare : BareReturns m) (hx : m.isAttached x = true) :
    workload contexts n + 1 = workload contexts m := by
  cases h with
  | lowers h =>
    have hway := h.givesWay hm hx
    have hsum := hway.sum_walk hm hx (w := charge contexts) fun o ho hne => hway.charge_eq ho hne
    have hone : charge contexts m x = 1 := by
      rw [charge, if_neg h.high, sequenceCharge, if_neg h.ne_return.1]
    have hnone : charge contexts n x = 0 := by
      rw [charge, h.kind_self, if_pos h.low]
    rw [hone, List.map_singleton, List.sum_singleton, hnone] at hsum
    exact hsum
  | replaces context code h =>
    have hway := h.givesWay hm hx (hbare x hx h.kind)
    have hsum := hway.sum_walk hm hx (w := charge contexts) fun o ho hne => hway.charge_eq ho hne
    have hself : charge contexts m x = 1 + highKinds (writtenKinds context) := by
      rw [charge, sequenceCharge, h.around, h.kind]
      rfl
    rw [hself, h.charge_code] at hsum
    rw [EraVM.workload, EraVM.workload]
    omega

/-- **Only replacing a return makes their number one less.**

**Proof sketch.** By the sort of the rewrite, with `sum_walk` for `returnMark`.  What is lowered
in place is no return before or after; a replaced return is marked, and its sequence has no
return. -/
theorem FiresAt.returnsLeft {name : String} (h : FiresAt contexts m n x name) (hm : m.Linked)
    (hbare : BareReturns m) (hx : m.isAttached x = true) :
    returnsLeft contexts n + (if name = "sol-return" then 1 else 0) = returnsLeft contexts m := by
  cases h with
  | lowers h hname =>
    have hway := h.givesWay hm hx
    have hsum := hway.sum_walk hm hx (w := returnMark contexts) fun o ho hne =>
      hway.returnMark_eq ho hne
    rw [returnMark_of_ne h.ne_return.1, List.map_singleton, List.sum_singleton,
      returnMark_of_ne h.ne_return.2] at hsum
    rw [if_neg hname]
    exact hsum
  | replaces context code h hname =>
    have hway := h.givesWay hm hx (hbare x hx h.kind)
    have hsum := hway.sum_walk hm hx (w := returnMark contexts) fun o ho hne =>
      hway.returnMark_eq ho hne
    have hself : returnMark contexts m x = 1 := by
      rw [returnMark, h.around, h.kind]
      rfl
    have hnone : (code.map (returnMark contexts n)).sum = 0 := by
      refine List.sum_eq_zero fun k hk => ?_
      obtain ⟨o, ho, rfl⟩ := List.mem_map.1 hk
      exact returnMark_of_ne (h.ne_return o ho)
    rw [hself, hnone] at hsum
    rw [if_pos hname]
    exact hsum

end EraVM

end ContractIR
