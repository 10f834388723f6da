import ContractIR.Proofs.Conversion.History
import ContractIR.Proofs.Legalization.Verdicts
import ContractIR.Proofs.Legalization.Workload

/-!
# Legalization converges in three sweeps

The first sweep rewrites every operation that it finds and that a pattern takes.  What it adds are
the sequences of returns, which hold no return, so the second sweep adds nothing, and the third one
finds nothing to do.  Every rewrite makes the workload one less, so the numbers of rewrites are
known beforehand.

## Main definitions

* `ContractIR.EraVM.Ready` — an operation of the tree that a pattern rewrites.
* `ContractIR.EraVM.SweepsOff` — what a sweep does to what is ready, and to the workload.
* `ContractIR.EraVM.Rank` — the number of sweeps that still rewrite something.

## Main results

* `ContractIR.EraVM.sweepsOff_of_sweeps` — every sweep does that.
* `ContractIR.EraVM.length_of_runs` — the number of sweeps.
* `ContractIR.EraVM.convert_converges` — the conversion does not reach its limit, and its
  statistics.
-/

set_option autoImplicit false

namespace ContractIR.EraVM

open Conversion

variable {contexts : Contexts} {m n p : Module} {x : OpId}

/-! ## Operations that a pattern takes -/

/-- An operation of the tree that a pattern rewrites: it is neither a low-level one nor a container,
it is known what it holds if it is a cell, and what context is around it if it is a return. -/
structure Ready (contexts : Contexts) (m : Module) (o : OpId) : Prop where
  pending : Pending m o
  plain : (m.kind o).isContainer = false
  cell : m.kind o = .memref .alloca → (cell? m o).isSome
  around : m.kind o = .sol .ret → (contexts.around? m o).isSome

/-- What a sweep tries is what is not a low-level operation. -/
theorem illegal_iff_pending {o : OpId} : Illegal lowLevelTarget m o ↔ Pending m o := by
  rw [Illegal, Pending, ← Bool.not_eq_true, isLegal_iff]

namespace FiresAt

variable {name : String}

/-- What is rewritten was ready. -/
theorem ready (h : FiresAt contexts m n x name) (hx : m.isAttached x = true) :
    Ready contexts m x := by
  cases h with
  | lowers h =>
    refine ⟨⟨hx, h.high⟩, ?_, h.cell, fun hc => absurd hc h.ne_return.1⟩
    rw [← OpKind.isContainer_low]
    exact isContainer_of_dialect h.low
  | replaces context code h =>
    refine ⟨⟨hx, by rw [h.kind]; decide⟩, by rw [h.kind]; rfl, fun hc => ?_, fun _ => ?_⟩
    · rw [h.kind] at hc
      cases hc
    · rw [h.around]
      rfl

/-- What is rewritten is not ready any more. -/
theorem not_ready (h : FiresAt contexts m n x name) : ¬Ready contexts n x := by
  cases h with
  | lowers h =>
    intro hready
    have hhigh := hready.pending.2
    rw [h.kind_self] at hhigh
    exact hhigh h.low
  | replaces context code h =>
    intro hready
    obtain ⟨b, hb⟩ := Module.exists_parent_of_isAttached hready.pending.1
    rw [h.detached] at hb
    cases hb

/-- Returns still own no regions. -/
theorem bareReturns (h : FiresAt contexts m n x name) (hm : m.Linked) (hbare : BareReturns m)
    (hx : m.isAttached x = true) : BareReturns n := by
  have hold : ∀ {code}, GivesWay m n x code → (∀ o ∈ code, n.kind o ≠ .sol .ret) →
      BareReturns n := by
    intro code hway hcode o ho hkind
    rcases (hway.attached o).1 ho with ⟨ho, hne⟩ | ho
    · have hop := hway.op o ho hne
      rw [hop]
      exact hbare o ho (by rw [← hkind, Module.kind, Module.kind, hop])
    · exact absurd hkind (hcode o ho)
  cases h with
  | lowers h => exact hold (h.givesWay hm hx) (by simpa using h.ne_return.2)
  | replaces context code h => exact hold (h.givesWay hm hx (hbare x hx h.kind)) h.ne_return

end FiresAt

/-- What stays is as ready as it was.

**Proof sketch.** The operation itself, the types of its results and the function around it are
what they were, so each part of being ready is. -/
theorem GivesWay.ready_iff {code : List OpId} (h : GivesWay m n x code) {o : OpId}
    (ho : m.isAttached o = true) (hne : o ≠ x) : Ready contexts n o ↔ Ready contexts m o := by
  have hop := h.op o ho hne
  have hkind : n.kind o = m.kind o := congrArg Op.kind hop
  have hcell : cell? n o = cell? m o := by
    rw [cell?, cell?, Module.result?, Module.result?, hop]
    cases hv : (m.op o).results[0]? with
    | none => rfl
    | some v =>
      rw [Option.bind_some, Option.bind_some, h.types o ho hne v (List.mem_of_getElem? hv)]
  have hattached : n.isAttached o = true := (h.attached o).2 (.inl ⟨ho, hne⟩)
  constructor
  · rintro ⟨⟨-, hhigh⟩, hplain, hcells, haround⟩
    rw [hkind] at hhigh hplain hcells haround
    rw [hcell] at hcells
    rw [h.around?_eq ho hne] at haround
    exact ⟨⟨ho, hhigh⟩, hplain, hcells, haround⟩
  · rintro ⟨⟨-, hhigh⟩, hplain, hcells, haround⟩
    refine ⟨⟨hattached, ?_⟩, ?_, ?_, ?_⟩
    all_goals rw [hkind]
    · exact hhigh
    · exact hplain
    · rwa [hcell]
    · rwa [h.around?_eq ho hne]

/-- A call of a function is written for every return. -/
theorem call_mem_writtenKinds (context : CodeContext) : .func .call ∈ writtenKinds context := by
  cases context <;> decide

/-- What one rewrite does to the operations that are ready. -/
structure TakesOff (contexts : Contexts) (m n : Module) (x : OpId) : Prop where
  old : ∀ o : OpId, o.index < m.ops.size → Ready contexts n o →
    Ready contexts m o ∧ o ≠ x ∧ n.kind o = m.kind o
  kept : ∀ o, Ready contexts m o → o ≠ x → Ready contexts n o ∧ n.kind o = m.kind o
  stuck : ∀ o, Pending m o → ¬Ready contexts m o → Pending n o ∧ ¬Ready contexts n o
  new : ∀ o : OpId, m.ops.size ≤ o.index → Ready contexts n o →
    n.kind o ≠ .sol .ret ∧ m.kind x = .sol .ret
  made : m.kind x = .sol .ret → ∃ o : OpId, m.ops.size ≤ o.index ∧ Ready contexts n o

/-- **One rewrite takes off one operation** that was ready, and only a return makes others ready.

**Proof sketch.** By the sort of rewrite.  An operation that is lowered in place stays the only
one in its place and is low-level; a return gives way to code that is no return, among which the
call is ready.  Everything else is as ready as before (`GivesWay.ready_iff`). -/
theorem FiresAt.takesOff {name : String} (h : FiresAt contexts m n x name) (hm : m.Linked)
    (hbare : BareReturns m) (hx : m.isAttached x = true) : TakesOff contexts m n x := by
  have hlt : ∀ o, m.isAttached o = true → o.index < m.ops.size := fun _ =>
    Module.op_lt_of_isAttached
  obtain ⟨code, hway, hcode, hmade⟩ : ∃ code, GivesWay m n x code ∧
      (∀ o ∈ code, m.ops.size ≤ o.index → n.kind o ≠ .sol .ret ∧ m.kind x = .sol .ret) ∧
      (m.kind x = .sol .ret → ∃ o : OpId, m.ops.size ≤ o.index ∧ Ready contexts n o) := by
    cases h with
    | lowers h =>
      refine ⟨[x], h.givesWay hm hx, fun o ho hle => ?_, fun hc => absurd hc h.ne_return.1⟩
      rw [List.mem_singleton.1 ho] at hle
      exact absurd (hlt x hx) (Nat.not_lt.2 hle)
    | replaces context code h =>
      have hway := h.givesWay hm hx (hbare x hx h.kind)
      refine ⟨code, hway, fun o ho _ => ⟨h.ne_return o ho, h.kind⟩, fun _ => ?_⟩
      have hcall := call_mem_writtenKinds context
      rw [← h.kinds] at hcall
      obtain ⟨o, ho, hkind⟩ := List.mem_map.1 hcall
      refine ⟨o, ((h.new o).1 ho).1, ⟨⟨(hway.attached o).2 (.inr ho), ?_⟩, ?_, ?_, ?_⟩⟩
      all_goals rw [hkind]
      · decide
      · rfl
      · exact nofun
      · exact nofun
  have hstay : ∀ o, m.isAttached o = true → o ≠ x → n.kind o = m.kind o := fun o ho hne =>
    congrArg Op.kind (hway.op o ho hne)
  have hnew : ∀ o, Ready contexts n o → ¬m.isAttached o = true → o ∈ code := fun o ho hno =>
    ((hway.attached o).1 ho.pending.1).resolve_left fun h => hno h.1
  have hne : ∀ o, Ready contexts n o → o ≠ x := by
    rintro o ho rfl
    exact h.not_ready ho
  refine ⟨fun o hold ho => ?_, fun o ho hox => ⟨(hway.ready_iff ho.pending.1 hox).2 ho,
    hstay o ho.pending.1 hox⟩, fun o ho hno => ?_, fun o hle ho => ?_, hmade⟩
  · have hattached : m.isAttached o = true := by
      by_contra hno
      rcases hway.fresh o (hnew o ho hno) with rfl | hle
      · exact hne o ho rfl
      · exact absurd hold (Nat.not_lt.2 hle)
    exact ⟨(hway.ready_iff hattached (hne o ho)).1 ho, hne o ho, hstay o hattached (hne o ho)⟩
  · have hox : o ≠ x := by
      rintro rfl
      exact hno (h.ready hx)
    refine ⟨⟨(hway.attached o).2 (.inl ⟨ho.1, hox⟩), ?_⟩, fun hn => hno
      ((hway.ready_iff ho.1 hox).1 hn)⟩
    rw [hstay o ho.1 hox]
    exact ho.2
  · exact hcode o (hnew o ho fun hattached => absurd (hlt o hattached) (Nat.not_lt.2 hle)) hle

/-! ## Calls for one operation -/

/-- What the calls for an operation did: one of them rewrote it, or all of them declined it and
nothing changed.

**Proof sketch.** Induction on the calls.  A pattern for another kind and a call that declined
leave the module, so the rest is about the same operation; a call that rewrote it ends the list
(`fires_of_rewrite`). -/
theorem fires_of_tries {ps : List Pattern} (hps : ∀ q ∈ ps, q ∈ patterns contexts) (hm : m.Linked)
    (hx : m.isAttached x = true) {kind : OpKind} (hkind : m.kind x = kind) {attempts : List Attempt}
    (h : Tries kind x ps m attempts n) :
    (∃ name, FiresAt contexts m n x name ∧ fires attempts = 1 ∧
      firesOf "sol-return" attempts = if name = "sol-return" then 1 else 0) ∨
    n = m ∧ fires attempts = 0 ∧
      ∀ q ∈ ps, q.root = kind → kind = .memref .alloca ∧ cell? m x = none := by
  induction h with
  | nil m => exact .inr ⟨rfl, rfl, by simp⟩
  | other hroot rest ih =>
    refine (ih (fun q hq => hps q (List.mem_cons_of_mem _ hq)) hm hx hkind).imp_right ?_
    rintro ⟨rfl, hfires, hdeclined⟩
    exact ⟨rfl, hfires, List.forall_mem_cons.2 ⟨fun h => absurd h hroot, hdeclined⟩⟩
  | @declined q ps m r n attempts hroot call rest ih =>
    obtain ⟨-, rfl, halloca, hcell⟩ | ⟨hfired, -⟩ :=
      fires_of_rewrite (hps q (.head _)) hm hx (hkind.trans hroot.symm) call
    · refine (ih (fun q hq => hps q (List.mem_cons_of_mem _ hq)) hm hx hkind).imp ?_ ?_
      · rintro ⟨name, hfires, hone, hname⟩
        exact ⟨name, hfires, by simpa [fires] using hone, by simpa [firesOf] using hname⟩
      · rintro ⟨rfl, hnone, hdeclined⟩
        refine ⟨rfl, by simpa [fires] using hnone, List.forall_mem_cons.2 ⟨fun _ => ?_, hdeclined⟩⟩
        exact ⟨hkind ▸ halloca, hcell⟩
    · cases hfired
  | @fired q ps m n hroot call =>
    obtain ⟨hdeclined, -⟩ | ⟨-, hfires⟩ :=
      fires_of_rewrite (hps q (.head _)) hm hx (hkind.trans hroot.symm) call
    · cases hdeclined
    · exact .inl ⟨q.name, hfires, rfl, by simp [firesOf, List.countP_cons]⟩

/-- There is a pattern for every operation that is neither a low-level one nor a container. -/
theorem exists_pattern (contexts : Contexts) {k : OpKind} (hhigh : k.dialect ≠ .llvm)
    (hplain : k.isContainer = false) : ∃ q ∈ patterns contexts, q.root = k := by
  rcases root_of_not_llvm k hhigh hplain with rfl | rfl | rfl | ⟨r, hr, rfl⟩
  · exact ⟨_, mem_patterns.2 (.inl rfl), rfl⟩
  · exact ⟨_, mem_patterns.2 (.inr (.inl rfl)), rfl⟩
  · exact ⟨_, mem_patterns.2 (.inr (.inr (.inl rfl))), rfl⟩
  · exact ⟨_, mem_patterns.2 (.inr (.inr (.inr ⟨r, hr, rfl⟩))), rfl⟩

/-! ## One sweep -/

/-- What a sweep over some operations does to the operations that are ready, to the workload and to
the returns that are left. -/
structure SweepsOff (contexts : Contexts) (ids : List OpId) (m : Module) (attempts : List Attempt)
    (n : Module) : Prop where
  linked : n.Linked
  bare : BareReturns n
  size_ops : m.ops.size ≤ n.ops.size
  work : workload contexts n + fires attempts = workload contexts m
  returns : returnsLeft contexts n + firesOf "sol-return" attempts = returnsLeft contexts m
  stuck : ∀ o, Pending m o → ¬Ready contexts m o → Pending n o ∧ ¬Ready contexts n o
  old : ∀ o : OpId, o.index < m.ops.size → Ready contexts n o →
    Ready contexts m o ∧ o ∉ ids ∧ n.kind o = m.kind o
  kept : ∀ o, Ready contexts m o → o ∉ ids → Ready contexts n o
  new : ∀ o : OpId, m.ops.size ≤ o.index → Ready contexts n o → n.kind o ≠ .sol .ret ∧
    ∃ r ∈ ids, Ready contexts m r ∧ m.kind r = .sol .ret
  fires : 0 < fires attempts ↔ ∃ o ∈ ids, Ready contexts m o
  made : (∃ r ∈ ids, Ready contexts m r ∧ m.kind r = .sol .ret) →
    ∃ o : OpId, m.ops.size ≤ o.index ∧ Ready contexts n o

namespace SweepsOff

variable {ids : List OpId} {attempts more : List Attempt}

/-- An operation that is not ready is passed over, or tried in vain.

**Proof sketch.** Nothing was rewritten, so counts and modules are those of the rest of the
sweep.  The operation is not among those that were rewritten, for it was not ready. -/
theorem pass (h : SweepsOff contexts ids m more n) (hx : ¬Ready contexts m x)
    (hnone : Conversion.fires attempts = 0) :
    SweepsOff contexts (x :: ids) m (attempts ++ more) n where
  linked := h.linked
  bare := h.bare
  size_ops := h.size_ops
  work := by
    rw [fires_append, hnone, Nat.zero_add]
    exact h.work
  returns := by
    rw [firesOf_append, firesOf_eq_zero hnone, Nat.zero_add]
    exact h.returns
  stuck := h.stuck
  old o hlt ho := by
    obtain ⟨hold, hids, hkind⟩ := h.old o hlt ho
    refine ⟨hold, List.not_mem_cons_of_ne_of_not_mem ?_ hids, hkind⟩
    rintro rfl
    exact hx hold
  kept o ho hids := h.kept o ho (List.not_mem_of_not_mem_cons hids)
  new o hle ho := by
    obtain ⟨hkind, r, hr, hready⟩ := h.new o hle ho
    exact ⟨hkind, r, List.mem_cons_of_mem _ hr, hready⟩
  fires := by
    rw [fires_append, hnone, Nat.zero_add, h.fires]
    constructor
    · rintro ⟨o, ho, hready⟩
      exact ⟨o, List.mem_cons_of_mem _ ho, hready⟩
    · rintro ⟨o, ho, hready⟩
      refine ⟨o, (List.mem_cons.1 ho).resolve_left ?_, hready⟩
      rintro rfl
      exact hx hready
  made := by
    rintro ⟨r, hr, hready⟩
    refine h.made ⟨r, (List.mem_cons.1 hr).resolve_left ?_, hready⟩
    rintro rfl
    exact hx hready.1

/-- An operation that is ready is rewritten, and then the others are.

**Proof sketch.** One more rewrite than in the rest, which is the one of the operation
(`takesOff`).  What was ready in the rest was ready before, or is code of a return, and the counts
of what is left go down by what the rewrite did. -/
theorem fire {name : String} (h : SweepsOff contexts ids p more n) (hm : m.Linked)
    (hbare : BareReturns m) (hids : ∀ o ∈ ids, o.index < m.ops.size) (hx : m.isAttached x = true)
    (hfires : FiresAt contexts m p x name) (hone : Conversion.fires attempts = 1)
    (hname : firesOf "sol-return" attempts = if name = "sol-return" then 1 else 0) :
    SweepsOff contexts (x :: ids) m (attempts ++ more) n := by
  have hoff := hfires.takesOff hm hbare hx
  obtain ⟨code, hway⟩ := hfires.givesWay hm hbare hx
  have hsize := hway.size_ops
  have hready := hfires.ready hx
  -- what is ready among the operations of the sweep was ready before
  have hbefore : ∀ o ∈ ids, Ready contexts p o → Ready contexts m o ∧ p.kind o = m.kind o := by
    intro o ho hp
    obtain ⟨hold, -, hkind⟩ := hoff.old o (hids o ho) hp
    exact ⟨hold, hkind⟩
  refine
    { linked := h.linked
      bare := h.bare
      size_ops := Nat.le_trans hsize h.size_ops
      work := ?_
      returns := ?_
      stuck := fun o ho hno => (hoff.stuck o ho hno).elim (h.stuck o)
      old := fun o hlt ho => ?_
      kept := fun o ho hno => ?_
      new := fun o hle ho => ?_
      fires := ?_
      made := ?_ }
  · have hwork := hfires.workload hm hbare hx
    have hrest := h.work
    rw [fires_append, hone]
    omega
  · have hleft := hfires.returnsLeft hm hbare hx
    have hrest := h.returns
    rw [firesOf_append, hname]
    omega
  · obtain ⟨hp, hnot, hkind⟩ := h.old o (Nat.lt_of_lt_of_le hlt hsize) ho
    obtain ⟨hold, hne, hkind'⟩ := hoff.old o hlt hp
    exact ⟨hold, List.not_mem_cons_of_ne_of_not_mem hne hnot, hkind.trans hkind'⟩
  · exact h.kept o (hoff.kept o ho (List.ne_of_not_mem_cons hno)).1
      (List.not_mem_of_not_mem_cons hno)
  · by_cases hlt : o.index < p.ops.size
    · obtain ⟨hp, -, hkind⟩ := h.old o hlt ho
      obtain ⟨hne, hret⟩ := hoff.new o hle hp
      exact ⟨hkind ▸ hne, x, .head _, hready, hret⟩
    · obtain ⟨hne, r, hr, hp, hret⟩ := h.new o (Nat.not_lt.1 hlt) ho
      obtain ⟨hold, hkind⟩ := hbefore r hr hp
      exact ⟨hne, r, List.mem_cons_of_mem _ hr, hold, hkind ▸ hret⟩
  · rw [fires_append, hone]
    exact ⟨fun _ => ⟨x, .head _, hready⟩, fun _ => by omega⟩
  · rintro ⟨r, hr, hold, hret⟩
    by_cases hrx : r = x
    · obtain ⟨o, hle, hp⟩ := hoff.made (hrx ▸ hret)
      exact ⟨o, hle, h.kept o hp fun ho => absurd (hids o ho) (Nat.not_lt.2 hle)⟩
    · obtain ⟨hp, hkind⟩ := hoff.kept r hold hrx
      obtain ⟨o, hle, ho⟩ :=
        h.made ⟨r, (List.mem_cons.1 hr).resolve_left hrx, hp, hkind.trans hret⟩
      exact ⟨o, Nat.le_trans hsize hle, ho⟩

end SweepsOff

/-- **What a sweep does**, by induction on the operations that it goes over.

**Proof sketch.** Induction on the sweep: an operation that is legal, or declined by all
patterns, is `pass`, one that is rewritten is `fire`. -/
theorem sweepsOff_of_sweeps {ids : List OpId} {attempts : List Attempt} (hm : m.Linked)
    (hbare : BareReturns m) (hids : ∀ o ∈ ids, o.index < m.ops.size)
    (h : Sweeps lowLevelTarget (patterns contexts) ids m attempts n) :
    SweepsOff contexts ids m attempts n := by
  induction h with
  | nil m =>
    exact ⟨hm, hbare, Nat.le_refl _, rfl, rfl, fun _ ho hno => ⟨ho, hno⟩,
      fun o _ ho => ⟨ho, by simp, rfl⟩, fun _ ho _ => ho, fun o hle ho =>
        absurd (Module.op_lt_of_isAttached ho.pending.1) (Nat.not_lt.2 hle), by simp [fires],
      by simp⟩
  | passed hid rest ih =>
    have hnone : Conversion.fires [] = 0 := rfl
    refine (ih hm hbare fun o ho => hids o (List.mem_cons_of_mem _ ho)).pass ?_ hnone
    exact fun hready => hid (illegal_iff_pending.2 hready.pending)
  | @tried id ids m q n attempts more hid tries rest ih =>
    have hpending := illegal_iff_pending.1 hid
    have hrest := fun o ho => hids o (List.mem_cons_of_mem _ ho)
    rcases fires_of_tries (fun _ hq => hq) hm hid.1 rfl tries with
      ⟨name, hfires, hone, hname⟩ | ⟨rfl, hnone, hdeclined⟩
    · obtain ⟨code, hway⟩ := hfires.givesWay hm hbare hid.1
      exact (ih hway.linked (hfires.bareReturns hm hbare hid.1) fun o ho =>
        Nat.lt_of_lt_of_le (hrest o ho) hway.size_ops).fire hm hbare hrest hid.1 hfires hone hname
    · refine (ih hm hbare hrest).pass (fun hready => ?_) hnone
      obtain ⟨p, hp, hroot⟩ := exists_pattern contexts hpending.2 hready.plain
      obtain ⟨halloca, hcell⟩ := hdeclined p hp hroot
      have hsome := hready.cell halloca
      rw [hcell] at hsome
      cases hsome

/-! ## All sweeps -/

/-- The number of sweeps that still rewrite something: none if nothing is ready, two if a return is
ready, and one otherwise. -/
def Rank (contexts : Contexts) (m : Module) : Nat → Prop
  | 0 => ∀ o, ¬Ready contexts m o
  | 1 => (∃ o, Ready contexts m o) ∧ ∀ o, Ready contexts m o → m.kind o ≠ .sol .ret
  | 2 => ∃ o, Ready contexts m o ∧ m.kind o = .sol .ret
  | _ => False

/-- Every module has a rank. -/
theorem exists_rank (contexts : Contexts) (m : Module) : ∃ k ≤ 2, Rank contexts m k := by
  by_cases hret : ∃ o, Ready contexts m o ∧ m.kind o = .sol .ret
  · exact ⟨2, Nat.le_refl 2, hret⟩
  · by_cases hsome : ∃ o, Ready contexts m o
    · exact ⟨1, by omega, hsome, fun o ho hkind => hret ⟨o, ho, hkind⟩⟩
    · exact ⟨0, by omega, fun o ho => hsome ⟨o, ho⟩⟩

/-- What is ready is listed by the walk. -/
theorem Ready.mem_walk {o : OpId} (h : Ready contexts m o) (hm : m.Linked) : o ∈ m.walk :=
  hm.mem_walk_iff.2 h.pending.1

/-- A sweep over a module in which nothing is ready rewrites nothing. -/
theorem Rank.fires_eq_zero (h : Rank contexts m 0) {attempts : List Attempt}
    (hoff : SweepsOff contexts m.walk m attempts n) : fires attempts = 0 := by
  by_contra hfires
  obtain ⟨o, -, ho⟩ := hoff.fires.1 (Nat.pos_of_ne_zero hfires)
  exact h o ho

/-- **Every other sweep rewrites something**, and makes the rank one less.

**Proof sketch.** After a sweep no old operation is ready, so what is ready is new and came from
a return.  With rank one there was none, with rank two what is ready came from the returns and is
none itself. -/
theorem Rank.succ {k : Nat} (h : Rank contexts m (k + 1)) (hm : m.Linked) {attempts : List Attempt}
    (hoff : SweepsOff contexts m.walk m attempts n) : 0 < fires attempts ∧ Rank contexts n k := by
  have hold : ∀ o : OpId, o.index < m.ops.size → ¬Ready contexts n o := fun o hlt ho => by
    obtain ⟨hready, hno, -⟩ := hoff.old o hlt ho
    exact hno (hready.mem_walk hm)
  have hnew : ∀ o, Ready contexts n o → n.kind o ≠ .sol .ret ∧
      ∃ r ∈ m.walk, Ready contexts m r ∧ m.kind r = .sol .ret := fun o ho =>
    hoff.new o (Nat.not_lt.1 fun hlt => hold o hlt ho) ho
  match k with
  | 0 =>
    obtain ⟨⟨o, ho⟩, hplain⟩ := h
    refine ⟨hoff.fires.2 ⟨o, ho.mem_walk hm, ho⟩, fun o ho => ?_⟩
    obtain ⟨-, r, -, hr, hret⟩ := hnew o ho
    exact hplain r hr hret
  | 1 =>
    obtain ⟨r, hr, hret⟩ := h
    obtain ⟨o, -, ho⟩ := hoff.made ⟨r, hr.mem_walk hm, hr, hret⟩
    exact ⟨hoff.fires.2 ⟨r, hr.mem_walk hm, hr⟩, ⟨o, ho⟩, fun o ho => (hnew o ho).1⟩

/-- What all sweeps together do to the workload and to what no pattern takes. -/
structure Settled (contexts : Contexts) (m : Module) (history : List (List Attempt)) (n : Module) :
    Prop where
  work : workload contexts n + fires history.flatten = workload contexts m
  returns : returnsLeft contexts n + firesOf "sol-return" history.flatten = returnsLeft contexts m
  stuck : ∀ o, Pending m o → ¬Ready contexts m o → Pending n o ∧ ¬Ready contexts n o

/-- **The number of sweeps**, and what they do together.

**Proof sketch.** By induction on the sweeps: each one that rewrites something makes the rank one
less, and one in a module of rank zero rewrites nothing. -/
theorem length_of_runs {history : List (List Attempt)} (hm : m.Linked) (hbare : BareReturns m)
    (h : Conversion.Runs lowLevelTarget (patterns contexts) m history n) {k : Nat}
    (hk : Rank contexts m k) :
    Settled contexts m history n ∧ (Settles history → history.length = k + 1) ∧
      ((∀ attempts ∈ history, 0 < fires attempts) → history.length ≤ k) := by
  induction h generalizing k with
  | nil m =>
    refine ⟨⟨rfl, rfl, fun _ ho hno => ⟨ho, hno⟩⟩, ?_, fun _ => Nat.zero_le k⟩
    rintro ⟨init, last, heq, -⟩
    cases init <;> cases heq
  | @sweep m q n attempts history first rest ih =>
    have hoff := sweepsOff_of_sweeps hm hbare hm.op_lt_of_mem_walk first
    obtain ⟨j, -, hj⟩ := exists_rank contexts q
    obtain ⟨⟨hwork, hreturns, hstuck⟩, -, -⟩ := ih hoff.linked hoff.bare hj
    refine ⟨⟨?_, ?_, fun o ho hno => (hoff.stuck o ho hno).elim (hstuck o)⟩, ?_⟩
    · have hfirst := hoff.work
      rw [List.flatten_cons, fires_append]
      omega
    · have hfirst := hoff.returns
      rw [List.flatten_cons, firesOf_append]
      omega
    · rw [settles_cons, List.forall_mem_cons, List.length_cons]
      cases k with
      | zero =>
        have hnone := hk.fires_eq_zero hoff
        refine ⟨?_, fun hall => absurd hnone (Nat.ne_zero_of_lt hall.1)⟩
        rintro (⟨rfl, -⟩ | ⟨hpos, -⟩)
        · rfl
        · exact absurd hnone (Nat.ne_zero_of_lt hpos)
      | succ k =>
        obtain ⟨hpos, hnext⟩ := hk.succ hm hoff
        obtain ⟨-, hsettles, hall⟩ := ih hoff.linked hoff.bare hnext
        refine ⟨?_, fun h => Nat.succ_le_succ (hall h.2)⟩
        rintro (⟨-, hnone⟩ | ⟨-, hrest⟩)
        · exact absurd hnone (Nat.ne_zero_of_lt hpos)
        · rw [hsettles hrest]

/-! ## The conversion -/

/-- What the sweeps keep: links are consistent, and returns own no regions. -/
theorem maintains_bareReturns (contexts : Contexts) :
    ∀ q ∈ patterns contexts, Maintains (fun m => m.Linked ∧ BareReturns m) q := by
  rintro q hq m n x a ⟨hm, hbare⟩ hx hkind hrun
  rcases fires_of_rewrite hq hm hx hkind hrun with ⟨rfl, rfl, -⟩ | ⟨rfl, hfires⟩
  · exact ⟨⟨hm, hbare⟩, fun _ => rfl⟩
  · obtain ⟨code, hway⟩ := hfires.givesWay hm hbare hx
    exact ⟨⟨hway.linked, hfires.bareReturns hm hbare hx⟩, nofun⟩

/-- A module of low-level operations has no workload and no returns. -/
theorem workload_eq_zero (contexts : Contexts)
    (hlow : ∀ o, n.isAttached o = true → (n.kind o).dialect = .llvm) (hn : n.Linked) :
    workload contexts n = 0 ∧ returnsLeft contexts n = 0 := by
  constructor
  · refine List.sum_eq_zero fun k hk => ?_
    obtain ⟨o, ho, rfl⟩ := List.mem_map.1 hk
    rw [charge, if_pos (hlow o (hn.mem_walk_iff.1 ho))]
  · refine List.sum_eq_zero fun k hk => ?_
    obtain ⟨o, ho, rfl⟩ := List.mem_map.1 hk
    refine returnMark_of_ne fun hkind => ?_
    have hdialect := hlow o (hn.mem_walk_iff.1 ho)
    rw [hkind] at hdialect
    cases hdialect

/-- Nothing is counted where nothing is found. -/
theorem countP_walk_eq_zero {test : OpId → Prop} [DecidablePred test] (hm : m.Linked) :
    m.walk.countP (fun o => decide (test o)) = 0 ↔ ∀ o, m.isAttached o = true → ¬test o := by
  rw [List.countP_eq_zero]
  refine forall_congr' fun o => ?_
  rw [hm.mem_walk_iff, decide_eq_true_eq]

section AllReady

variable (hready : ∀ o, Pending m o → Ready contexts m o)
include hready

/-- Where everything that is not low-level is ready, none of it is there if nothing is ready. -/
theorem highCount_eq_zero_iff (hm : m.Linked) : highCount m = 0 ↔ ∀ o, ¬Ready contexts m o := by
  rw [highCount, countP_walk_eq_zero hm]
  exact ⟨fun h o ho => h o ho.pending.1 ho.pending.2,
    fun h o ho hhigh => h o (hready o ⟨ho, hhigh⟩)⟩

/-- Then no return for either context is there if no return is ready. -/
theorem returnCount_eq_zero_iff (hm : m.Linked) :
    returnCount contexts .runtime m + returnCount contexts .deploy m = 0 ↔
      ∀ o, Ready contexts m o → m.kind o ≠ .sol .ret := by
  rw [Nat.add_eq_zero_iff, returnCount, returnCount, countP_walk_eq_zero hm, countP_walk_eq_zero hm]
  constructor
  · rintro ⟨hruntime, hdeploy⟩ o ho hkind
    obtain ⟨context, hcontext⟩ := Option.isSome_iff_exists.1 (ho.around hkind)
    cases context with
    | runtime => exact hruntime o ho.pending.1 ⟨hkind, hcontext⟩
    | deploy => exact hdeploy o ho.pending.1 ⟨hkind, hcontext⟩
  · intro h
    have hnone : ∀ o, m.isAttached o = true → m.kind o ≠ .sol .ret := fun o ho hkind =>
      h o (hready o ⟨ho, by rw [hkind]; decide⟩) hkind
    exact ⟨fun o ho hto => hnone o ho hto.1, fun o ho hto => hnone o ho hto.1⟩

/-- The number of sweeps can be told from the counts. -/
theorem Rank.succ_eq {k : Nat} (h : Rank contexts m k) (hm : m.Linked) :
    k + 1 = if highCount m = 0 then 1
      else if returnCount contexts .runtime m + returnCount contexts .deploy m = 0 then 2
      else 3 := by
  have hhigh := highCount_eq_zero_iff hready hm
  have hret := returnCount_eq_zero_iff hready hm
  match k with
  | 0 => rw [if_pos (hhigh.2 h)]
  | 1 =>
    obtain ⟨⟨o, ho⟩, hplain⟩ := h
    rw [if_neg fun hzero => hhigh.1 hzero o ho, if_pos (hret.2 hplain)]
  | 2 =>
    obtain ⟨o, ho, hkind⟩ := h
    rw [if_neg fun hzero => hhigh.1 hzero o ho, if_neg fun hzero => hret.1 hzero o ho hkind]

end AllReady

/-- **Legalization converges**: the conversion never reports that it did not come to rest, and if it
succeeds, it took one rewrite for each operation that was not a low-level one, and two or twelve
more for each return from runtime code or deploy code.  The first sweep is the only one if there was
nothing to do, the second one the last if there was no return, and otherwise there are three.

**Proof sketch.** The sweeps have a history by `history_or_fault`, and no pattern reports that the
conversion did not come to rest.  The rank of a module is at most two, so no more than three sweeps
are made.  If nothing illegal is left, then nothing was stuck, so everything that was not low-level
was ready: this gives the rank, and the workload is used up. -/
theorem convert_converges (hm : m.Linked) (hbare : BareReturns m) (contexts : Contexts) :
    (∀ k n, (convert lowLevelTarget (patterns contexts)).run m ≠
        .error (.ir (.conversionLimit k)) n) ∧
      ∀ stats n, (convert lowLevelTarget (patterns contexts)).run m = .ok stats n →
        stats.total = highCount m + 2 * returnCount contexts .runtime m +
            12 * returnCount contexts .deploy m ∧
          stats.countOf "sol-return" =
            returnCount contexts .runtime m + returnCount contexts .deploy m ∧
          stats.sweeps =
            if highCount m = 0 then 1
            else if returnCount contexts .runtime m + returnCount contexts .deploy m = 0 then 2
            else 3 := by
  obtain ⟨k, hk2, hk⟩ := exists_rank contexts m
  rcases history_or_fault lowLevelTarget (I := fun m => m.Linked ∧ BareReturns m)
      (fun _ h => h.1) (maintains_bareReturns contexts) ⟨hm, hbare⟩ with
    ⟨history, n, hruns, ⟨hn, -⟩, -, hends⟩ | ⟨e, n, hrun, q, hq, p, x, -, -, -, hfault⟩
  · obtain ⟨⟨hwork, hreturns, hstuck⟩, hsettles, hall⟩ := length_of_runs hm hbare hruns hk
    generalize (convert lowLevelTarget (patterns contexts)).run m = result at hends ⊢
    cases hends with
    | illegal left => exact ⟨nofun, nofun⟩
    | limit hlength hfires =>
      have hle := hall hfires
      rw [hlength] at hle
      exact absurd (Nat.le_trans hle hk2) (by decide)
    | legal stats settles hsweeps htotal hcount hlegal =>
      refine ⟨nofun, fun stats' n' heq => ?_⟩
      cases heq
      have hlow : ∀ o, n.isAttached o = true → (n.kind o).dialect = .llvm := fun o ho =>
        (isLegal_iff _).1 (hlegal o ho)
      obtain ⟨hnone, hgone⟩ := workload_eq_zero contexts hlow hn
      rw [hnone, Nat.zero_add] at hwork
      rw [hgone, Nat.zero_add] at hreturns
      refine ⟨by rw [htotal, hwork, workload_eq], by rw [hcount, hreturns, returnsLeft_eq], ?_⟩
      have hready : ∀ o, Pending m o → Ready contexts m o := by
        intro o ho
        by_contra hno
        exact (hstuck o ho hno).1.2 (hlow o (hstuck o ho hno).1.1)
      rw [hsweeps, hsettles settles, hk.succ_eq hready hm]
  · rw [hrun]
    have hstep := reports_patterns contexts q hq x p e n hfault
    refine ⟨fun j n' heq => ?_, nofun⟩
    cases heq
    cases hstep

/-- A function that returns a stretch of memory from contract code. -/
def returningFunction : Builder :=
  [Command.build (.func "f" ⟨[], []⟩), .build (.toEnd ⟨1⟩), .build (.constant 32 .word),
    .build (.solReturn ⟨0⟩ ⟨0⟩)].foldl (fun b c => c.run b) (.new (.new .unknown))

/-- As deploy code, the function is converted in three sweeps with fifteen rewrites.

**Proof sketch.** The counts of the module are computed, and `convert_converges` turns them into
the numbers of sweeps and rewrites. -/
theorem returningFunction_converges :
    returningFunction.ir.Linked ∧ BareReturns returningFunction.ir ∧ ∃ stats n,
      (convert lowLevelTarget (patterns ⟨[(⟨0⟩, .deploy)]⟩)).run returningFunction.ir =
          .ok stats n ∧
        stats.total = 15 ∧ stats.countOf "sol-return" = 1 ∧ stats.sweeps = 3 := by
  have hm : returningFunction.ir.Linked :=
    ((Builder.Reachable.new .unknown).foldl (by decide +kernel)).sound.linked
  have hbare : BareReturns returningFunction.ir := by
    have hwalk : ∀ o ∈ returningFunction.ir.walk, (returningFunction.ir.op o).regions = [] ∨
        returningFunction.ir.kind o ≠ .sol .ret := by
      decide +kernel
    exact fun o ho hkind => (hwalk o (hm.mem_walk_iff.2 ho)).resolve_right fun h => h hkind
  have hends : Outcome.endsIn (convert lowLevelTarget (patterns ⟨[(⟨0⟩, .deploy)]⟩))
      returningFunction.ir (fun _ => true) = true := by
    decide +kernel
  obtain ⟨stats, n, h, -⟩ := Outcome.exists_of_endsIn hends
  have hcounts : highCount returningFunction.ir = 3 ∧
      returnCount ⟨[(⟨0⟩, .deploy)]⟩ .runtime returningFunction.ir = 0 ∧
      returnCount ⟨[(⟨0⟩, .deploy)]⟩ .deploy returningFunction.ir = 1 := by
    decide +kernel
  have hstats := (convert_converges hm hbare ⟨[(⟨0⟩, .deploy)]⟩).2 stats n h
  rw [hcounts.1, hcounts.2.1, hcounts.2.2] at hstats
  exact ⟨hm, hbare, stats, n, h, hstats⟩

end ContractIR.EraVM
