import ContractIR.Proofs.Legalization.Rewrites

/-!
# Sweeps come to rest

A sweep rewrites every operation that may not stay.  What it leaves to do are the operations that
returns from contract code became, none of which is such a return; so a second sweep leaves
nothing, and a third one finds that nothing changes.

## Main definitions

* `ContractIR.EraVM.Remains` — a bound on the number of sweeps that still change something.

## Main results

* `ContractIR.EraVM.exists_sweep` — one sweep.
* `ContractIR.EraVM.exists_convert` — the conversion succeeds, and every operation may stay.
-/

set_option autoImplicit false

namespace ContractIR.EraVM

open Conversion

variable {env : Env} {contexts : Contexts} {m n : Module}

/-- A sweep over operations of a module rewrites all of them that may not stay, and says so.  If
there are none, it changes nothing.

**Proof sketch.** Induction on the operations.  One that is pending is rewritten
(`exists_rewrite`), after which it stays; one that is not pending is passed over. -/
theorem exists_sweep (h : Sealed env contexts [] [] m) {ids : List OpId}
    (hids : ∀ o ∈ ids, o.index < m.ops.size) (stats : Stats) (changed : Bool) :
    ∃ stats' changed' n,
      (sweep lowLevelTarget (patterns contexts) ids stats changed).run m =
          .ok (stats', changed') n ∧
        Converts env contexts m n ∧ (∀ o ∈ ids, ¬Pending n o) ∧
        ((∀ o ∈ ids, ¬Pending m o) → changed' = changed ∧ n = m) ∧
        (changed = true ∨ (∃ o ∈ ids, Pending m o) → changed' = true) := by
  induction ids generalizing m stats changed with
  | nil => exact ⟨stats, changed, m, rfl, .refl h, by simp, fun _ => ⟨rfl, rfl⟩, by simp⟩
  | cons x ids ih =>
    have hx := hids x (.head _)
    have hrest := fun o ho => hids o (List.mem_cons_of_mem _ ho)
    rw [sweep, Outcome.run_get_bind]
    by_cases hpending : Pending m x
    · have htest : (m.isAttached x && !lowLevelTarget.isLegal (m.kind x)) = true := by
        rw [hpending.1, Bool.true_and, Bool.not_eq_true', Bool.eq_false_iff, ne_eq, isLegal_iff]
        exact hpending.2
      obtain ⟨name, p, hmatch, hp, hxp⟩ := exists_rewrite h hpending
      obtain ⟨stats', changed', n, hrun, hn, hids', -, hchanged⟩ := ih hp.sealed
        (fun o ho => Nat.lt_of_lt_of_le (hrest o ho) hp.size) (stats.count name) true
      refine ⟨stats', changed', n, ?_, hp.trans hn, fun o ho => ?_, fun hnone =>
        absurd hpending (hnone x (.head _)), fun _ => hchanged (.inl rfl)⟩
      · rw [if_pos htest]
        exact Outcome.run_bind_eq_ok.2 ⟨some name, p, hmatch, hrun⟩
      · rcases List.mem_cons.1 ho with rfl | ho
        · exact hn.not_pending (Nat.lt_of_lt_of_le hx hp.size) hxp
        · exact hids' o ho
    · have htest : ¬(m.isAttached x && !lowLevelTarget.isLegal (m.kind x)) = true := by
        rw [Bool.and_eq_true, Bool.not_eq_true', Bool.eq_false_iff, ne_eq, isLegal_iff]
        exact hpending
      obtain ⟨stats', changed', n, hrun, hn, hids', hsame, hchanged⟩ := ih h hrest stats changed
      refine ⟨stats', changed', n, by rw [if_neg htest]; exact hrun, hn, fun o ho => ?_,
        fun hnone => hsame fun o ho => hnone o (List.mem_cons_of_mem _ ho), fun hsome => ?_⟩
      · rcases List.mem_cons.1 ho with rfl | ho
        · exact hn.not_pending hx hpending
        · exact hids' o ho
      · refine hchanged (hsome.imp_right ?_)
        rintro ⟨o, ho, hop⟩
        refine ⟨o, (List.mem_cons.1 ho).resolve_left ?_, hop⟩
        rintro rfl
        exact hpending hop

/-- A bound on the number of sweeps that still change something: none if every operation may stay,
one if no return from contract code is left, and two in any case. -/
def Remains (m : Module) : Nat → Prop
  | 0 => ∀ o, ¬Pending m o
  | 1 => ∀ o, Pending m o → m.kind o ≠ .sol .ret
  | _ => True

/-- What is left to do becomes less when everything that a module has is rewritten. -/
theorem Remains.of_converts {k : Nat} (h : Remains m (k + 1)) (hn : Converts env contexts m n)
    (hdone : ∀ o, Pending m o → ¬Pending n o) : Remains n k := by
  have hnew : ∀ o, Pending n o →
      n.kind o ≠ .sol .ret ∧ ∃ r, Pending m r ∧ m.kind r = .sol .ret := by
    intro o ho
    rcases hn.pending o ho with ⟨hm, -⟩ | ⟨-, hne, hr⟩
    · exact absurd ho (hdone o hm)
    · exact ⟨hne, hr⟩
  match k with
  | 0 =>
    intro o ho
    obtain ⟨-, r, hr, hkind⟩ := hnew o ho
    exact h r hr hkind
  | 1 => exact fun o ho => (hnew o ho).1
  | _ + 2 => trivial

/-- Sweeps come to rest within one sweep more than can change something.

**Proof sketch.** Induction on the number of sweeps that can change something.  A sweep with
something pending in the walk says that it changed something and lowers the number; without, it
changes nothing and is the last one. -/
theorem exists_sweepUntilRest (h : Sealed env contexts [] [] m) {k : Nat} (hk : Remains m k)
    {left : Nat} (hleft : k < left) (stats : Stats) :
    ∃ stats' n,
      (sweepUntilRest lowLevelTarget (patterns contexts) left stats).run m = .ok stats' n ∧
      Converts env contexts m n ∧ ∀ o, ¬Pending n o := by
  induction k generalizing m left stats with
  | zero =>
    obtain ⟨left, rfl⟩ := Nat.exists_eq_succ_of_ne_zero (Nat.ne_zero_of_lt hleft)
    obtain ⟨stats', changed, n, hrun, hn, -, hsame, -⟩ :=
      exists_sweep h h.typed.toLinked.op_lt_of_mem_walk
        { stats with sweeps := stats.sweeps + 1 } false
    obtain ⟨rfl, rfl⟩ := hsame fun o _ => hk o
    refine ⟨stats', n, ?_, hn, hk⟩
    rw [sweepUntilRest, Outcome.run_get_bind]
    exact Outcome.run_bind_eq_ok.2 ⟨(stats', false), n, hrun, rfl⟩
  | succ k ih =>
    obtain ⟨left, rfl⟩ := Nat.exists_eq_succ_of_ne_zero (Nat.ne_zero_of_lt hleft)
    obtain ⟨stats₁, changed, p, hrun, hp, hdone, hsame, hchanged⟩ :=
      exists_sweep h h.typed.toLinked.op_lt_of_mem_walk
        { stats with sweeps := stats.sweeps + 1 } false
    have hwalk : ∀ o, Pending m o → o ∈ m.walk := fun o ho =>
      h.typed.toLinked.mem_walk_iff.2 ho.1
    rw [sweepUntilRest, Outcome.run_get_bind]
    by_cases hsome : ∃ o, Pending m o
    · obtain ⟨o, ho⟩ := hsome
      obtain rfl := hchanged (.inr ⟨o, hwalk o ho, ho⟩)
      obtain ⟨stats', n, hrest, hn, hnone⟩ := ih hp.sealed
        (hk.of_converts hp fun o ho => hdone o (hwalk o ho)) (Nat.lt_of_succ_lt_succ hleft) stats₁
      exact ⟨stats', n, Outcome.run_bind_eq_ok.2 ⟨(stats₁, true), p, hrun, hrest⟩, hp.trans hn,
        hnone⟩
    · obtain ⟨rfl, rfl⟩ := hsame fun o _ ho => hsome ⟨o, ho⟩
      exact ⟨stats₁, p, Outcome.run_bind_eq_ok.2 ⟨(stats₁, false), p, hrun, rfl⟩, hp,
        fun o ho => hsome ⟨o, ho⟩⟩

/-- **The conversion succeeds**, and every operation of the tree may stay then. -/
theorem exists_convert (h : Sealed env contexts [] [] m) :
    ∃ stats n, (convert lowLevelTarget (patterns contexts)).run m = .ok stats n ∧
      Converts env contexts m n ∧ ∀ o, ¬Pending n o := by
  obtain ⟨stats, n, hrun, hn, hnone⟩ :=
    exists_sweepUntilRest h (k := 2) trivial (by decide : 2 < maxSweeps) {}
  have hlegal : lowLevelTarget.illegalOps n = [] := by
    refine illegalOps_eq_nil_iff.2 fun o ho => ?_
    have hattached := hn.sealed.typed.toLinked.mem_walk_iff.1 ho
    by_contra hdialect
    exact hnone o ⟨hattached, hdialect⟩
  refine ⟨stats, n, ?_, hn, hnone⟩
  refine Outcome.run_bind_eq_ok.2 ⟨stats, n, hrun, ?_⟩
  rw [Outcome.run_get_bind, hlegal]
  rfl

end ContractIR.EraVM
