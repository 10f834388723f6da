import ContractIR.Proofs.Conversion.History

/-!
# The limit on sweeps

A conversion is given up after `maxSweeps` sweeps.  The limit is tested before a sweep, and only a
sweep that rewrites nothing shows that the module has come to rest.  So a conversion is given up if
and only if each of these sweeps rewrote something, and then an operation of the tree was illegal
when the last one began, though not always when it ended.

## Main definitions

* `ContractIR.Conversion.KeepsLimit` — a pattern that does not fail as a conversion does.
* `ContractIR.Conversion.countdown` — a pattern that needs as many sweeps as it is told.

## Main results

* `ContractIR.Conversion.Runs.run_sweepUntilRest` — sweeps that rewrite something use up the limit.
* `ContractIR.Conversion.exists_runs_of_limit` — a conversion that is given up made all its sweeps.
* `ContractIR.Conversion.convert_limit` — which conversions are given up, and which are not.
-/

set_option autoImplicit false

namespace ContractIR.Conversion

variable {target : Target} {ps : List Pattern} {m n : Module}

/-- A pattern may fail, but not as a conversion that is given up does. -/
def KeepsLimit (p : Pattern) : Prop :=
  ∀ m id n, (p.rewrite id).run m ≠ .error (.ir (.conversionLimit maxSweeps)) n

/-! ## From a history to what happens -/

/-- The answer to all patterns says whether one of the calls rewrote something. -/
theorem Tries.run_firstMatch {kind : OpKind} {id : OpId} {attempts : List Attempt}
    (h : Tries kind id ps m attempts n) :
    ∃ answer, (firstMatch kind id ps).run m = .ok answer n ∧
      answer.isSome = decide (0 < fires attempts) := by
  induction h with
  | nil m => exact ⟨none, rfl, rfl⟩
  | other hroot _ ih =>
    rw [firstMatch, if_neg hroot]
    exact ih
  | declined hroot call _ ih =>
    obtain ⟨answer, hrun, hanswer⟩ := ih
    refine ⟨answer, ?_, hanswer⟩
    rw [firstMatch, if_pos hroot, EStateM.run_bind, call]
    exact hrun
  | @fired p ps m n hroot call =>
    refine ⟨some p.name, ?_, rfl⟩
    rw [firstMatch, if_pos hroot, EStateM.run_bind, call]
    rfl

/-- A sweep says whether one of its calls rewrote something.

**Proof sketch.** Induction on the sweep.  Whether an operation was rewritten is what trying the
patterns answered (`Tries.run_firstMatch`), and the flag collects the answers. -/
theorem Sweeps.run_sweep {ids : List OpId} {attempts : List Attempt}
    (h : Sweeps target ps ids m attempts n) (stats : Stats) (changed : Bool) :
    ∃ stats', (sweep target ps ids stats changed).run m =
        .ok (stats', changed || decide (0 < fires attempts)) n ∧ stats'.sweeps = stats.sweeps := by
  induction h generalizing stats changed with
  | nil m => exact ⟨stats, by simp [sweep, fires], rfl⟩
  | passed hid _ ih =>
    rw [sweep, Outcome.run_get_bind, if_neg fun h => hid (illegal_iff.1 h)]
    exact ih stats changed
  | @tried id ids m q n attempts more hid tries _ ih =>
    obtain ⟨answer, hmatch, hanswer⟩ := tries.run_firstMatch
    rw [sweep, Outcome.run_get_bind, if_pos (illegal_iff.2 hid), EStateM.run_bind, hmatch]
    cases answer with
    | some name =>
      obtain ⟨stats', hrun, hsweeps⟩ := ih (stats.count name) true
      have hpos : 0 < fires attempts := of_decide_eq_true hanswer.symm
      refine ⟨stats', hrun.trans ?_, hsweeps⟩
      rw [fires_append, decide_eq_true (Nat.add_pos_left hpos _), Bool.or_true, Bool.true_or]
    | none =>
      obtain ⟨stats', hrun, hsweeps⟩ := ih stats changed
      have hzero : fires attempts = 0 := Nat.eq_zero_of_not_pos (of_decide_eq_false hanswer.symm)
      refine ⟨stats', hrun.trans ?_, hsweeps⟩
      rw [fires_append, hzero, Nat.zero_add]

/-- **Sweeps that rewrite something use up the limit**, one each. -/
theorem Runs.run_sweepUntilRest {history : List (List Attempt)} (h : Runs target ps m history n)
    (hfires : ∀ attempts ∈ history, 0 < fires attempts) (left : Nat) (stats : Stats) :
    ∃ stats', (sweepUntilRest target ps (history.length + left) stats).run m =
        (sweepUntilRest target ps left stats').run n ∧
      stats'.sweeps = stats.sweeps + history.length := by
  induction h generalizing stats with
  | nil m => exact ⟨stats, by rw [List.length_nil, Nat.zero_add], rfl⟩
  | @sweep m q n attempts history first _ ih =>
    obtain ⟨hpos, hfires⟩ := List.forall_mem_cons.1 hfires
    obtain ⟨stats₁, hsweep, hsweeps₁⟩ :=
      first.run_sweep { stats with sweeps := stats.sweeps + 1 } false
    obtain ⟨stats', hrun, hsweeps'⟩ := ih hfires stats₁
    refine ⟨stats', ?_, ?_⟩
    · rw [List.length_cons, Nat.add_right_comm, sweepUntilRest, Outcome.run_get_bind,
        EStateM.run_bind, hsweep, decide_eq_true hpos]
      exact hrun
    · rw [hsweeps', hsweeps₁, List.length_cons, Nat.add_assoc, Nat.add_comm 1]

/-- A sweep over operations that may stay makes no call. -/
theorem sweeps_of_legal {ids : List OpId} (h : ∀ o ∈ ids, target.isLegal (m.kind o) = true) :
    Sweeps target ps ids m [] m := by
  induction ids with
  | nil => exact .nil m
  | cons id ids ih =>
    obtain ⟨hid, hids⟩ := List.forall_mem_cons.1 h
    exact .passed (fun hillegal => absurd hid (by rw [hillegal.2]; decide)) (ih hids)

/-- No operation of the walk is illegal. -/
theorem illegalOps_eq_nil_iff :
    target.illegalOps m = [] ↔ ∀ o ∈ m.walk, target.isLegal (m.kind o) = true := by
  simp [Target.illegalOps, List.filter_eq_nil_iff]

/-- **A conversion that is done before the limit succeeds**, with one more sweep. -/
theorem Runs.run_convert {history : List (List Attempt)} (h : Runs target ps m history n)
    (hfires : ∀ attempts ∈ history, 0 < fires attempts) (hlength : history.length < maxSweeps)
    (hlegal : target.illegalOps n = []) :
    ∃ stats, (convert target ps).run m = .ok stats n ∧ stats.sweeps = history.length + 1 := by
  obtain ⟨left, hleft⟩ := Nat.exists_eq_add_of_lt hlength
  obtain ⟨stats, hrun, hsweeps⟩ := h.run_sweepUntilRest hfires (left + 1) {}
  have hwalk : Sweeps target ps n.walk n [] n := sweeps_of_legal (illegalOps_eq_nil_iff.1 hlegal)
  obtain ⟨stats', hlast, hsweeps'⟩ :=
    hwalk.run_sweep { stats with sweeps := stats.sweeps + 1 } false
  refine ⟨stats', ?_, ?_⟩
  · rw [convert, EStateM.run_bind, hleft, Nat.add_assoc, hrun, sweepUntilRest, Outcome.run_get_bind,
      EStateM.run_bind, hlast]
    simp only [fires, List.countP_nil, Nat.lt_irrefl, decide_false, Bool.or_false,
      Bool.false_eq_true, if_false, EStateM.run_pure]
    rw [Outcome.run_get_bind, hlegal]
    rfl
  · rw [hsweeps', hsweeps]
    exact congrArg (· + 1) (Nat.zero_add _)

/-! ## From what happens to a history -/

/-- Trying all patterns comes to an answer through calls, or one of the calls fails.

**Proof sketch.** Induction on the patterns: a call for this kind fails, ends the search, or
declines and leaves it to the rest. -/
theorem tries_or_error (kind : OpKind) (id : OpId) (ps : List Pattern) (m : Module) :
    (∃ attempts answer n, Tries kind id ps m attempts n ∧
      (firstMatch kind id ps).run m = .ok answer n) ∨
    ∃ e n, (firstMatch kind id ps).run m = .error e n ∧
      ∃ p ∈ ps, ∃ q, (p.rewrite id).run q = .error e n := by
  induction ps generalizing m with
  | nil => exact .inl ⟨[], none, m, .nil m, rfl⟩
  | cons p ps ih =>
    rw [firstMatch]
    by_cases hroot : p.root = kind
    · rw [if_pos hroot, EStateM.run_bind]
      cases hcall : (p.rewrite id).run m with
      | error e n => exact .inr ⟨e, n, rfl, p, List.mem_cons_self, m, hcall⟩
      | ok fired q =>
        cases fired with
        | true => exact .inl ⟨_, _, q, .fired hroot hcall, rfl⟩
        | false =>
          rcases ih q with ⟨attempts, answer, n, htries, hrun⟩ | ⟨e, n, hrun, p', hp', hfail⟩
          · exact .inl ⟨_, answer, n, .declined hroot hcall htries, hrun⟩
          · exact .inr ⟨e, n, hrun, p', List.mem_cons_of_mem _ hp', hfail⟩
    · rw [if_neg hroot]
      rcases ih m with ⟨attempts, answer, n, htries, hrun⟩ | ⟨e, n, hrun, p', hp', hfail⟩
      · exact .inl ⟨attempts, answer, n, .other hroot htries, hrun⟩
      · exact .inr ⟨e, n, hrun, p', List.mem_cons_of_mem _ hp', hfail⟩

/-- A sweep comes to its end through calls, or one of the calls fails.

**Proof sketch.** Induction on the operations: for an illegal one `tries_or_error`, and whatever
the answer, the rest of the sweep goes on from the module it left. -/
theorem sweeps_or_error (target : Target) (ps : List Pattern) (ids : List OpId) (m : Module)
    (stats : Stats) (changed : Bool) :
    (∃ attempts n, Sweeps target ps ids m attempts n) ∨
    ∃ e n, (sweep target ps ids stats changed).run m = .error e n ∧
      ∃ p ∈ ps, ∃ id q, (p.rewrite id).run q = .error e n := by
  induction ids generalizing m stats changed with
  | nil => exact .inl ⟨[], m, .nil m⟩
  | cons id ids ih =>
    rw [sweep, Outcome.run_get_bind]
    by_cases hid : Illegal target m id
    · rw [if_pos (illegal_iff.2 hid), EStateM.run_bind]
      rcases tries_or_error (m.kind id) id ps m with
        ⟨attempts, answer, q, htries, hrun⟩ | ⟨e, n, hrun, p, hp, q, hfail⟩
      · rw [hrun]
        cases answer with
        | some name =>
          refine (ih q (stats.count name) true).imp_left ?_
          rintro ⟨more, n, hrest⟩
          exact ⟨attempts ++ more, n, .tried hid htries hrest⟩
        | none =>
          refine (ih q stats changed).imp_left ?_
          rintro ⟨more, n, hrest⟩
          exact ⟨attempts ++ more, n, .tried hid htries hrest⟩
      · rw [hrun]
        exact .inr ⟨e, n, rfl, p, hp, id, q, hfail⟩
    · rw [if_neg fun h => hid (illegal_iff.1 h)]
      refine (ih m stats changed).imp_left ?_
      rintro ⟨attempts, n, hrest⟩
      exact ⟨attempts, n, .passed hid hrest⟩

/-- **A conversion that is given up made all its sweeps**, and each of them rewrote something.

**Proof sketch.** Induction on the sweeps that are left.  No pattern fails with the limit's
error, so the first sweep came to its end (`sweeps_or_error`); had it rewritten nothing, the
conversion would have succeeded. -/
theorem exists_runs_of_limit (hps : ∀ p ∈ ps, KeepsLimit p) {left : Nat} {stats : Stats}
    (h : (sweepUntilRest target ps left stats).run m =
      .error (.ir (.conversionLimit maxSweeps)) n) :
    ∃ history, Runs target ps m history n ∧ history.length = left ∧
      ∀ attempts ∈ history, 0 < fires attempts := by
  induction left generalizing m stats with
  | zero =>
    cases h
    exact ⟨[], .nil _, rfl, by simp⟩
  | succ left ih =>
    rw [sweepUntilRest, Outcome.run_get_bind, EStateM.run_bind] at h
    rcases sweeps_or_error target ps m.walk m { stats with sweeps := stats.sweeps + 1 } false with
      ⟨attempts, q, hsweep⟩ | ⟨e, q, hrun, p, hp, id, r, hfail⟩
    · obtain ⟨stats', hrun, -⟩ := hsweep.run_sweep { stats with sweeps := stats.sweeps + 1 } false
      rw [hrun, Bool.false_or] at h
      dsimp only at h
      split at h
      · rename_i hfires
        obtain ⟨history, hruns, hlength, hall⟩ := ih h
        exact ⟨attempts :: history, .sweep hsweep hruns, congrArg (· + 1) hlength,
          List.forall_mem_cons.2 ⟨of_decide_eq_true hfires, hall⟩⟩
      · cases h
    · rw [hrun] at h
      cases h
      exact absurd hfail (hps p hp r id n)

/-- A sweep that rewrote something began with an illegal operation. -/
theorem Sweeps.exists_illegal {ids : List OpId} {attempts : List Attempt}
    (h : Sweeps target ps ids m attempts n) (hfires : 0 < fires attempts) :
    ∃ o ∈ ids, Illegal target m o := by
  induction h with
  | nil m => cases hfires
  | passed _ _ ih =>
    obtain ⟨o, ho, hillegal⟩ := ih hfires
    exact ⟨o, List.mem_cons_of_mem _ ho, hillegal⟩
  | tried hid _ _ _ => exact ⟨_, List.mem_cons_self, hid⟩

/-- The last sweep of a run. -/
theorem Runs.exists_last {history : List (List Attempt)} {last : List Attempt}
    (h : Runs target ps m (history ++ [last]) n) :
    ∃ q, Runs target ps m history q ∧ Sweeps target ps q.walk q last n := by
  induction history generalizing m with
  | nil =>
    cases h with
    | sweep first rest =>
      cases rest
      exact ⟨m, .nil m, first⟩
  | cons attempts history ih =>
    cases h with
    | sweep first rest =>
      obtain ⟨q, hruns, hlast⟩ := ih rest
      exact ⟨q, .sweep first hruns, hlast⟩

/-! ## The limit -/

/-- A conversion is given up if its sweeps are.

**Proof sketch.** Behind the sweeps only the illegal operations are collected, and neither answer
to that is the error of the limit. -/
theorem convert_eq_limit_iff :
    (convert target ps).run m = .error (.ir (.conversionLimit maxSweeps)) n ↔
      (sweepUntilRest target ps maxSweeps {}).run m =
        .error (.ir (.conversionLimit maxSweeps)) n := by
  rw [convert, EStateM.run_bind]
  cases (sweepUntilRest target ps maxSweeps {}).run m with
  | error e q => rfl
  | ok stats q =>
    dsimp only
    rw [Outcome.run_get_bind]
    refine iff_of_false (fun h => ?_) fun h => ?_
    · cases hleft : target.illegalOps q with
      | nil =>
        rw [hleft] at h
        cases h
      | cons o left =>
        rw [hleft] at h
        cases h
    · cases h

/-- **Which conversions are given up.**  If no pattern fails as a conversion that is given up does:

* a conversion is given up if and only if it makes all `maxSweeps` sweeps and each of them rewrites
  something, whatever is left in the end;
* then an operation of the tree was illegal when the last of these sweeps began;
* a conversion that leaves nothing illegal after fewer sweeps succeeds, after one more.

**Proof sketch.** Each sweep that rewrites something takes one from the limit
(`Runs.run_sweepUntilRest`), and where it is used up nobody looks at the module.  A sweep calls no
pattern before it comes to the first illegal operation, so one that rewrote something began with an
illegal operation (`Sweeps.exists_illegal`).  Where nothing is illegal, the next sweep makes no call
and is the last one (`Runs.run_convert`). -/
theorem convert_limit (hps : ∀ p ∈ ps, KeepsLimit p) (m : Module) :
    (∀ n, (convert target ps).run m = .error (.ir (.conversionLimit maxSweeps)) n ↔
      ∃ history, Runs target ps m history n ∧ history.length = maxSweeps ∧
        ∀ attempts ∈ history, 0 < fires attempts) ∧
    (∀ n, (convert target ps).run m = .error (.ir (.conversionLimit maxSweeps)) n →
      ∃ history last q, Runs target ps m history q ∧ history.length + 1 = maxSweeps ∧
        Sweeps target ps q.walk q last n ∧ ∃ o, Illegal target q o) ∧
    ∀ history n, Runs target ps m history n → (∀ attempts ∈ history, 0 < fires attempts) →
      history.length < maxSweeps → target.illegalOps n = [] →
      ∃ stats, (convert target ps).run m = .ok stats n ∧ stats.sweeps = history.length + 1 := by
  have hlimit : ∀ n, (convert target ps).run m = .error (.ir (.conversionLimit maxSweeps)) n ↔
      ∃ history, Runs target ps m history n ∧ history.length = maxSweeps ∧
        ∀ attempts ∈ history, 0 < fires attempts := by
    intro n
    rw [convert_eq_limit_iff]
    refine ⟨exists_runs_of_limit hps, ?_⟩
    rintro ⟨history, hruns, hlength, hfires⟩
    obtain ⟨stats, hrun, -⟩ := hruns.run_sweepUntilRest hfires 0 {}
    rw [hlength] at hrun
    exact hrun
  refine ⟨hlimit, fun n h => ?_, fun history n hruns => hruns.run_convert⟩
  obtain ⟨history, hruns, hlength, hfires⟩ := (hlimit n).1 h
  rcases List.eq_nil_or_concat' history with rfl | ⟨init, last, rfl⟩
  · cases hlength
  · obtain ⟨q, hinit, hlast⟩ := hruns.exists_last
    obtain ⟨o, -, hillegal⟩ := hlast.exists_illegal (hfires last (by simp))
    exact ⟨init, last, q, hinit, by simpa using hlength, hlast, o, hillegal⟩

/-! ## Counting down -/

/-- Counts down at an operation; where nothing is left to be counted, the operation becomes a
low-level addition. -/
def countDownAt (m : Module) (id : OpId) : Module :=
  match m.attr? id AttrName.value with
  | some (.int (.ofNat (k + 1)) ty) => m.setAttr id AttrName.value (.int k ty)
  | _ => m.setKind id (.llvm .add)

/-- The pattern that counts down at additions. -/
def countdown : Pattern where
  name := "countdown"
  root := .arith .addi
  rewrite id := do
    modify fun m => countDownAt m id
    return true

/-- An addition with a number beside it. -/
def countdownCode (k : Int) : Builder :=
  Command.run (.build (.op
    { kind := .arith .addi, attrs := .ofList [(AttrName.value, .int k .word)] }))
    (.new (.new .unknown))

/-- Counting down from thirty-one takes all sweeps, and the last one leaves nothing illegal. -/
theorem exists_run_countdownCode :
    ∃ n, (convert EraVM.lowLevelTarget [countdown]).run (countdownCode 31).ir =
        .error (.ir (.conversionLimit maxSweeps)) n ∧
      ∀ o, n.isAttached o = true → EraVM.lowLevelTarget.isLegal (n.kind o) = true := by
  have htest : Outcome.failsIn (convert EraVM.lowLevelTarget [countdown]) (countdownCode 31).ir
      (fun e n => decide (e = .ir (.conversionLimit maxSweeps)) && decide (n.ops.size = 1) &&
        EraVM.lowLevelTarget.isLegal (n.kind ⟨0⟩)) = true := by
    decide +kernel
  obtain ⟨e, n, hrun, htest⟩ := Outcome.exists_of_failsIn htest
  simp only [Bool.and_eq_true, decide_eq_true_eq] at htest
  obtain ⟨⟨rfl, hsize⟩, hlegal⟩ := htest
  refine ⟨n, hrun, fun o ho => ?_⟩
  have hlt : o.index < 1 := hsize ▸ Module.op_lt_of_isAttached ho
  have ho : o = ⟨0⟩ := congrArg OpId.mk (Nat.lt_one_iff.1 hlt)
  rwa [ho]

/-- The last one of these sweeps begins with an illegal operation, and leaves none. -/
theorem countdown_lastSweep :
    (∀ p ∈ [countdown], KeepsLimit p) ∧
      ∃ history last q n, Runs EraVM.lowLevelTarget [countdown] (countdownCode 31).ir history q ∧
        history.length + 1 = maxSweeps ∧ Sweeps EraVM.lowLevelTarget [countdown] q.walk q last n ∧
        (∃ o, Illegal EraVM.lowLevelTarget q o) ∧ ∀ o, ¬Illegal EraVM.lowLevelTarget n o := by
  have hps : ∀ p ∈ [countdown], KeepsLimit p := by
    intro p hp m id n h
    rw [List.mem_singleton.1 hp] at h
    cases h
  obtain ⟨n, hrun, hlegal⟩ := exists_run_countdownCode
  obtain ⟨history, last, q, hruns, hlength, hlast, hillegal⟩ :=
    (convert_limit hps (countdownCode 31).ir).2.1 n hrun
  refine ⟨hps, history, last, q, n, hruns, hlength, hlast, hillegal, fun o ho => ?_⟩
  cases (hlegal o ho.1).symm.trans ho.2

/-- The conversion is given up all the same. -/
theorem countdown_givenUp :
    (∀ m id, ∃ n, (countdown.rewrite id).run m = .ok true n) ∧ (countdownCode 31).ir.Linked ∧
      ∃ n, (convert EraVM.lowLevelTarget [countdown]).run (countdownCode 31).ir =
          .error (.ir (.conversionLimit maxSweeps)) n ∧
        ∀ o, n.isAttached o = true → EraVM.lowLevelTarget.isLegal (n.kind o) = true :=
  ⟨fun _ _ => ⟨_, rfl⟩, (Builder.Reachable.step _ (.new .unknown) (by decide +kernel)).sound.linked,
    exists_run_countdownCode⟩

end ContractIR.Conversion
