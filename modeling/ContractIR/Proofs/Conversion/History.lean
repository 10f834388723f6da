import ContractIR.Proofs.Legalization.Conversion
import ContractIR.Proofs.Module.Nesting
import ContractIR.Proofs.Module.Reachable

/-!
# The history of a conversion

A conversion sweeps over lists of operations that are stale as soon as a pattern changes the tree.
What it does is told by its history: for each sweep the calls of patterns that it made, with their
answers.  Unless a pattern fails, every conversion has a history, and the history says how the
conversion ends and what it reports.

## Main definitions

* `ContractIR.Conversion.Attempt` — one call of a pattern.
* `ContractIR.Conversion.Tries`, `Sweeps`, `Runs` — the calls that are made for an operation, in a
  sweep, and in a whole conversion.
* `ContractIR.Conversion.EndsAs` — what a conversion may report after a history.
* `ContractIR.Conversion.Dependable` — a pattern that does not fail and declines without a trace.

## Main results

* `ContractIR.Conversion.history_or_fault` — a conversion has a history of at most `maxSweeps`
  sweeps and ends as it says, or fails because a pattern does.
* `ContractIR.Conversion.exists_history` — it has one if the patterns are dependable.
-/

set_option autoImplicit false

namespace ContractIR.Conversion

open EraVM (Maintains)

/-! ## Statistics -/

namespace Stats

/-- The number of rewrites by patterns of a name. -/
def countOf (s : Stats) (name : String) : Nat :=
  ((s.rewrites.find? fun r => decide (r.1 = name)).map Prod.snd).getD 0

/-- Counting a rewrite adds one to the total. -/
theorem total_count (s : Stats) (name : String) : (s.count name).total = s.total + 1 := by
  have hbump : ∀ rs : List (String × Nat),
      (bump name rs).foldr (fun r n => r.2 + n) 0 = rs.foldr (fun r n => r.2 + n) 0 + 1 := by
    intro rs
    induction rs with
    | nil => rfl
    | cons r rs ih =>
      rw [bump]
      split
      · simp only [List.foldr_cons]
        omega
      · simp only [List.foldr_cons, ih]
        omega
  exact hbump s.rewrites

/-- Counting a rewrite adds one to the number for its name.

**Proof sketch.** Induction on the table of counts.  Either its head has the name and is counted
up, or the name is looked for behind it; a name that is not there is added with one. -/
theorem countOf_count (s : Stats) (name other : String) :
    (s.count name).countOf other = s.countOf other + if name = other then 1 else 0 := by
  have hbump : ∀ rs : List (String × Nat),
      (((bump name rs).find? fun r => decide (r.1 = other)).map Prod.snd).getD 0 =
        ((rs.find? fun r => decide (r.1 = other)).map Prod.snd).getD 0 +
          if name = other then 1 else 0 := by
    intro rs
    induction rs with
    | nil =>
      by_cases h : name = other <;> simp [bump, h]
    | cons r rs ih =>
      rw [bump]
      split
      · rename_i hr
        by_cases h : name = other <;> simp [hr, h]
      · rename_i hr
        rw [List.find?_cons, List.find?_cons]
        by_cases h : r.1 = other
        · have hne : name ≠ other := fun hc => hr (h.trans hc.symm)
          simp [h, hne]
        · simpa [h] using ih
  exact hbump s.rewrites

end Stats

/-! ## Histories -/

/-- One call of a pattern, and whether it rewrote the operation. -/
structure Attempt where
  pattern : Pattern
  op : OpId
  fired : Bool

/-- The number of calls that rewrote something. -/
def fires (attempts : List Attempt) : Nat := attempts.countP Attempt.fired

/-- The number of calls of patterns of a name that rewrote something. -/
def firesOf (name : String) (attempts : List Attempt) : Nat :=
  attempts.countP fun a => a.fired && decide (a.pattern.name = name)

/-- The rewrites of two parts of a history add up. -/
@[simp] theorem fires_append (as bs : List Attempt) : fires (as ++ bs) = fires as + fires bs :=
  List.countP_append

/-- The rewrites by one pattern in two parts of a history add up. -/
@[simp] theorem firesOf_append (name : String) (as bs : List Attempt) :
    firesOf name (as ++ bs) = firesOf name as + firesOf name bs := List.countP_append

/-- Where nothing was rewritten, no pattern did it. -/
theorem firesOf_eq_zero {attempts : List Attempt} (h : fires attempts = 0) (name : String) :
    firesOf name attempts = 0 := by
  rw [fires, List.countP_eq_zero] at h
  refine List.countP_eq_zero.2 fun a ha hfired => h a ha ?_
  exact (Bool.and_eq_true _ _ ▸ hfired).1

/-- The calls made for an operation of a kind: the patterns for this kind are tried in order, up to
the first one that rewrites the operation. -/
inductive Tries (kind : OpKind) (id : OpId) :
    List Pattern → Module → List Attempt → Module → Prop
  | nil (m : Module) : Tries kind id [] m [] m
  | other {p : Pattern} {ps : List Pattern} {m n : Module} {attempts : List Attempt}
      (hroot : p.root ≠ kind) (rest : Tries kind id ps m attempts n) :
      Tries kind id (p :: ps) m attempts n
  | declined {p : Pattern} {ps : List Pattern} {m q n : Module} {attempts : List Attempt}
      (hroot : p.root = kind) (call : (p.rewrite id).run m = .ok false q)
      (rest : Tries kind id ps q attempts n) :
      Tries kind id (p :: ps) m (⟨p, id, false⟩ :: attempts) n
  | fired {p : Pattern} {ps : List Pattern} {m n : Module}
      (hroot : p.root = kind) (call : (p.rewrite id).run m = .ok true n) :
      Tries kind id (p :: ps) m [⟨p, id, true⟩] n

section Target

variable (target : Target) (ps : List Pattern)

/-- An operation of the tree that may not stay. -/
def Illegal (m : Module) (o : OpId) : Prop :=
  m.isAttached o = true ∧ target.isLegal (m.kind o) = false

/-- The calls made in a sweep over some operations: those that belong to the tree and may not stay
when their turn comes are tried. -/
inductive Sweeps : List OpId → Module → List Attempt → Module → Prop
  | nil (m : Module) : Sweeps [] m [] m
  | passed {id : OpId} {ids : List OpId} {m n : Module} {attempts : List Attempt}
      (hid : ¬Illegal target m id) (rest : Sweeps ids m attempts n) :
      Sweeps (id :: ids) m attempts n
  | tried {id : OpId} {ids : List OpId} {m q n : Module} {attempts more : List Attempt}
      (hid : Illegal target m id) (tries : Tries (m.kind id) id ps m attempts q)
      (rest : Sweeps ids q more n) :
      Sweeps (id :: ids) m (attempts ++ more) n

/-- The calls made in sweeps over the whole module, sweep by sweep.  Each sweep goes over the walk
of the module that the one before it left. -/
inductive Runs : Module → List (List Attempt) → Module → Prop
  | nil (m : Module) : Runs m [] m
  | sweep {m q n : Module} {attempts : List Attempt} {history : List (List Attempt)}
      (first : Sweeps target ps m.walk m attempts q) (rest : Runs q history n) :
      Runs m (attempts :: history) n

/-- Every pattern for an operation of the tree that may not stay declines it. -/
def AtRest (n : Module) : Prop :=
  ∀ o, Illegal target n o → ∀ p ∈ ps, p.root = n.kind o → (p.rewrite o).run n = .ok false n

/-- Every sweep rewrote something but the last one. -/
def Settles (history : List (List Attempt)) : Prop :=
  ∃ init last, history = init ++ [last] ∧ (∀ attempts ∈ init, 0 < fires attempts) ∧ fires last = 0

/-- A history settles with its first sweep, or after a sweep that rewrote something. -/
theorem settles_cons {attempts : List Attempt} {history : List (List Attempt)} :
    Settles (attempts :: history) ↔
      history = [] ∧ fires attempts = 0 ∨ 0 < fires attempts ∧ Settles history := by
  constructor
  · rintro ⟨init, last, heq, hinit, hlast⟩
    cases init with
    | nil =>
      obtain ⟨rfl, rfl⟩ := List.cons.inj heq
      exact .inl ⟨rfl, hlast⟩
    | cons first init =>
      obtain ⟨rfl, rfl⟩ := List.cons.inj heq
      obtain ⟨hfirst, hinit⟩ := List.forall_mem_cons.1 hinit
      exact .inr ⟨hfirst, init, last, rfl, hinit, hlast⟩
  · rintro (⟨rfl, hlast⟩ | ⟨hfirst, init, last, rfl, hinit, hlast⟩)
    · exact ⟨[], attempts, rfl, by simp, hlast⟩
    · exact ⟨attempts :: init, last, rfl, List.forall_mem_cons.2 ⟨hfirst, hinit⟩, hlast⟩

/-- What a conversion reports after a history that ended in a module: numbers of sweeps and
rewrites if it came to rest and every operation may stay; the operations that may not stay, in the
order of the walk, if it came to rest and there are some; that it did not come to rest if the last
one of all sweeps still rewrote something. -/
inductive EndsAs (history : List (List Attempt)) (n : Module) :
    EStateM.Result CompileError Module Stats → Prop
  | legal (stats : Stats) (settles : Settles history) (hsweeps : stats.sweeps = history.length)
      (htotal : stats.total = fires history.flatten)
      (hcount : ∀ name, stats.countOf name = firesOf name history.flatten)
      (hlegal : ∀ o, n.isAttached o = true → target.isLegal (n.kind o) = true) :
      EndsAs history n (.ok stats n)
  | illegal (left : List OpId) (settles : Settles history) (hleft : left ≠ [])
      (hwalk : left.Sublist n.walk) (hnodup : left.Nodup)
      (hmem : ∀ o, o ∈ left ↔ Illegal target n o) (rest : AtRest target ps n) :
      EndsAs history n
        (.error (.ir (.illegalOps (left.map fun o => (n.kind o, (n.op o).location)))) n)
  | limit (hlength : history.length = maxSweeps)
      (hfires : ∀ attempts ∈ history, 0 < fires attempts) :
      EndsAs history n (.error (.ir (.conversionLimit maxSweeps)) n)

end Target

/-- A pattern fails on an operation of the tree that has its kind, in a module with a property. -/
def Faults (I : Module → Prop) (ps : List Pattern) (e : CompileError) (n : Module) : Prop :=
  ∃ p ∈ ps, ∃ m id, I m ∧ m.isAttached id = true ∧ m.kind id = p.root ∧
    (p.rewrite id).run m = .error e n

/-- A failure of some patterns is one of more patterns. -/
theorem Faults.of_subset {I : Module → Prop} {ps qs : List Pattern} (hps : ps ⊆ qs)
    {e : CompileError} {n : Module} : Faults I ps e n → Faults I qs e n := by
  rintro ⟨p, hp, hfault⟩
  exact ⟨p, hps hp, hfault⟩

/-! ## One operation -/

variable {target : Target} {ps : List Pattern} {I : Module → Prop} {m n : Module}

/-- Whether a sweep tries an operation. -/
theorem illegal_iff {o : OpId} :
    (m.isAttached o && !target.isLegal (m.kind o)) = true ↔ Illegal target m o := by
  rw [Bool.and_eq_true, Bool.not_eq_true', Illegal]

/-- What the answer to all patterns for an operation says about the calls: one of them rewrote it,
or all of them declined it and nothing changed. -/
def Answers (ps : List Pattern) (m n : Module) (id : OpId) (attempts : List Attempt) :
    Option String → Prop
  | some name =>
    fires attempts = 1 ∧ ∀ other, firesOf other attempts = if name = other then 1 else 0
  | none => fires attempts = 0 ∧ n = m ∧
      ∀ p ∈ ps, p.root = m.kind id → (p.rewrite id).run m = .ok false m

/-- **Trying patterns on an operation** is a sequence of calls, or one of them fails.

**Proof sketch.** Induction on the patterns.  A pattern for another kind is passed over.  A call
fails, or rewrites something and ends the search, or declines, and then the module is the one
before (`Maintains`), so that the rest of the list goes on from `m`. -/
theorem tries_or_fault (hps : ∀ p ∈ ps, Maintains I p) (hm : I m) {id : OpId}
    (hid : m.isAttached id = true) :
    (∃ attempts n answer, Tries (m.kind id) id ps m attempts n ∧
      (firstMatch (m.kind id) id ps).run m = .ok answer n ∧ I n ∧
      Answers ps m n id attempts answer) ∨
    ∃ e n, (firstMatch (m.kind id) id ps).run m = .error e n ∧ Faults I ps e n := by
  induction ps with
  | nil => exact .inl ⟨[], m, none, .nil m, rfl, hm, rfl, rfl, by simp⟩
  | cons p ps ih =>
    have hrest := ih fun q hq => hps q (List.mem_cons_of_mem _ hq)
    by_cases hroot : p.root = m.kind id
    · rw [firstMatch, if_pos hroot, EStateM.run_bind]
      cases hcall : (p.rewrite id).run m with
      | error e n => exact .inr ⟨e, n, rfl, p, .head _, m, id, hm, hid, hroot.symm, hcall⟩
      | ok a q =>
        obtain ⟨hq, hsame⟩ := hps p (.head _) m q id a hm hid hroot.symm hcall
        cases a with
        | true =>
          refine .inl ⟨_, q, some p.name, .fired hroot hcall, rfl, hq, rfl, fun other => ?_⟩
          simp [firesOf, List.countP_cons]
        | false =>
          obtain rfl := hsame rfl
          rcases hrest with
            ⟨attempts, n, answer, htries, hmatch, hn, hanswer⟩ | ⟨e, n, hmatch, hfault⟩
          · refine .inl ⟨_, n, answer, .declined hroot hcall htries, hmatch, hn, ?_⟩
            cases answer with
            | some name => exact hanswer
            | none => exact ⟨hanswer.1, hanswer.2.1,
                List.forall_mem_cons.2 ⟨fun _ => hcall, hanswer.2.2⟩⟩
          · exact .inr ⟨e, n, hmatch, hfault.of_subset (List.subset_cons_self _ _)⟩
    · rw [firstMatch, if_neg hroot]
      rcases hrest with ⟨attempts, n, answer, htries, hmatch, hn, hanswer⟩ | ⟨e, n, hmatch, hfault⟩
      · refine .inl ⟨attempts, n, answer, .other hroot htries, hmatch, hn, ?_⟩
        cases answer with
        | some name => exact hanswer
        | none => exact ⟨hanswer.1, hanswer.2.1,
            List.forall_mem_cons.2 ⟨fun h => absurd h hroot, hanswer.2.2⟩⟩
      · exact .inr ⟨e, n, hmatch, hfault.of_subset (List.subset_cons_self _ _)⟩

/-! ## Counting -/

/-- Statistics grew by the calls of a history. -/
structure Stats.GrewBy (s t : Stats) (attempts : List Attempt) : Prop where
  total : t.total = s.total + fires attempts
  countOf : ∀ name, t.countOf name = s.countOf name + firesOf name attempts

namespace Stats

variable {s t u : Stats}

/-- No call grows the numbers by nothing. -/
theorem GrewBy.refl (s : Stats) : s.GrewBy s [] := ⟨rfl, fun _ => rfl⟩

/-- Calls after each other add up. -/
theorem GrewBy.trans {as bs : List Attempt} (h : s.GrewBy t as) (k : t.GrewBy u bs) :
    s.GrewBy u (as ++ bs) where
  total := by rw [k.total, h.total, fires_append, Nat.add_assoc]
  countOf name := by rw [k.countOf, h.countOf, firesOf_append, Nat.add_assoc]

/-- Calls that rewrote nothing are not counted. -/
theorem GrewBy.of_none {attempts : List Attempt} (h : fires attempts = 0) (s : Stats) :
    s.GrewBy s attempts where
  total := by rw [h, Nat.add_zero]
  countOf name := by rw [firesOf_eq_zero h, Nat.add_zero]

/-- Counting a rewrite. -/
theorem grewBy_count {attempts : List Attempt} {name : String} (hfires : fires attempts = 1)
    (hname : ∀ other, firesOf other attempts = if name = other then 1 else 0) (s : Stats) :
    s.GrewBy (s.count name) attempts where
  total := by rw [total_count, hfires]
  countOf other := by rw [countOf_count, hname]

end Stats

/-! ## One sweep -/

/-- **A sweep** is a sequence of calls that it counts, and it says whether one of them rewrote
something; or one of them fails.  If nothing was rewritten, all patterns declined what it went over.

**Proof sketch.** Induction on the operations that are left.  A legal one is passed over; for an
illegal one `tries_or_fault` gives the calls, and the induction goes on behind them with the flag
set if one rewrote something.  Without a rewrite every step leaves the module alone. -/
theorem sweeps_or_fault (target : Target) (hps : ∀ p ∈ ps, Maintains I p) (hm : I m)
    (ids : List OpId) (stats : Stats) (changed : Bool) :
    (∃ attempts n stats', Sweeps target ps ids m attempts n ∧
      (sweep target ps ids stats changed).run m =
        .ok (stats', changed || decide (0 < fires attempts)) n ∧
      I n ∧ stats'.sweeps = stats.sweeps ∧ stats.GrewBy stats' attempts ∧
      (fires attempts = 0 → n = m ∧ ∀ o ∈ ids, Illegal target m o →
        ∀ p ∈ ps, p.root = m.kind o → (p.rewrite o).run m = .ok false m)) ∨
    ∃ e n, (sweep target ps ids stats changed).run m = .error e n ∧ Faults I ps e n := by
  induction ids generalizing m stats changed with
  | nil => exact .inl ⟨[], m, stats, .nil m, by simp [sweep, fires], hm, rfl, .refl stats, by simp⟩
  | cons id ids ih =>
    rw [sweep, Outcome.run_get_bind]
    by_cases hid : Illegal target m id
    · rw [if_pos (illegal_iff.2 hid), EStateM.run_bind]
      rcases tries_or_fault hps hm hid.1 with
        ⟨attempts, q, answer, htries, hmatch, hq, hanswer⟩ | ⟨e, n, hmatch, hfault⟩
      · rw [hmatch]
        cases answer with
        -- The tree has changed under the rest of the list: nothing is said about a sweep at rest.
        | some name =>
          obtain ⟨hfires, hname⟩ := hanswer
          rcases ih hq (stats.count name) true with
            ⟨more, n, stats', hrest, hrun, hn, hsweeps, hgrew, -⟩ | hfault
          · have hpos : 0 < fires (attempts ++ more) := by
              rw [fires_append]
              omega
            refine .inl ⟨_, n, stats', .tried hid htries hrest, hrun.trans ?_, hn, hsweeps,
              (Stats.grewBy_count hfires hname stats).trans hgrew, fun h => ?_⟩
            · rw [decide_eq_true hpos, Bool.or_true]
              rfl
            · exact absurd h (Nat.ne_zero_of_lt hpos)
          · exact .inr hfault
        | none =>
          obtain ⟨hfires, rfl, hdecline⟩ := hanswer
          rcases ih hq stats changed with
            ⟨more, n, stats', hrest, hrun, hn, hsweeps, hgrew, hnone⟩ | hfault
          · have hmore : fires (attempts ++ more) = fires more := by
              rw [fires_append, hfires, Nat.zero_add]
            refine .inl ⟨_, n, stats', .tried hid htries hrest, ?_, hn, hsweeps,
              (Stats.GrewBy.of_none hfires stats).trans hgrew, fun h => ?_⟩
            · rw [hmore]
              exact hrun
            · obtain ⟨rfl, hrest⟩ := hnone (hmore ▸ h)
              exact ⟨rfl, List.forall_mem_cons.2 ⟨fun _ => hdecline, hrest⟩⟩
          · exact .inr hfault
      · rw [hmatch]
        exact .inr ⟨e, n, rfl, hfault⟩
    · rw [if_neg fun h => hid (illegal_iff.1 h)]
      rcases ih hm stats changed with
        ⟨more, n, stats', hrest, hrun, hn, hsweeps, hgrew, hnone⟩ | hfault
      · refine .inl ⟨more, n, stats', .passed hid hrest, hrun, hn, hsweeps, hgrew, fun h => ?_⟩
        obtain ⟨rfl, hrest⟩ := hnone h
        exact ⟨rfl, List.forall_mem_cons.2 ⟨fun h => absurd h hid, hrest⟩⟩
      · exact .inr hfault

/-! ## All sweeps -/

/-- **Sweeps over a whole module** come to rest, with the numbers of sweeps and rewrites added up,
or each of them rewrote something, or a pattern fails.

**Proof sketch.** Induction on the sweeps that are left, each given by `sweeps_or_fault`.  After
a sweep without a rewrite the module is at rest: it is the module that was walked, and the walk
meets every attached operation (`Linked.mem_walk_iff`).  After any other the induction goes on. -/
theorem runs_or_fault (target : Target) (hI : ∀ m, I m → m.Linked) (hps : ∀ p ∈ ps, Maintains I p)
    (hm : I m) (left : Nat) (stats : Stats) :
    (∃ history n, Runs target ps m history n ∧ I n ∧ history.length ≤ left ∧
      ((∃ stats', (sweepUntilRest target ps left stats).run m = .ok stats' n ∧ Settles history ∧
          stats'.sweeps = stats.sweeps + history.length ∧ stats.GrewBy stats' history.flatten ∧
          AtRest target ps n) ∨
        (sweepUntilRest target ps left stats).run m = .error (.ir (.conversionLimit maxSweeps)) n ∧
          history.length = left ∧ ∀ attempts ∈ history, 0 < fires attempts)) ∨
    ∃ e n, (sweepUntilRest target ps left stats).run m = .error e n ∧ Faults I ps e n := by
  induction left generalizing m stats with
  | zero => exact .inl ⟨[], m, .nil m, hm, Nat.le_refl _, .inr ⟨rfl, rfl, by simp⟩⟩
  | succ left ih =>
    rw [sweepUntilRest, Outcome.run_get_bind, EStateM.run_bind]
    rcases sweeps_or_fault target hps hm m.walk { stats with sweeps := stats.sweeps + 1 }
      false with
      ⟨attempts, q, stats₁, hsweep, hrun, hq, hsweeps, hgrew, hnone⟩ | ⟨e, n, hrun, hfault⟩
    · have hsweeps : stats₁.sweeps = stats.sweeps + 1 := hsweeps
      have hgrew : stats.GrewBy stats₁ attempts := ⟨hgrew.total, hgrew.countOf⟩
      rw [hrun]
      by_cases hfires : fires attempts = 0
      -- The module is the one that was walked, so the declined operations are all there are.
      · obtain ⟨rfl, hdecline⟩ := hnone hfires
        refine .inl ⟨[attempts], q, .sweep hsweep (.nil q), hq, by simp,
          .inl ⟨stats₁, by rw [hfires]; rfl, settles_cons.2 (.inl ⟨rfl, hfires⟩),
            by simpa using hsweeps, by simpa using hgrew, ?_⟩⟩
        exact fun o ho => hdecline o ((hI q hq).mem_walk_iff.2 ho.1) ho
      · have hpos := Nat.pos_of_ne_zero hfires
        rw [decide_eq_true hpos]
        rcases ih hq stats₁ with ⟨history, n, hruns, hn, hlength, hcases⟩ | hfault
        · refine .inl ⟨attempts :: history, n, .sweep hsweep hruns, hn, by simpa using hlength,
            hcases.imp ?_ ?_⟩
          · rintro ⟨stats', hrest, hsettles, hsweeps', hgrew', hatRest⟩
            refine ⟨stats', hrest, settles_cons.2 (.inr ⟨hpos, hsettles⟩), ?_,
              hgrew.trans hgrew', hatRest⟩
            rw [hsweeps', hsweeps, List.length_cons]
            omega
          · rintro ⟨hrest, rfl, hfires'⟩
            exact ⟨hrest, rfl, List.forall_mem_cons.2 ⟨hpos, hfires'⟩⟩
        · exact .inr hfault
    · rw [hrun]
      exact .inr ⟨e, n, rfl, hfault⟩

/-- **Every conversion has a history** of at most `maxSweeps` sweeps, and what it reports is what
the history says; or it fails because a pattern does.

**Proof sketch.** Sweep by sweep, `runs_or_fault` gives the history.  If the conversion came to
rest, the last sweep called every pattern for every operation that may not stay and each call left
the module as it was, so what these patterns do in the module at the end is known.  The walk of a
module with consistent links lists the operations of the tree, each of them once. -/
theorem history_or_fault (target : Target) (hI : ∀ m, I m → m.Linked)
    (hps : ∀ p ∈ ps, Maintains I p) (hm : I m) :
    (∃ history n, Runs target ps m history n ∧ I n ∧ history.length ≤ maxSweeps ∧
      EndsAs target ps history n ((convert target ps).run m)) ∨
    ∃ e n, (convert target ps).run m = .error e n ∧ Faults I ps e n := by
  rw [convert, EStateM.run_bind]
  rcases runs_or_fault target hI hps hm maxSweeps {} with
    ⟨history, n, hruns, hn, hlength, hcases⟩ | ⟨e, n, hrun, hfault⟩
  · refine .inl ⟨history, n, hruns, hn, hlength, ?_⟩
    have hlinked := hI n hn
    rcases hcases with ⟨stats, hrun, hsettles, hsweeps, hgrew, hrest⟩ | ⟨hrun, hall, hfires⟩
    · rw [hrun]
      dsimp only
      rw [Outcome.run_get_bind]
      have hmem : ∀ o, o ∈ target.illegalOps n ↔ Illegal target n o := fun o => by
        rw [Target.illegalOps, List.mem_filter, hlinked.mem_walk_iff, Bool.not_eq_true', Illegal]
      cases hleft : target.illegalOps n with
      | nil =>
        refine .legal stats hsettles (by simpa using hsweeps) ?_ (fun name => ?_) fun o ho => ?_
        · exact hgrew.total.trans (Nat.zero_add _)
        · exact (hgrew.countOf name).trans (Nat.zero_add _)
        · rw [← Bool.not_eq_false]
          intro hillegal
          have hlisted := (hmem o).2 ⟨ho, hillegal⟩
          rw [hleft] at hlisted
          cases hlisted
      | cons o left =>
        rw [hleft] at hmem
        have hsub : (o :: left).Sublist n.walk := hleft ▸ List.filter_sublist
        exact .illegal (o :: left) hsettles (List.cons_ne_nil o left) hsub
          (hlinked.nodup_walk.sublist hsub) hmem hrest
    · rw [hrun]
      exact .limit hall hfires
  · rw [hrun]
    exact .inr ⟨e, n, rfl, hfault⟩

/-! ## Patterns that do not fail -/

/-- A pattern never fails on an operation of the tree that has its kind, keeps the links in order,
and leaves the module as it is when it declines. -/
def Dependable (p : Pattern) : Prop :=
  ∀ (m : Module) (id : OpId), m.Linked → m.isAttached id = true → m.kind id = p.root →
    ∃ a n, (p.rewrite id).run m = .ok a n ∧ n.Linked ∧ (a = false → n = m)

/-- Dependable patterns keep links consistent. -/
theorem Dependable.maintains {p : Pattern} (h : Dependable p) : Maintains Module.Linked p := by
  intro m n id a hm hid hkind hrun
  obtain ⟨a', n', hrun', hn', hsame⟩ := h m id hm hid hkind
  rw [hrun] at hrun'
  cases hrun'
  exact ⟨hn', hsame⟩

/-- **Every conversion with dependable patterns has a history** of at most `maxSweeps` sweeps, and
what it reports is what the history says. -/
theorem exists_history (hps : ∀ p ∈ ps, Dependable p) (hm : m.Linked) :
    ∃ history n, Runs target ps m history n ∧ n.Linked ∧ history.length ≤ maxSweeps ∧
      EndsAs target ps history n ((convert target ps).run m) := by
  rcases history_or_fault target (fun _ => id) (fun p hp => (hps p hp).maintains) hm with
    hhistory | ⟨e, n, -, p, hp, q, id, hq, hid, hkind, hfault⟩
  · exact hhistory
  · obtain ⟨a, r, hrun, -⟩ := hps p hp q id hq hid hkind
    rw [hrun] at hfault
    cases hfault

/-! ## Patterns that only change a kind -/

/-- A pattern that only changes the kind of operations is dependable. -/
theorem dependable_renamePattern (name : String) (source : OpKind) (low : LlvmOp) :
    Dependable (EraVM.renamePattern name source low) := fun m id hm _ _ =>
  ⟨true, m.setKind id (.llvm low), rfl,
    hm.modifyOp id (fun _ => rfl) (fun _ => rfl) (fun _ => rfl) (hm.operands_lt id), nofun⟩

/-- The patterns that only change kinds. -/
def renamePatterns : List Pattern := EraVM.renames.map fun r => EraVM.renamePattern r.1 r.2.1 r.2.2

/-- Two numbers and their sum, of which the low-level dialect leaves none. -/
def sumCode : Builder :=
  [Command.build (.constant 32 .word), .build (.constant 2 .word), .build (.addi ⟨0⟩ ⟨1⟩)].foldl
    (fun b c => c.run b) (.new (.new .unknown))

/-- The patterns that only change kinds convert the sum. -/
theorem sumCode_history :
    (∀ p ∈ renamePatterns, Dependable p) ∧ sumCode.ir.Linked ∧
      ∃ history n, Runs EraVM.lowLevelTarget renamePatterns sumCode.ir history n ∧ n.Linked ∧
        history.length ≤ maxSweeps ∧
        EndsAs EraVM.lowLevelTarget renamePatterns history n
          ((convert EraVM.lowLevelTarget renamePatterns).run sumCode.ir) := by
  have hps : ∀ p ∈ renamePatterns, Dependable p := by
    intro p hp
    obtain ⟨r, -, rfl⟩ := List.mem_map.1 hp
    exact dependable_renamePattern r.1 r.2.1 r.2.2
  have hm : sumCode.ir.Linked :=
    ((Builder.Reachable.new .unknown).foldl (by decide +kernel)).sound.linked
  exact ⟨hps, hm, exists_history hps hm⟩

end ContractIR.Conversion
