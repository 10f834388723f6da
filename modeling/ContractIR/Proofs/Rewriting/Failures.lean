import ContractIR.Proofs.Module.Reachable
import ContractIR.Proofs.Rewriting.Substitution
import ContractIR.Verifier

/-!
# What failed rewrites leave behind

Erasing an operation and moving one before another one look first and change the module after that,
so if they fail, nothing has happened.  Replacing an operation renames its results before it is
known whether the operation can be erased.  If it cannot, the renaming stays: operations of the tree
may read other values than before, while everything else is as it was.

## Main results

* `ContractIR.Module.run_replaceOp` — replacing an operation as an equation.
* `ContractIR.Module.outsideUse?_eq_none_iff` — when nothing forbids to erase operations.
* `ContractIR.Module.notMem_operands_rewire` — nobody reads a result that was replaced.
* `ContractIR.Module.failed_rewrites` — what a failure leaves behind, and when that is nothing.
-/

set_option autoImplicit false

namespace ContractIR

namespace Module

variable {m : Module} {id anchor : OpId} {values : List ValueId}

/-! ## Replacing as an equation -/

/-- Replacing an operation by values of another number is reported, and then nothing is changed;
otherwise the operation is erased from the module in which its results are renamed. -/
theorem run_replaceOp (m : Module) (id : OpId) (values : List ValueId) :
    (replaceOp id values).run m =
      if (m.op id).results.length = values.length then
        (eraseOp id).run (m.rewire ((m.op id).results.zip values))
      else
        .error
          (.instruction (.resultCount (m.kind id) (m.op id).results.length values.length)) m := by
  rw [replaceOp, Outcome.run_get_bind]
  dsimp only
  split <;> rfl

/-! ## Uses from outside -/

/-- **When nothing forbids to erase operations**: whoever reads a result of one of them is one of
them. -/
theorem outsideUse?_eq_none_iff {nested : List OpId} :
    m.outsideUse? nested = none ↔ ∀ inner ∈ nested, ∀ v ∈ (m.op inner).results, ∀ user ∈ m.walk,
      v ∈ (m.op user).operands → user ∈ nested := by
  simp only [outsideUse?, List.findSome?_eq_none_iff, Option.map_eq_none_iff, List.find?_eq_none,
    users, List.mem_filter, List.contains_iff_mem, Bool.not_eq_true', Bool.not_eq_false, and_imp]

/-- Nobody reads a result that was replaced, if no result is read in the place of another one. -/
theorem notMem_operands_rewire (hnew : ∀ v ∈ values, v ∉ (m.op id).results)
    (hlength : (m.op id).results.length = values.length) {o : OpId} (ho : o ∈ m.walk) {v : ValueId}
    (hv : v ∈ (m.op id).results) :
    v ∉ ((m.rewire ((m.op id).results.zip values)).op o).operands := by
  rw [operands_rewire _ _ ho, List.mem_map]
  rintro ⟨w, -, rfl⟩
  rcases renamed_cases (fun p hp q hq heq => hnew p.2 (List.of_mem_zip hp).2
    (heq ▸ (List.of_mem_zip hq).1)) w with ⟨hnone, heq⟩ | ⟨p, hp, -, heq⟩
  · -- a result that keeps its name would stand in no pair
    rw [heq] at hv
    obtain ⟨i, hi, rfl⟩ := List.getElem_of_mem hv
    have hi' : i < values.length := hlength ▸ hi
    refine hnone ((m.op id).results[i], values[i]) (List.mem_iff_getElem.2 ⟨i, ?_, ?_⟩) rfl
    · rw [List.length_zip]
      exact Nat.lt_min.2 ⟨hi, hi'⟩
    · rw [List.getElem_zip]
  · rw [heq] at hv
    exact hnew p.2 (List.of_mem_zip hp).2 hv

/-! ## Failures -/

/-- An operation that cannot be erased is still there, and so is everything else. -/
theorem eq_of_eraseOp_error {e : IrError} {n : Module} (h : (eraseOp id).run m = .error e n) :
    n = m := by
  rw [run_eraseOp] at h
  split at h <;> cases h
  rfl

/-- An operation that cannot be moved stands where it stood, and so does everything else. -/
theorem eq_of_moveBefore_error {e : IrError} {n : Module}
    (h : (moveBefore id anchor).run m = .error e n) : n = m := by
  rw [run_moveBefore] at h
  split at h <;> cases h
  rfl

/-- What is left where an operation cannot be replaced: the number of values decides whether results
were renamed. -/
theorem eq_of_replaceOp_error {e : IrError} {n : Module}
    (h : (replaceOp id values).run m = .error e n) :
    n = if (m.op id).results.length = values.length then
        m.rewire ((m.op id).results.zip values)
      else m := by
  rw [run_replaceOp] at h
  by_cases hlength : (m.op id).results.length = values.length
  · rw [if_pos hlength] at h ⊢
    exact eq_of_eraseOp_error h
  · rw [if_neg hlength] at h ⊢
    cases h
    rfl

/-- An operation without regions can be replaced by any values but its own results. -/
theorem run_replaceOp_of_regions_eq_nil (hregions : (m.op id).regions = [])
    (hnew : ∀ v ∈ values, v ∉ (m.op id).results)
    (hlength : (m.op id).results.length = values.length) :
    ∃ n, (replaceOp id values).run m = .ok () n := by
  have hrewired := m.rewired_rewire ((m.op id).results.zip values)
  have hnone : (m.rewire ((m.op id).results.zip values)).outsideUse?
      ((m.rewire ((m.op id).results.zip values)).walkOp id) = none := by
    rw [outsideUse?_eq_none_iff, hrewired.walkOp, walkOp, hregions, List.flatMap_nil, hrewired.walk]
    intro inner hinner v hv user huser hread
    rw [List.mem_singleton.1 hinner, hrewired.results] at hv
    exact absurd hread (notMem_operands_rewire hnew hlength huser hv)
  rw [run_replaceOp, if_pos hlength, run_eraseOp, hnone]
  exact ⟨_, rfl⟩

/-- **What a failed rewrite leaves behind.**  A module in which an operation cannot be erased or
moved is as it was.  Where an operation cannot be replaced, its blocks, regions and values are as
they were, and so is each operation, up to the operands of those in the tree.  The operands are
untouched, too, if and only if the number of values was refused, or no operation of the tree reads a
value that gets another name.  This is the case for every operation without regions whose own
results are not among the values.

**Proof sketch.** Each step is an equation (`run_eraseOp`, `run_moveBefore`, `run_replaceOp`).  The
one that renames first leaves `rewire` behind, which changes operands only (`rewired_rewire`) and
all of them in the same way (`op_rewire`).  Without own results among the values nobody reads a
result afterwards (`notMem_operands_rewire`), so an operation without regions can be erased then. -/
theorem failed_rewrites (hm : m.Linked) (id anchor : OpId) (values : List ValueId) :
    (∀ e n, (eraseOp id).run m = .error e n → n = m) ∧
    (∀ e n, (moveBefore id anchor).run m = .error e n → n = m) ∧
    ∀ e n, (replaceOp id values).run m = .error e n →
      n = { m with ops := n.ops } ∧
      (∀ o, n.op o = m.op o ∨ m.isAttached o = true ∧
        n.op o = (m.op o).rename (renamed ((m.op id).results.zip values))) ∧
      (n = m ↔ (m.op id).results.length ≠ values.length ∨
        ∀ o, m.isAttached o = true → ∀ v ∈ (m.op o).operands,
          renamed ((m.op id).results.zip values) v = v) ∧
      ((m.op id).regions = [] → (∀ v ∈ values, v ∉ (m.op id).results) → n = m) := by
  refine ⟨fun _ _ => eq_of_eraseOp_error, fun _ _ => eq_of_moveBefore_error, fun e n h => ?_⟩
  have hleft := eq_of_replaceOp_error h
  by_cases hlength : (m.op id).results.length = values.length
  · rw [if_pos hlength] at hleft
    obtain ⟨ops, -, hrewire⟩ := (m.rewired_rewire ((m.op id).results.zip values)).arenas
    refine ⟨?_, fun o => ?_, ?_, fun hregions hnew => ?_⟩
    · rw [hleft, hrewire]
    · rw [hleft, op_rewire]
      split
      · rename_i ho
        exact .inr ⟨hm.mem_walk_iff.1 ho, rfl⟩
      · exact .inl rfl
    · rw [hleft, rewire_eq_self_iff]
      simp only [hm.mem_walk_iff, hlength, ne_eq, not_true_eq_false, false_or]
    · obtain ⟨t, ht⟩ := run_replaceOp_of_regions_eq_nil hregions hnew hlength
      rw [ht] at h
      cases h
  · rw [if_neg hlength] at hleft
    subst hleft
    exact ⟨rfl, fun _ => .inl rfl, by simp [hlength], fun _ _ => rfl⟩

end Module

/-- A function that calls another one with two results, and adds them. -/
def pairCall : Builder :=
  [Command.build (.llvmFunc "pair" ⟨[], [.int 8, .int 8]⟩ "external" false),
    .build (.llvmFunc "f" ⟨[], []⟩ "external" true), .build (.toEnd ⟨1⟩),
    .build (.llvmCall "pair" [] [.int 8, .int 8]), .build (.llvmBinary .add ⟨0⟩ ⟨1⟩),
    .build (.llvmRet [])].foldl (fun b c => c.run b) (.new (.new .unknown))

/-- The call cannot be replaced by its own results, and then nothing has happened.

**Proof sketch.** That the replacement fails is computed.  `failed_rewrites` says what it leaves
behind, and no operation reads a value that the renaming would change. -/
theorem pairCall_untouched :
    pairCall.ir.Linked ∧
      ∃ e, (Module.replaceOp ⟨2⟩ [⟨0⟩, ⟨1⟩]).run pairCall.ir = .error e pairCall.ir := by
  have hm : pairCall.ir.Linked :=
    ((Builder.Reachable.new .unknown).foldl (by decide +kernel)).sound.linked
  have hresults : (pairCall.ir.op ⟨2⟩).results = [⟨0⟩, ⟨1⟩] := by decide +kernel
  have hends : Outcome.endsIn (Module.replaceOp ⟨2⟩ [⟨0⟩, ⟨1⟩]) pairCall.ir (fun _ => true) =
      false := by
    decide +kernel
  refine ⟨hm, ?_⟩
  cases hrun : (Module.replaceOp ⟨2⟩ [⟨0⟩, ⟨1⟩]).run pairCall.ir with
  | ok u n =>
    rw [Outcome.endsIn, hrun] at hends
    cases hends
  | error e n =>
    obtain ⟨-, -, huntouched, -⟩ := (Module.failed_rewrites hm ⟨2⟩ ⟨2⟩ [⟨0⟩, ⟨1⟩]).2.2 e n hrun
    have hn : n = pairCall.ir := huntouched.2 <| .inr fun o _ v _ => by
      rw [hresults]
      simp only [List.zip_cons_cons, List.zip_nil_left, Module.renamed_cons, Module.renamed_nil]
      split <;> simp_all
    exact ⟨e, by rw [hn]⟩

/-- The call cannot be replaced by its own second result twice, but the addition reads this result
twice from then on. -/
theorem pairCall_rewired :
    pairCall.ir.Linked ∧ pairCall.ir.verify = .ok () ∧
      (pairCall.ir.op ⟨3⟩).operands = [⟨0⟩, ⟨1⟩] ∧
      ∃ n, (Module.replaceOp ⟨2⟩ [⟨1⟩, ⟨1⟩]).run pairCall.ir =
          .error (.instruction (.stillUsed (.llvm .call) ⟨1⟩ (.llvm .add))) n ∧
        (n.op ⟨3⟩).operands = [⟨1⟩, ⟨1⟩] := by
  refine ⟨((Builder.Reachable.new .unknown).foldl (by decide +kernel)).sound.linked,
    by decide +kernel, by decide +kernel, pairCall.ir.rewire [(⟨0⟩, ⟨1⟩), (⟨1⟩, ⟨1⟩)], ?_,
    by decide +kernel⟩
  have hresults : (pairCall.ir.op ⟨2⟩).results = [⟨0⟩, ⟨1⟩] := by decide +kernel
  have huse : (pairCall.ir.rewire [(⟨0⟩, ⟨1⟩), (⟨1⟩, ⟨1⟩)]).outsideUse?
      ((pairCall.ir.rewire [(⟨0⟩, ⟨1⟩), (⟨1⟩, ⟨1⟩)]).walkOp ⟨2⟩) = some (⟨2⟩, ⟨1⟩, ⟨3⟩) := by
    decide +kernel
  have hkinds : (pairCall.ir.rewire [(⟨0⟩, ⟨1⟩), (⟨1⟩, ⟨1⟩)]).kind ⟨2⟩ = .llvm .call ∧
      (pairCall.ir.rewire [(⟨0⟩, ⟨1⟩), (⟨1⟩, ⟨1⟩)]).kind ⟨3⟩ = .llvm .add := by
    decide +kernel
  have hrun := Module.run_eraseOp (pairCall.ir.rewire [(⟨0⟩, ⟨1⟩), (⟨1⟩, ⟨1⟩)]) ⟨2⟩
  simp only [huse, hkinds.1, hkinds.2] at hrun
  rw [Module.run_replaceOp, hresults, if_pos (by rfl)]
  exact hrun

end ContractIR
