import ContractIR.Proofs.Rewriting.Failures
import ContractIR.Proofs.Verification.Congruence
import ContractIR.Proofs.Verification.Dominance
import ContractIR.Proofs.Verification.Rules

/-!
# Replacing keeps a module accepted

An operation of an accepted module is replaced in two steps, and the module stays accepted after
each of them.  First the users of its results read other values: of the same types, and defined
wherever the results are.  Then the operation is taken out together with what is inside it, which
nobody outside reads.

## Main results

* `ContractIR.Module.verify_rewire` — other values may be read.
* `ContractIR.Module.verify_detachOp` — an operation that nobody reads may be taken out.
* `ContractIR.Module.verify_replaceOp` — an operation may be replaced by values that are defined at
  it.
-/

set_option autoImplicit false

namespace ContractIR

namespace Module

variable {m : Module} {id : OpId} {pairs : List (ValueId × ValueId)}

/-! ## Reading other values -/

/-- Replacing values by others that exist keeps the links. -/
theorem Linked.rewire (h : m.Linked) (hnew : ∀ p ∈ pairs, p.2.index < m.values.size) :
    (m.rewire pairs).Linked :=
  (LinkedWith.foldl_replaceUses ⟨h, Nat.le_refl _, Nat.le_refl _⟩ pairs hnew).linked

/-- **Other values may be read**, if they have the same types and are defined wherever the old ones
are.

**Proof sketch.** Renaming changes operands only, so the module verifies if every operation keeps
its own rule and knows its new operands (`verify_eq_ok`).  The types are those of before, and a
new value dominates where the old one did; both follow the renaming pair by pair
(`renamed_induction`). -/
theorem verify_rewire (hverify : m.verify = .ok ())
    (htypes : ∀ p ∈ pairs, m.typeOf p.2 = m.typeOf p.1)
    (hdominates : ∀ p ∈ pairs, ∀ user, m.dominates p.1 user = true → m.dominates p.2 user = true) :
    (m.rewire pairs).verify = .ok () := by
  have h := m.rewired_rewire pairs
  have htype : ∀ v, m.typeOf (renamed pairs v) = m.typeOf v := fun v =>
    renamed_induction (P := fun w => m.typeOf w = m.typeOf v) (fun p hp => (htypes p hp).trans) rfl
  refine h.verify_eq_ok hverify fun o ho => ?_
  obtain ⟨hop, hknown⟩ := of_verify hverify ho
  have hoperands := m.operands_rewire pairs ho
  refine ⟨?_, fun v hv => ?_⟩
  · refine (h.verifyOp_eq ?_ fun _ => ?_).trans hop
    · rw [hoperands, typesOf, typesOf, List.map_map]
      exact List.map_congr_left fun v _ => htype v
    · rw [op_rewire, if_pos ho]
      rfl
  · rw [hoperands] at hv
    obtain ⟨w, hw, rfl⟩ := List.mem_map.1 hv
    exact renamed_induction (P := fun v => m.dominates v o = true)
      (fun p hp => hdominates p hp o) (hknown w hw)

/-! ## Taking out an operation -/

section Detach

/-- Taking out an operation that declares no symbol changes places only.

**Proof sketch.** Field by field: only the place of the operation and the list of its block
change.  A block declares the same symbols, since the operation that left it declared none. -/
theorem Linked.resembles_detachOp (h : m.Linked) (hsymbol : (m.kind id).isSymbol = false) :
    m.Resembles (m.detachOp id) where
  kind := kind_detachOp id
  attrs o := by
    rw [op_detachOp]
    split <;> rfl
  location o := by
    rw [op_detachOp]
    split <;> rfl
  results o := by
    rw [op_detachOp]
    split <;> rfl
  regions o := by
    rw [op_detachOp]
    split <;> rfl
  region := region_detachOp m id
  args := args_block_detachOp
  parent := parent_block_detachOp
  typeOf := funext fun v => by rw [typeOf, typeOf, value_detachOp]
  symbols := funext fun r => by
    simp only [symbolsIn, region_detachOp]
    refine List.flatMap_congr fun b _ => ?_
    rw [h.ops_detachOp, List.filterMap_filter]
    refine List.filterMap_congr fun o _ => ?_
    by_cases ho : o = id
    · simp [ho, hsymbol]
    · simp [ho, kind, symName?, attr?, op_detachOp_of_ne ho]

/-- Above an operation outside, nothing is changed. -/
theorem up_detachOp_iff {o p : OpId} (hne : o ≠ id) : (m.detachOp id).Up o p ↔ m.Up o p := by
  simp only [up_iff, op_detachOp_of_ne hne, region_detachOp, parent_block_detachOp]

/-- What is left in the tree was there, and is not inside the operation.

**Proof sketch.** Nothing new is attached, because the links that are left are links of before.
If `o` were inside the operation, it still would be, by induction along the chain; but then the
operation would be attached and stand in a block. -/
theorem Linked.of_isAttached_detachOp (h : m.Linked) {o : OpId}
    (ho : (m.detachOp id).isAttached o = true) : m.isAttached o = true ∧ ¬m.Inside o id := by
  have hn := h.detachOp id
  refine ⟨?_, fun hinside => ?_⟩
  · refine h.isAttached_of_isAttached hn (fun p b _ hp => ?_) (fun b _ => parent_block_detachOp b)
      (fun r _ => by rw [region_detachOp]) (by simpa using op_lt_of_isAttached ho) ho
    rw [op_detachOp] at hp
    split at hp
    · cases hp
    · exact hp
  · -- then the operation would be around it still, but it stands in no block
    have hstill : (m.detachOp id).Inside o id := by
      induction hinside using Relation.ReflTransGen.head_induction_on with
      | refl => exact .refl
      | @head x y hup _ ih =>
        by_cases hx : x = id
        · rw [hx]
          exact .refl
        · have hup' := (up_detachOp_iff hx).2 hup
          exact .head hup' (ih (hn.isAttached_of_up ho hup'))
    obtain ⟨b, hb⟩ := exists_parent_of_isAttached (hn.isAttached_of_inside ho hstill)
    rw [op_detachOp, if_pos rfl] at hb
    cases hb

/-- An operation outside has the ancestors that it had. -/
theorem ancestors_detachOp {o : OpId} (ho : ¬m.Inside o id) :
    (m.detachOp id).ancestors o = m.ancestors o := by
  rw [ancestors, ancestors, depthBound, depthBound, size_ops_detachOp]
  generalize m.ops.size + 1 = depth
  induction depth generalizing o with
  | zero => rfl
  | succ depth ih =>
    have hne : o ≠ id := fun heq => ho (heq ▸ .refl)
    have hparent : (m.detachOp id).parentOp? o = m.parentOp? o := by
      simp only [parentOp?, op_detachOp_of_ne hne, region_detachOp, parent_block_detachOp]
    rw [ancestorsWithin, ancestorsWithin, hparent]
    cases hp : m.parentOp? o with
    | none => rfl
    | some p =>
      have hup : m.Up o p := hp
      simp only [ih fun hin => ho (.head hup hin)]

/-- What is known in the region of an operation stays known, but for results of the one that is
taken out.

**Proof sketch.** By how the value is known.  What defines it is not taken out, since `v` is no
result of the operation, and filtering a block keeps the order of the others. -/
theorem Local.detachOp (h : m.Linked) {o : OpId} (hne : o ≠ id) {v : ValueId}
    (hv : v ∉ (m.op id).results) (hlocal : m.Local v o) : (m.detachOp id).Local v o := by
  have hother : ∀ {p}, v ∈ (m.op p).results → p ≠ id := fun hp heq => hv (heq ▸ hp)
  cases hlocal with
  | @here b hb hreads =>
    refine .here (by rwa [op_detachOp_of_ne hne]) ?_
    rcases hreads with harg | ⟨p, hp, hsublist⟩
    · exact .inl (by rwa [args_block_detachOp])
    · refine .inr ⟨p, by rwa [op_detachOp_of_ne (hother hp)], sublist_detachOp hsublist ?_⟩
      simp [(hother hp).symm, hne.symm]
  | @entry b here hdefines hb hother' hhead =>
    refine .entry ?_ (by rwa [op_detachOp_of_ne hne]) hother' (by simpa using hhead)
    rcases hdefines with harg | ⟨p, hp, hpv⟩
    · exact .inl (by rwa [args_block_detachOp])
    · refine .inr ⟨p, ?_, by rwa [op_detachOp_of_ne (hother hpv)]⟩
      rw [h.ops_detachOp]
      exact List.mem_filter.2 ⟨hp, decide_eq_true (hother hpv)⟩

/-- Outside, what is defined stays defined, but for results of the operation. -/
theorem dominates_detachOp (h : m.Linked) {o : OpId} (ho : ¬m.Inside o id) {v : ValueId}
    (hlt : v.index < m.values.size) (hv : v ∉ (m.op id).results)
    (hdominates : m.dominates v o = true) :
    (m.detachOp id).dominates v o = true := by
  obtain ⟨q, hout, hlocal⟩ := (dominates_iff h hlt).1 hdominates
  have hq : q ≠ id := fun heq => ho (heq ▸ inside_of_out hout)
  refine dominates_of_local (h.detachOp id) ?_ (hlocal.detachOp h hq hv)
  clear hdominates hlocal hq
  induction hout using Relation.ReflTransGen.head_induction_on with
  | refl => exact .refl
  | @head x y hxy _ ih =>
    have hx : x ≠ id := fun heq => ho (heq ▸ .refl)
    refine .head ⟨(up_detachOp_iff hx).2 hxy.1, ?_⟩ (ih fun hin => ho (.head hxy.1 hin))
    rw [kind_detachOp]
    exact hxy.2

/-- A list ends as before without a member that is not its last one. -/
theorem getLast?_filter_ne {ids : List OpId} {last : OpId} (hlast : ids.getLast? = some last)
    (hne : last ≠ id) : (ids.filter fun o => decide (o ≠ id)).getLast? = some last := by
  obtain ⟨init, rfl⟩ := List.getLast?_eq_some_iff.1 hlast
  rw [List.filter_append, List.filter_cons_of_pos (by simpa using hne), List.filter_nil,
    List.getLast?_append_cons]
  rfl

/-- A block that ends with a terminator still does without another operation. -/
theorem Linked.isTerminated_detachOp (h : m.Linked) (hterminator : (m.kind id).isTerminator = false)
    {b : BlockId} (hb : m.isTerminated b = true) :
    (m.detachOp id).isTerminated b = m.isTerminated b := by
  rw [isTerminated] at hb
  split at hb
  · rename_i last hlast
    have hne : last ≠ id := by
      rintro rfl
      cases hterminator.symm.trans hb
    simp only [isTerminated, h.ops_detachOp, getLast?_filter_ne hlast hne, hlast, kind_detachOp]
  · cases hb

/-- **An operation that nobody reads may be taken out** together with what is inside it, if it is no
terminator and declares no symbol.

**Proof sketch.** What is left stood outside of the operation.  There, names mean what they meant,
a terminator is last in its block as before, and what was defined at an operation still is
(`dominates_detachOp`). -/
theorem verify_detachOp (h : m.Linked) (hverify : m.verify = .ok ())
    (hterminator : (m.kind id).isTerminator = false) (hsymbol : (m.kind id).isSymbol = false)
    (hunread : ∀ o, m.isAttached o = true → ¬m.Inside o id → ∀ v ∈ (m.op o).operands,
      v ∉ (m.op id).results) : (m.detachOp id).verify = .ok () := by
  have hresembles := h.resembles_detachOp hsymbol
  obtain ⟨hsymbols, hplaces, huses⟩ := verify_eq_ok_iff.1 hverify
  have hwalk : ∀ {o}, o ∈ (m.detachOp id).walk → o ∈ m.walk ∧ ¬m.Inside o id ∧ o ≠ id := by
    intro o ho
    obtain ⟨hattached, hout⟩ := h.of_isAttached_detachOp ((h.detachOp id).mem_walk_iff.1 ho)
    exact ⟨h.mem_walk_iff.2 hattached, hout, fun heq => hout (heq ▸ .refl)⟩
  refine verify_eq_ok_iff.2 ⟨(hresembles.verifySymbols_eq _).trans hsymbols, fun o ho => ?_,
    fun o ho => ?_⟩
  · obtain ⟨ho, -, hne⟩ := hwalk ho
    rw [verifyPlacement_eq_ok_iff, kind_detachOp, op_detachOp_of_ne hne]
    intro hkind
    obtain ⟨b, hb, hlast⟩ :=
      Option.bind_eq_some_iff.1 (verifyPlacement_eq_ok_iff.1 (hplaces o ho) hkind)
    rw [hb, Option.bind_some, h.ops_detachOp]
    exact getLast?_filter_ne hlast hne
  · obtain ⟨ho, hout, hne⟩ := hwalk ho
    obtain ⟨hop, hdominates⟩ := huses o ho
    have hat : m.ResemblesAt (m.detachOp id) o :=
      { operands := by rw [hresembles.typesOf_eq, op_detachOp_of_ne hne]
        place := by rw [op_detachOp_of_ne hne]
        lookup := hresembles.lookup?_eq (ancestors_detachOp hout)
        successors := fun _ => by rw [op_detachOp_of_ne hne]
        ended := fun hkind b hb => h.isTerminated_detachOp hterminator
          (isTerminated_of_verifyOp hop hkind hb) }
    refine ⟨(verifyOp_congr hresembles hat).trans hop, fun v hv => ?_⟩
    rw [op_detachOp_of_ne hne] at hv
    exact dominates_detachOp h hout (h.operands_lt o v hv)
      (hunread o (h.mem_walk_iff.1 ho) hout v hv) (hdominates v hv)

end Detach

/-! ## Replacing an operation -/

/-- **Replacing an operation keeps a module accepted.**  If the operation belongs to the tree, is no
terminator and declares no symbol, and the values have the types of its results and are defined at
it, it can be replaced by them.  It is gone then, nobody reads its results, and the module is
accepted.

**Proof sketch.** The values are defined wherever the results are (`dominates_trans`), so the
module stays accepted when they are read instead (`verify_rewire`).  No value is a result of the
operation or defined below it, since those are not defined at the operation; so nobody outside reads
anything from inside (`transGen_of_dominates`), the operation can be erased, and the module stays
accepted (`verify_detachOp`). -/
theorem verify_replaceOp (hm : m.Linked) (hverify : m.verify = .ok ())
    (hattached : m.isAttached id = true) (hterminator : (m.kind id).isTerminator = false)
    (hsymbol : (m.kind id).isSymbol = false) {values : List ValueId}
    (hvalues : ∀ v ∈ values, m.HasValue v)
    (htypes : m.typesOf values = m.typesOf (m.op id).results)
    (hdominates : ∀ v ∈ values, m.dominates v id = true) :
    ∃ n, (replaceOp id values).run m = .ok () n ∧ n.isAttached id = false ∧
      (∀ o, n.isAttached o = true → ∀ v ∈ (m.op id).results, v ∉ (n.op o).operands) ∧
      n.verify = .ok () := by
  have hlength : (m.op id).results.length = values.length := by
    simpa [typesOf] using (congrArg List.length htypes).symm
  have hnew : ∀ v ∈ values, v ∉ (m.op id).results := fun v hv hresult => by
    have hself := dominates_eq_false_of_mem_results hm hresult
    rw [hdominates v hv] at hself
    cases hself
  let pairs := (m.op id).results.zip values
  have hold : ∀ p ∈ pairs, p.1 ∈ (m.op id).results := fun p hp => (List.of_mem_zip hp).1
  have hfresh : ∀ p ∈ pairs, p.2 ∈ values := fun p hp => (List.of_mem_zip hp).2
  have hrewired := m.rewired_rewire pairs
  have hs : (m.rewire pairs).Linked := hm.rewire fun p hp => hvalues p.2 (hfresh p hp)
  have haccepted : (m.rewire pairs).verify = .ok () :=
    verify_rewire hverify (fun p hp => typeOf_eq_of_mem_zip htypes hp) fun p hp _ huse =>
      dominates_trans hm (hvalues p.2 (hfresh p hp)) (hdominates p.2 (hfresh p hp)) (hold p hp) huse
  have hgone : ∀ o, m.isAttached o = true → ∀ v ∈ (m.op id).results,
      v ∉ ((m.rewire pairs).op o).operands := fun o ho v hv =>
    notMem_operands_rewire hnew hlength (hm.mem_walk_iff.2 ho) hv
  -- what is defined below the operation is read below it
  have hunused : (m.rewire pairs).outsideUse? ((m.rewire pairs).walkOp id) = none := by
    rw [outsideUse?_eq_none_iff, hrewired.walkOp, hrewired.walk]
    intro inner hinner v hv user huser hread
    rw [hrewired.results] at hv
    by_cases hid : inner = id
    · exact absurd hread (hgone user (hm.mem_walk_iff.1 huser) v (hid ▸ hv))
    · have hknown := (of_verify haccepted (hrewired.walk ▸ huser)).2 v hread
      rw [hrewired.dominates] at hknown
      have hbelow := transGen_of_dominates hm (hm.mem_walkOp_iff.1 hinner) hid hv hknown
      exact hm.mem_walkOp_iff.2 hbelow.to_reflTransGen
  refine ⟨(m.rewire pairs).detachOp id, ?_, ?_, fun o ho v hv => ?_, ?_⟩
  · rw [run_replaceOp, if_pos hlength, run_eraseOp, hunused]
  · rw [Bool.eq_false_iff]
    exact fun hstill => (hs.of_isAttached_detachOp hstill).2 .refl
  · obtain ⟨ho, hout⟩ := hs.of_isAttached_detachOp ho
    have hne : o ≠ id := by
      rintro rfl
      exact hout .refl
    rw [op_detachOp_of_ne hne]
    exact hgone o ((hrewired.isAttached o).symm.trans ho) v hv
  · refine verify_detachOp hs haccepted (by rwa [hrewired.kind]) (by rwa [hrewired.kind])
      fun o ho _ v hv hresult => ?_
    rw [hrewired.results] at hresult
    exact hgone o ((hrewired.isAttached o).symm.trans ho) v hresult hv

end Module

/-- A function with the same constant twice, both of which are read in its second block. -/
def twinConstants : Builder :=
  [Command.build (.llvmFunc "twin" ⟨[.i1], []⟩ "external" true), .build (.appendBlock ⟨0⟩ 0 []),
    .build (.toEnd ⟨1⟩), .build (.llvmConstant 7 .word), .build (.llvmConstant 7 .word),
    .build (.llvmBr ⟨2⟩), .build (.toEnd ⟨2⟩), .build (.llvmBinary .add ⟨1⟩ ⟨2⟩),
    .build (.llvmRet [])].foldl (fun b c => c.run b) (.new (.new .unknown))

/-- The second constant can be replaced by the first one. -/
theorem twinConstants_merged :
    twinConstants.ir.verify = .ok () ∧
      ∃ n, (Module.replaceOp ⟨2⟩ [⟨1⟩]).run twinConstants.ir = .ok () n ∧
        n.isAttached ⟨2⟩ = false ∧
        (∀ o, n.isAttached o = true → ∀ v ∈ (twinConstants.ir.op ⟨2⟩).results,
          v ∉ (n.op o).operands) ∧ n.verify = .ok () := by
  have hm : twinConstants.ir.Linked :=
    ((Builder.Reachable.new .unknown).foldl (by decide +kernel)).sound.linked
  have hverify : twinConstants.ir.verify = .ok () := by decide +kernel
  exact ⟨hverify, Module.verify_replaceOp hm hverify (by decide +kernel) (by decide +kernel)
    (by decide +kernel) (by decide +kernel) (by decide +kernel) (by decide +kernel)⟩

end ContractIR
