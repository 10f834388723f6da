import ContractIR.Proofs.Typing.Modules
import ContractIR.Proofs.Verification.Paths

/-!
# Definition before use

The verifier climbs from a use outwards until it meets the region of the definition.  Said without a
bound on the number of steps, a value is known at an operation if it is known in the region of an
operation around it, and no isolated operation is in between.  A value that is known at an operation
is known wherever a result of the operation is known.

## Main definitions

* `ContractIR.Module.Local` — a value is known at an operation, and its definition stands in the
  same region.
* `ContractIR.Module.Out` — a step outwards that leaves no isolated operation.

## Main results

* `ContractIR.Module.dominates_iff` — the check of the verifier, without bounds.
* `ContractIR.Module.dominates_trans` — what is known at an operation is known where its results
  are.
* `ContractIR.Module.dominates_eq_false_of_mem_results` — no operation knows its own results.
* `ContractIR.Module.transGen_of_dominates` — what is defined below an operation is known there
  only.
-/

set_option autoImplicit false

namespace ContractIR

namespace Module

variable {m : Module} {v w : ValueId} {o p user : OpId} {b : BlockId}

/-! ## What is known at an operation -/

/-- A block defines a value: it is an argument, or a result of one of its operations. -/
def Defines (m : Module) (b : BlockId) (v : ValueId) : Prop :=
  v ∈ (m.block b).args ∨ ∃ p ∈ (m.block b).ops, v ∈ (m.op p).results

/-- A value is known at an operation from the region that the operation stands in: it is defined in
front of the operation in its block, or by another block, with which the region starts. -/
inductive Local (m : Module) (v : ValueId) (o : OpId) : Prop where
  | here {b : BlockId} (hb : (m.op o).parent = some b) (hv : m.Reads b o v)
  | entry {b here : BlockId} (hv : m.Defines b v) (hb : (m.op o).parent = some here)
      (hne : here ≠ b) (hhead : (m.region (m.block here).parent).blocks.head? = some b)

/-- One step outwards, out of an operation that is not isolated. -/
def Out (m : Module) (o p : OpId) : Prop := m.Up o p ∧ (m.kind p).isIsolated = false

/-- What is reached by steps outwards is around. -/
theorem inside_of_out (h : Relation.ReflTransGen m.Out o p) : m.Inside o p :=
  Relation.ReflTransGen.mono (fun _ _ => And.left) _ _ h

/-! ## Places -/

/-- An operation of a block has a place in it. -/
theorem Linked.exists_indexOf? (h : m.Linked) (hb : (m.op o).parent = some b) :
    ∃ before behind, (m.block b).ops = before ++ o :: behind ∧
      m.indexOf? o = some before.length := by
  obtain ⟨before, behind, hops⟩ := List.mem_iff_append.1 ((h.op_parent o b).1 hb)
  exact ⟨before, behind, hops, h.indexOf?_eq hops⟩

/-- A result is defined at the place of its operation. -/
theorem Linked.definedAt?_result (h : m.Linked) (hv : v ∈ (m.op p).results)
    (hb : (m.op p).parent = some b) {i : Nat} (hi : m.indexOf? p = some i) :
    m.definedAt? v = some (b, some i) := by
  obtain ⟨k, hk⟩ := List.getElem?_of_mem hv
  have horigin := (h.result_origin v p k (h.results_lt p v hv)).2 hk
  simp only [definedAt?, horigin, hb, hi]

/-- An argument is defined in front of its block. -/
theorem Linked.definedAt?_arg (h : m.Linked) (hv : v ∈ (m.block b).args) :
    m.definedAt? v = some (b, none) := by
  obtain ⟨k, hk⟩ := List.getElem?_of_mem hv
  have horigin := (h.arg_origin v b k (h.args_lt b v hv)).2 hk
  simp only [definedAt?, horigin]

/-- What a block defines is defined somewhere in it. -/
theorem Linked.definedAt?_of_defines (h : m.Linked) (hv : m.Defines b v) :
    ∃ index, m.definedAt? v = some (b, index) := by
  rcases hv with hv | ⟨p, hp, hv⟩
  · exact ⟨none, h.definedAt?_arg hv⟩
  · have hparent := (h.op_parent p b).2 hp
    obtain ⟨before, _, _, hi⟩ := h.exists_indexOf? hparent
    exact ⟨some before.length, h.definedAt?_result hv hparent hi⟩

/-- Of two members of a list in order, and two more that start where those end, the outer ones are
in order. -/
theorem pair_sublist_trans {ids : List OpId} (hnodup : ids.Nodup) {x y z : OpId}
    (hxy : [x, y].Sublist ids) (hyz : [y, z].Sublist ids) : [x, z].Sublist ids := by
  obtain ⟨front, back, rfl, hx, hy⟩ := List.cons_sublist_iff.1 hxy
  have hynot : y ∉ front := fun hmem =>
    (List.nodup_append.1 hnodup).2.2 y hmem y (List.singleton_sublist.1 hy) rfl
  have hz : [y, z].Sublist back := by
    rw [List.sublist_append_iff] at hyz
    obtain ⟨l₁, l₂, heq, hfront, hback⟩ := hyz
    cases l₁ with
    | nil =>
      rw [List.nil_append] at heq
      exact heq ▸ hback
    | cons a l₁ =>
      obtain ⟨rfl, -⟩ := List.cons.inj heq
      exact absurd (hfront.subset List.mem_cons_self) hynot
  exact (List.singleton_sublist.2 hx).append (List.singleton_sublist.2 (hz.subset (by simp)))

/-! ## The check of the verifier -/

/-- What is known in the region of an operation, the verifier accepts at the operation.

**Proof sketch.** By how the value is known.  An argument of the block, or of the first block,
reaches it at once; for a result in the block, the two places are read off the split list, the
earlier one in front. -/
theorem Local.reaches (h : m.Linked) (hv : m.Local v o) :
    ∃ b index, m.definedAt? v = some (b, index) ∧
      (∃ here, (m.op o).parent = some here ∧ (m.block here).parent = (m.block b).parent) ∧
      ∀ depth, m.reaches b index (depth + 1) o = true := by
  cases hv with
  | @here b hb hv =>
    rcases hv with hv | ⟨p, hv, hsublist⟩
    · refine ⟨b, none, h.definedAt?_arg hv, ⟨b, hb, rfl⟩, fun depth => ?_⟩
      simp [Module.reaches, hb]
    · obtain ⟨front, back, hops, hp, ho⟩ := List.cons_sublist_iff.1 hsublist
      obtain ⟨before, between, rfl⟩ := List.mem_iff_append.1 hp
      obtain ⟨between', behind, rfl⟩ := List.mem_iff_append.1 (List.singleton_sublist.1 ho)
      have hparent : (m.op p).parent = some b := (h.op_parent p b).2 (by simp [hops])
      have hplace : m.indexOf? p = some before.length :=
        h.indexOf?_eq (by rw [hops, List.append_assoc, List.cons_append])
      have hplace' : m.indexOf? o = some (before ++ p :: between ++ between').length :=
        h.indexOf?_eq (by rw [hops, List.append_assoc, List.append_assoc, List.append_assoc])
      refine ⟨b, some before.length, h.definedAt?_result hv hparent hplace, ⟨b, hb, rfl⟩,
        fun depth => ?_⟩
      simp only [Module.reaches, hb, ↓reduceIte, hplace', decide_eq_true_eq, List.length_append,
        List.length_cons]
      omega
  | @entry b here hv hb hne hhead =>
    obtain ⟨index, hdef⟩ := h.definedAt?_of_defines hv
    have hmem := List.mem_of_head? hhead
    have hparent : (m.block b).parent = (m.block here).parent :=
      (h.block_parent b _ (h.blocks_lt _ b hmem)).2 hmem
    refine ⟨b, index, hdef, ⟨here, hb, hparent.symm⟩, fun depth => ?_⟩
    simp [Module.reaches, hb, hparent, hne, hhead]

/-- What is known at an operation around another one is accepted at that one, if no isolated
operation is in between.

**Proof sketch.** By induction along the steps outwards.  The climb cannot stop early: an operation
below `o` that stood in the region of the definition, where `o` stands, would be `o`. -/
theorem dominates_of_local (h : m.Linked) (hout : Relation.ReflTransGen m.Out user o)
    (hv : m.Local v o) : m.dominates v user = true := by
  obtain ⟨b, index, hdef, ⟨there, hthere, hregion⟩, hreaches⟩ := hv.reaches h
  rw [dominates, hdef]
  suffices hclimb : ∀ depth, (m.ancestors user).length < depth →
      m.reaches b index depth user = true from hclimb _ (h.length_ancestors_lt user)
  induction hout using Relation.ReflTransGen.head_induction_on with
  | refl =>
    intro depth hdepth
    obtain ⟨depth, rfl⟩ := Nat.exists_eq_succ_of_ne_zero (Nat.ne_zero_of_lt hdepth)
    exact hreaches depth
  | @head x y hxy hyo ih =>
    obtain ⟨hup, hopen⟩ := hxy
    intro depth hdepth
    obtain ⟨depth, rfl⟩ := Nat.exists_eq_succ_of_ne_zero (Nat.ne_zero_of_lt hdepth)
    have hparent : m.parentOp? x = some y := hup
    rw [h.ancestors_eq x, hparent, List.length_cons] at hdepth
    obtain ⟨here, hhere, howner⟩ := up_iff.1 hup
    have hne : (m.block here).parent ≠ (m.block b).parent := by
      intro heq
      have hsame : m.parentOp? x = m.parentOp? o := by
        rw [parentOp?, parentOp?, hhere, hthere, Option.bind_some, Option.bind_some, heq, hregion]
      have hxo : x = o := h.root_unique .refl (.head hup (inside_of_out hyo)) hsame
      exact h.not_transGen_self o (.head' (hxo ▸ hup) (inside_of_out hyo))
    simp only [reaches, hhere, hne, ↓reduceIte, howner, hopen, Bool.false_eq_true]
    exact ih depth (Nat.lt_of_succ_lt_succ hdepth)

/-- What the verifier accepts at an operation is known in a region around it.

**Proof sketch.** Induction on the depth of the climb.  If the operation stands in the region
that defines the value, then either in the same block behind it, or in another one and the
definition is in the first; otherwise the verifier goes on from the operation around it, and so
does the induction. -/
theorem exists_local_of_reaches (h : m.Linked) (hlt : v.index < m.values.size) {index : Option Nat}
    (hdef : m.definedAt? v = some (b, index)) {depth : Nat}
    (hreaches : m.reaches b index depth user = true) :
    ∃ o, Relation.ReflTransGen m.Out user o ∧ m.Local v o := by
  induction depth generalizing user with
  | zero => cases hreaches
  | succ depth ih =>
    unfold reaches at hreaches
    split at hreaches
    · cases hreaches
    · rename_i here hhere
      dsimp only at hreaches
      have hsource := of_definedAt? h hlt hdef
      split at hreaches
      · rename_i hregion
        refine ⟨user, .refl, ?_⟩
        split at hreaches
        · rename_i hb
          subst hb
          rcases hsource with ⟨rfl, hv⟩ | ⟨p, i, rfl, hp, hv⟩
          · exact .here hhere (.inl hv)
          · obtain ⟨before, behind, hops, hplace⟩ := h.exists_indexOf? hhere
            rw [hplace] at hreaches
            have hidx : (m.block here).ops.idxOf? user = some before.length := by
              rwa [indexOf?, hhere, Option.bind_some] at hplace
            obtain ⟨front, back, hsplit, hmem⟩ :=
              exists_split_of_lt hp hidx (of_decide_eq_true hreaches)
            refine .here hhere (.inr ⟨p, hv, hsplit ▸ ?_⟩)
            exact (List.singleton_sublist.2 hmem).append
              (List.cons_sublist_cons.2 (List.nil_sublist _))
        · rename_i hne
          refine .entry ?_ hhere hne (of_decide_eq_true hreaches)
          rcases hsource with ⟨-, hv⟩ | ⟨p, i, -, hp, hv⟩
          · exact .inl hv
          · exact .inr ⟨p, List.mem_of_getElem? hp, hv⟩
      · split at hreaches
        · rename_i p howner
          split at hreaches
          · cases hreaches
          · rename_i hopen
            obtain ⟨o, hout, hv⟩ := ih hreaches
            exact ⟨o, .head ⟨up_iff.2 ⟨here, hhere, howner⟩, Bool.eq_false_iff.2 hopen⟩ hout, hv⟩
        · cases hreaches

/-- **The check of the verifier, without bounds**: a value is defined at an operation if it is known
in the region of an operation around it, and no isolated operation is in between. -/
theorem dominates_iff (h : m.Linked) (hlt : v.index < m.values.size) :
    m.dominates v user = true ↔ ∃ o, Relation.ReflTransGen m.Out user o ∧ m.Local v o := by
  refine ⟨fun hdominates => ?_, fun ⟨o, hout, hv⟩ => dominates_of_local h hout hv⟩
  rw [dominates] at hdominates
  split at hdominates
  · rename_i b index hdef
    exact exists_local_of_reaches h hlt hdef hdominates
  · cases hdominates

/-! ## Results -/

/-- Where a result is known without leaving the region: behind its operation in the same block, or
in another block, if the block of the operation is the first one. -/
theorem Local.of_mem_results (h : m.Linked) (hv : m.Local v o) (hp : v ∈ (m.op p).results) :
    ∃ b here, (m.op p).parent = some b ∧ (m.op o).parent = some here ∧
      (here = b ∧ [p, o].Sublist (m.block b).ops ∨
        here ≠ b ∧ (m.region (m.block here).parent).blocks.head? = some b) := by
  cases hv with
  | @here b hb hv =>
    rcases hv with hv | ⟨q, hq, hsublist⟩
    · exact absurd hv (h.notMem_args_of_mem_results hp b)
    · obtain rfl := h.eq_of_mem_results hq hp
      exact ⟨b, b, (h.op_parent q b).2 (hsublist.subset (by simp)), hb, .inl ⟨rfl, hsublist⟩⟩
  | @entry b here hv hb hne hhead =>
    rcases hv with hv | ⟨q, hq, hqv⟩
    · exact absurd hv (h.notMem_args_of_mem_results hp b)
    · obtain rfl := h.eq_of_mem_results hqv hp
      exact ⟨b, here, (h.op_parent q b).2 hq, hb, .inr ⟨hne, hhead⟩⟩

/-- An operation that knows a result without leaving its region stands beside the operation of the
result. -/
theorem Local.parentOp?_eq (h : m.Linked) (hv : m.Local v o) (hp : v ∈ (m.op p).results) :
    m.parentOp? o = m.parentOp? p := by
  obtain ⟨b, here, hb, hhere, ⟨rfl, -⟩ | ⟨-, hhead⟩⟩ := hv.of_mem_results h hp
  · rw [parentOp?, parentOp?, hb, hhere]
  · have hmem := List.mem_of_head? hhead
    have hparent := (h.block_parent b _ (h.blocks_lt _ b hmem)).2 hmem
    rw [parentOp?, parentOp?, hb, hhere, Option.bind_some, Option.bind_some, hparent]

/-- In one region, what is known at an operation is known where a result of it is known.

**Proof sketch.** By where `p` stands: in the block of `o`, in front of it, or in the first block
of the region.  Then the definition of `w` is in front of `p`, hence of `o`, or in the first block
as well. -/
theorem Local.trans (h : m.Linked) (hw : m.Local w p) (hp : v ∈ (m.op p).results)
    (hv : m.Local v o) : m.Local w o := by
  obtain ⟨b, here, hb, hhere, hplace⟩ := hv.of_mem_results h hp
  cases hw with
  | @here c hc hw =>
    obtain rfl := Option.some.inj (hb.symm.trans hc)
    rcases hplace with ⟨rfl, hpo⟩ | ⟨hne, hhead⟩
    · refine .here hhere ?_
      rcases hw with hw | ⟨q, hq, hqp⟩
      · exact .inl hw
      · exact .inr ⟨q, hq, pair_sublist_trans (h.ops_nodup _) hqp hpo⟩
    · refine .entry ?_ hhere hne hhead
      rcases hw with hw | ⟨q, hq, hqp⟩
      · exact .inl hw
      · exact .inr ⟨q, hqp.subset (by simp), hq⟩
  | @entry c there hw hthere hcne hchead =>
    obtain rfl := Option.some.inj (hb.symm.trans hthere)
    rcases hplace with ⟨rfl, -⟩ | ⟨-, hhead⟩
    · exact .entry hw hhere hcne hchead
    · -- both blocks would be the first one of the region
      have hmem := List.mem_of_head? hhead
      rw [(h.block_parent b _ (h.blocks_lt _ b hmem)).2 hmem, hhead] at hchead
      exact absurd (Option.some.inj hchead) hcne

/-- **What is known at an operation is known wherever a result of the operation is known.**

**Proof sketch.** The result is known at an operation around the use that stands beside the
operation of the result.  If the value is known there without a step outwards, it is known there at
both (`Local.trans`).  Otherwise both operations take the same first step outwards. -/
theorem dominates_trans (h : m.Linked) (hlt : w.index < m.values.size)
    (hw : m.dominates w p = true) (hp : v ∈ (m.op p).results) (hv : m.dominates v user = true) :
    m.dominates w user = true := by
  obtain ⟨q, hpq, hlocal⟩ := (dominates_iff h hlt).1 hw
  obtain ⟨o, hout, hv⟩ := (dominates_iff h (h.results_lt p v hp)).1 hv
  rcases Relation.ReflTransGen.cases_head hpq with rfl | ⟨c, ⟨hup, hopen⟩, hcq⟩
  · exact dominates_of_local h hout (hlocal.trans h hp hv)
  · have hoc : m.Out o c := ⟨(hv.parentOp?_eq h hp).trans hup, hopen⟩
    exact dominates_of_local h ((hout.tail hoc).trans hcq) hlocal

/-- No operation knows its own results. -/
theorem dominates_eq_false_of_mem_results (h : m.Linked) (hv : v ∈ (m.op o).results) :
    m.dominates v o = false := by
  rw [Bool.eq_false_iff]
  intro hdominates
  obtain ⟨q, hout, hlocal⟩ := (dominates_iff h (h.results_lt o v hv)).1 hdominates
  obtain rfl := h.root_unique .refl (inside_of_out hout) (hlocal.parentOp?_eq h hv).symm
  obtain ⟨b, here, hb, hhere, ⟨-, hsublist⟩ | ⟨hne, -⟩⟩ := hlocal.of_mem_results h hv
  · exact (List.nodup_cons.1 (hsublist.nodup (h.ops_nodup b))).1 (by simp)
  · exact hne (Option.some.inj (hhere.symm.trans hb))

/-- What is defined below an operation is known below that operation only. -/
theorem transGen_of_dominates (h : m.Linked) {id inner : OpId} (hinner : m.Inside inner id)
    (hne : inner ≠ id) (hv : v ∈ (m.op inner).results) (hdominates : m.dominates v user = true) :
    Relation.TransGen m.Up user id := by
  obtain ⟨o, hout, hlocal⟩ := (dominates_iff h (h.results_lt inner v hv)).1 hdominates
  rcases Relation.ReflTransGen.cases_head hinner with rfl | ⟨c, hup, hc⟩
  · exact absurd rfl hne
  · have hoc : m.Up o c := (hlocal.parentOp?_eq h hv).trans hup
    exact (Relation.TransGen.tail' (inside_of_out hout) hoc).trans_left hc

end Module

end ContractIR
