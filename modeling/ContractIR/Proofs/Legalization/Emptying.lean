import ContractIR.Proofs.Legalization.Relocating

/-!
# Containers are emptied

When the containers of a body are split, their code is out of them, and so is the code of the
containers directly inside a deployable one.  This holds of every module whose links agree, however
its containers are nested, as long as no container of the body goes by the name of a function for
code.

## Main definitions

* `ContractIR.EraVM.Splittable` — the modules of which this is said.
* `ContractIR.EraVM.Emptied` — the code of a container is out of it.

## Main results

* `ContractIR.EraVM.relocates_of_splitContainers` — splitting containers.
* `ContractIR.EraVM.relocates_of_lowerContainers` — all of it, with declarations and ends of
  functions.
-/

set_option autoImplicit false

namespace ContractIR.EraVM

open ContractIR.Module (Extends)

variable {m n p : Module}

/-! ## Modules that can be split -/

/-- The links agree, the body has a block, and no container of the body goes by the name of a
function for code. -/
structure Splittable (m : Module) : Prop where
  linked : m.Linked
  body : m.hasBody = true
  free : ∀ c, m.StandsIn c Module.body → (m.kind c).isContainer = true →
    ∀ x, m.symName? c = some x → ¬IsRoutine x

/-- Containers stand where they stood. -/
theorem Relocates.parent_of_isContainer (h : Relocates m n) {c : OpId} (hc : c.index < m.ops.size)
    (hkind : (m.kind c).isContainer = true) : (n.op c).parent = (m.op c).parent := by
  rcases h.parents c hc with hsame | ⟨hcode, -⟩
  · exact hsame
  · rw [isCode, hkind] at hcode
    simp at hcode

/-- What may be split may go on to be split. -/
theorem Relocates.splittable (h : Relocates m n) (hm : Splittable m) : Splittable n where
  linked := h.linked
  body := (h.retains.hasBody_eq hm.linked).trans hm.body
  free c hc hkind x hx := by
    obtain ⟨b, hb, hmem⟩ := hc
    have hlt : c.index < m.ops.size := by
      by_contra hnew
      rw [(h.new c (Nat.not_lt.1 hnew) (h.linked.ops_lt hmem)).1] at hkind
      cases hkind
    rw [h.kind_eq hlt] at hkind
    rw [(h.retains.ops c hlt).symName?_eq] at hx
    rw [h.retains.region_body hm.linked] at hb
    refine hm.free c ⟨b, hb, (hm.linked.op_parent c b).1 ?_⟩ hkind x hx
    rw [← h.parent_of_isContainer hlt hkind]
    exact (h.linked.op_parent c b).2 hmem

/-- Only the body gets something new. -/
theorem Relocates.of_grown (hm : Splittable m) (hn : n.Linked)
    (hext : Extends (· = m.bodyBlock) m n)
    (hnew : ∀ o : OpId, m.ops.size ≤ o.index → o.index < n.ops.size →
      (n.kind o).isContainer = false) : Relocates m n := by
  refine .of_extends hm.linked hn hext (fun b hb c hc => ?_) hnew
  rw [hb, hm.linked.owner?_bodyBlock hm.body] at hc
  cases hc

/-- What goes by the name of a function for code has a block for code. -/
theorem sheltered_of_lookupTop? (hm : Splittable m) {name : String} (hname : IsRoutine name)
    {f : OpId} (hf : m.lookupTop? name = some f) {e : BlockId} (he : m.entryBlock? f = some e) :
    Sheltered m e := by
  obtain ⟨hstands, hsymbol, hsym⟩ := Module.standsIn_of_lookupTop? hf
  obtain ⟨-, howner⟩ := Module.owner?_of_entryBlock? hm.linked he
  refine ⟨f, howner, ?_, hsymbol, hstands⟩
  exact Bool.eq_false_iff.2 fun hkind => hm.free f hstands hkind name hsym hname

/-- **The function for the code of a context** is there, and has a block for the code.

**Proof sketch.** The function is found in the body by its name, or it is made there; a new one
is the only new operation and no container. -/
theorem relocates_of_codeFunction (hm : Splittable m) {name : String} {context : CodeContext}
    (hname : IsRoutine name) {e : BlockId} (h : (codeFunction name context).run m = .ok e n) :
    Relocates m n ∧ Sheltered n e := by
  rcases routineMade_of_run hm.linked (hm.linked.bodyBlock_lt hm.body) h with
    ⟨rfl, f, hf, he⟩ | ⟨f, hmade⟩
  · exact ⟨.refl hm.linked, sheltered_of_lookupTop? hm hname hf he⟩
  · have hsplits : Relocates m n := by
      refine .of_grown hm hmade.linked hmade.grown fun o hle hlt => ?_
      obtain rfl : o = f := by
        rw [hmade.size_ops] at hlt
        rw [hmade.id, ← OpId.index_eq_iff]
        exact Nat.le_antisymm (Nat.le_of_lt_succ hlt) hle
      rw [hmade.function.1]
      rfl
    obtain ⟨-, howner⟩ := Module.owner?_of_entryBlock? hmade.linked hmade.entry
    refine ⟨hsplits, f, howner, by rw [hmade.function.1]; rfl, by rw [hmade.function.1]; rfl,
      m.bodyBlock, ?_, ?_⟩
    · rw [hsplits.retains.region_body hm.linked]
      exact Module.bodyBlock_mem hm.body
    · simp [hmade.listed]

/-- The entry function joins the body. -/
theorem relocates_of_buildEntry (hm : Splittable m) {location : Location} {f : OpId}
    (h : (buildEntry location).run m = .ok f n) : Relocates m n := by
  have hbuilt := entryBuilt_of_run hm.linked (hm.linked.bodyBlock_lt hm.body) h
  exact .of_grown hm hbuilt.linked hbuilt.grown fun o hle hlt =>
    isContainer_of_dialect (hbuilt.new o hle hlt)

/-! ## Objects -/

/-- **The code of some containers moves** into a function for code.

**Proof sketch.** Induction on the containers.  The code of the first one moves
(`relocates_of_moveCode`), which clears its block, and the block stays clear while the others are
moved. -/
theorem relocates_of_moveObjects (hm : Splittable m) {target : BlockId}
    (htarget : Sheltered m target) {ids : List OpId}
    (hids : ∀ c ∈ ids, c.index < m.ops.size ∧ (m.kind c).isContainer = true) {a : Unit}
    (h : (moveObjects target ids).run m = .ok a n) :
    Relocates m n ∧ ∀ c ∈ ids, ∀ e, m.entryBlock? c = some e → Cleared n e := by
  induction ids generalizing m with
  | nil =>
    cases h
    exact ⟨.refl hm.linked, by simp⟩
  | cons c ids ih =>
    obtain ⟨hclt, hc⟩ := hids c (by simp)
    obtain ⟨e, p, he, hmove, hrest⟩ := steps_of_moveObjects h
    obtain ⟨-, howner⟩ := Module.owner?_of_entryBlock? hm.linked he
    obtain ⟨hsplits, hcleared⟩ := relocates_of_moveCode hm.linked howner hc htarget hmove
    have hp := hsplits.splittable hm
    have hids' : ∀ d ∈ ids, d.index < p.ops.size ∧ (p.kind d).isContainer = true := by
      intro d hd
      obtain ⟨hdlt, hdkind⟩ := hids d (by simp [hd])
      exact ⟨Nat.lt_of_lt_of_le hdlt hsplits.retains.size_ops, by rw [hsplits.kind_eq hdlt, hdkind]⟩
    obtain ⟨hrest', hcleared'⟩ := ih hp (hsplits.sheltered hm.linked htarget) hids' hrest
    refine ⟨hsplits.trans hrest' hm.linked, fun d hd x hx => ?_⟩
    rcases List.mem_cons.1 hd with rfl | hd
    · obtain rfl : e = x := Option.some.inj (he.symm.trans hx)
      exact hrest'.cleared hsplits.linked
        (by rw [hsplits.retains.owner?_eq hm.linked (hm.linked.lt_of_owner? howner).1, howner])
        (by rw [hsplits.kind_eq hclt, hc]) hcleared
    · exact hcleared' d hd x
        (by rw [hsplits.retains.entryBlock?_eq hm.linked (hids d (by simp [hd])).1, hx])

/-! ## Containers -/

/-- The code of a container of `m` is out of it in `n`, and if it is deployable, so is the code of
the containers that stand directly in it. -/
structure Emptied (m n : Module) (c : OpId) : Prop where
  own : ∀ e, m.entryBlock? c = some e → Cleared n e
  objects : ∀ x, m.symName? c = some x → CodeContext.isRuntimeName x = false →
    ∀ e, m.entryBlock? c = some e → ∀ o ∈ (m.block e).ops, (m.kind o).isContainer = true →
      ∀ e', m.entryBlock? o = some e' → Cleared n e'

namespace Emptied

variable {c : OpId}

/-- What was emptied stays so. -/
theorem trans (h : Emptied m n c) (hm : m.Linked) (hc : (m.kind c).isContainer = true)
    (hmn : Relocates m n) (hnp : Relocates n p) : Emptied m p c := by
  have hkeep : ∀ d, (m.kind d).isContainer = true → ∀ e, m.entryBlock? d = some e →
      Cleared n e → Cleared p e := by
    intro d hd e he hcleared
    obtain ⟨helt, howner⟩ := Module.owner?_of_entryBlock? hm he
    have hdlt := (hm.lt_of_owner? howner).2
    exact hnp.cleared hmn.linked (by rw [hmn.retains.owner?_eq hm helt, howner])
      (by rw [hmn.kind_eq hdlt, hd]) hcleared
  exact ⟨fun e he => hkeep c hc e he (h.own e he), fun x hx hruntime e he o ho hkind e' he' =>
    hkeep o hkind e' he' (h.objects x hx hruntime e he o ho hkind e' he')⟩

/-- What was emptied later on had to be emptied before. -/
theorem of_relocates (h : Emptied n p c) (hm : m.Linked) (hc : c.index < m.ops.size)
    (hmn : Relocates m n) : Emptied m p c := by
  have hentry : ∀ d : OpId, d.index < m.ops.size → n.entryBlock? d = m.entryBlock? d :=
    fun d hd => hmn.retains.entryBlock?_eq hm hd
  refine ⟨fun e he => h.own e (by rw [hentry c hc, he]), ?_⟩
  intro x hx hruntime e he o ho hkind e' he'
  have holt := hm.ops_lt ho
  refine h.objects x (by rw [(hmn.retains.ops c hc).symName?_eq, hx]) hruntime e
    (by rw [hentry c hc, he]) o ((hmn.linked.op_parent o e).1 ?_) (by rw [hmn.kind_eq holt, hkind])
    e' (by rw [hentry o holt, he'])
  rw [hmn.parent_of_isContainer holt hkind]
  exact (hm.op_parent o e).2 ho

end Emptied

section Containers

variable {c : OpId} {e : BlockId} {location : Location} {a : Unit}

/-- A container with runtime code only is split. -/
theorem relocates_of_splitRuntime (hm : Splittable m) (hc : (m.kind c).isContainer = true)
    (he : m.entryBlock? c = some e) (h : (splitRuntime e location).run m = .ok a n) :
    Relocates m n ∧ Cleared n e := by
  obtain ⟨helt, howner⟩ := Module.owner?_of_entryBlock? hm.linked he
  obtain ⟨target, p, hfunction, hmove⟩ := Outcome.run_bind_eq_ok.1 h
  obtain ⟨hmp, htarget⟩ := relocates_of_codeFunction hm (.inr rfl) hfunction
  obtain ⟨hpn, hcleared⟩ := relocates_of_moveCode hmp.linked
    (by rw [hmp.retains.owner?_eq hm.linked helt, howner])
    (by rw [hmp.kind_eq (hm.linked.lt_of_owner? howner).2, hc]) htarget hmove
  exact ⟨hmp.trans hpn hm.linked, hcleared⟩

/-- **A deployable container is split.**  The code of the containers in it moves, too.

**Proof sketch.** Step by step, composed by `trans`: the entry function is built, code moves to
the function for deploy code, then that of the runtime objects.  Blocks that were cleared stay so
in the later steps (`Relocates.cleared`). -/
theorem relocates_of_splitDeployable (hm : Splittable m) (hc : (m.kind c).isContainer = true)
    (he : m.entryBlock? c = some e) {name : String}
    (h : (splitDeployable name e location).run m = .ok a n) :
    Relocates m n ∧ Cleared n e ∧ ∀ o ∈ (m.block e).ops, (m.kind o).isContainer = true →
      ∀ e', m.entryBlock? o = some e' → Cleared n e' := by
  obtain ⟨helt, howner⟩ := Module.owner?_of_entryBlock? hm.linked he
  have hclt := (hm.linked.lt_of_owner? howner).2
  obtain ⟨-, objects, f, p₁, deploy, p₂, p₃, runtime, p₄, hobjects, hentry, hdeploy, hmove,
    hruntime, hrest⟩ := steps_of_splitDeployable h
  obtain ⟨-, rfl, -⟩ := run_runtimeObjects_eq_ok hobjects
  have h₁ := relocates_of_buildEntry hm hentry
  obtain ⟨h₁₂, htarget⟩ :=
    relocates_of_codeFunction (h₁.splittable hm) (.inl rfl) hdeploy
  have h₂ := h₁.trans h₁₂ hm.linked
  obtain ⟨h₂₃, hcleared⟩ := relocates_of_moveCode h₂.linked
    (by rw [h₂.retains.owner?_eq hm.linked helt, howner]) (by rw [h₂.kind_eq hclt, hc]) htarget
    hmove
  have h₃ := h₂.trans h₂₃ hm.linked
  obtain ⟨h₃₄, htarget⟩ :=
    relocates_of_codeFunction (h₃.splittable hm) (.inr rfl) hruntime
  have h₄ := h₃.trans h₃₄ hm.linked
  obtain ⟨h₄ₙ, hclearedObjects⟩ := relocates_of_moveObjects (h₄.splittable hm) htarget
    (fun o ho => by
      obtain ⟨hmem, hkind⟩ := List.mem_filter.1 ho
      have holt := hm.linked.ops_lt hmem
      exact ⟨Nat.lt_of_lt_of_le holt h₄.retains.size_ops, by rw [h₄.kind_eq holt, hkind]⟩) hrest
  refine ⟨h₄.trans h₄ₙ hm.linked, ?_, fun o ho hkind e' he' => ?_⟩
  · exact (h₃₄.trans h₄ₙ h₃.linked).cleared h₃.linked
      (by rw [h₃.retains.owner?_eq hm.linked helt, howner]) (by rw [h₃.kind_eq hclt, hc]) hcleared
  · exact hclearedObjects o (List.mem_filter.2 ⟨ho, hkind⟩) e'
      (by rw [h₄.retains.entryBlock?_eq hm.linked (hm.linked.ops_lt ho), he'])

/-- **Containers are split**, and their code is out of them.

**Proof sketch.** Induction along the containers.  What one of them became stays when the next ones
are split, since code moves out of containers only. -/
theorem relocates_of_splitContainers (hm : Splittable m) {ids : List OpId}
    (hids : ∀ c ∈ ids, c.index < m.ops.size ∧ (m.kind c).isContainer = true)
    (h : (splitContainers ids).run m = .ok a n) : Relocates m n ∧ ∀ c ∈ ids, Emptied m n c := by
  induction ids generalizing m with
  | nil =>
    cases h
    exact ⟨.refl hm.linked, by simp⟩
  | cons c ids ih =>
    obtain ⟨hclt, hc⟩ := hids c (by simp)
    obtain ⟨name, e, p, hname, he, hsplit, hrest⟩ := steps_of_splitContainers h
    have hstep : Relocates m p ∧ Emptied m p c := by
      rcases hsplit with ⟨hruntime, hsplit⟩ | ⟨-, hsplit⟩
      · obtain ⟨hmp, hcleared⟩ := relocates_of_splitRuntime hm hc he hsplit
        refine ⟨hmp, fun x hx => ?_, fun x hx hdeployable => ?_⟩
        · obtain rfl : e = x := Option.some.inj (he.symm.trans hx)
          exact hcleared
        · obtain rfl : name = x := Option.some.inj (hname.symm.trans hx)
          rw [hruntime] at hdeployable
          cases hdeployable
      · obtain ⟨hmp, hcleared, hobjects⟩ := relocates_of_splitDeployable hm hc he hsplit
        refine ⟨hmp, fun x hx => ?_, fun x _ _ e' he' => ?_⟩
        · obtain rfl : e = x := Option.some.inj (he.symm.trans hx)
          exact hcleared
        · obtain rfl : e = e' := Option.some.inj (he.symm.trans he')
          exact hobjects
    obtain ⟨hmp, hemptied⟩ := hstep
    obtain ⟨hpn, hothers⟩ := ih (hmp.splittable hm) (fun d hd => by
      obtain ⟨hdlt, hdkind⟩ := hids d (by simp [hd])
      exact ⟨Nat.lt_of_lt_of_le hdlt hmp.retains.size_ops, by rw [hmp.kind_eq hdlt, hdkind]⟩) hrest
    refine ⟨hmp.trans hpn hm.linked, fun d hd => ?_⟩
    rcases List.mem_cons.1 hd with rfl | hd
    · exact hemptied.trans hm.linked hc hmp hpn
    · exact (hothers d hd).of_relocates hm.linked (hids d (by simp [hd])).1 hmp

end Containers

/-! ## The whole split -/

/-- What goes by the name of a function for code is ended. -/
theorem relocates_of_terminateNamed (hm : Splittable m) {name : String} (hname : IsRoutine name)
    {a : Unit} (h : (terminateNamed name).run m = .ok a n) : Relocates m n := by
  rcases steps_of_terminateNamed h with rfl | ⟨f, hf, h⟩
  · exact .refl hm.linked
  · rcases terminated_of_run hm.linked h with rfl | ⟨e, he, hterminated⟩
    · exact .refl hm.linked
    · obtain ⟨f', hf', hkind, -⟩ := sheltered_of_lookupTop? hm hname hf he
      refine .of_extends hm.linked hterminated.linked hterminated.grown (fun b hb c hc => ?_)
        fun o hle hlt => ?_
      · obtain rfl : f' = c := Option.some.inj (hf'.symm.trans (hb ▸ hc))
        exact hkind
      · have hsymbol := hterminated.new o hle hlt
        revert hsymbol
        generalize n.kind o = k
        rcases k with k | k | k | k | k <;> cases k <;>
          simp [OpKind.isSymbol, OpKind.isContainer, OpKind.isFunction]

/-- Declaring symbols moves nothing. -/
theorem SymbolsDeclared.relocates {globals : List Global} {code rest : List OpId}
    (h : SymbolsDeclared m n globals code rest) (hm : Splittable m) : Relocates m n := by
  refine .of_grown hm h.linked h.grown fun o hle hlt => ?_
  rcases List.mem_append.1 ((h.new o).2 ⟨hle, hlt⟩) with ho | ho
  · obtain ⟨g, -, hg⟩ := Outcome.exists_right h.globals ho
    rw [hg.1]
    rfl
  · rcases h.rest with rfl | ⟨o', rfl, hreturn⟩
    · cases ho
    · obtain rfl := List.mem_singleton.1 ho
      rw [hreturn.1]
      rfl

/-- The containers of the body exist, and are containers. -/
theorem mem_topContainers {c : OpId} :
    c ∈ topContainers m ↔ c ∈ (m.block m.bodyBlock).ops ∧ (m.kind c).isContainer = true :=
  List.mem_filter

/-- **Splitting moves code of containers only**, and it moves the code of all containers of the body
out of them.

**Proof sketch.** The steps composed: declaring, splitting, which empties the containers, and
ending the two functions; the last one adds no code to a container. -/
theorem relocates_of_lowerContainers (hm : Splittable m) {a : Unit}
    (h : lowerContainers.run m = .ok a n) :
    Relocates m n ∧ ∀ c ∈ topContainers m, Emptied m n c := by
  rcases (steps_of_lowerContainers h).2 with
    ⟨hnone, rfl⟩ | ⟨q, p₁, p₂, hdeclare, hsplit, hdeploy, hruntime⟩
  · exact ⟨.refl hm.linked, by simp [hnone]⟩
  · obtain ⟨globals, code, rest, hdeclared⟩ :=
      symbolsDeclared_of_run hm.linked (hm.linked.bodyBlock_lt hm.body) hdeclare
    have hmq := hdeclared.relocates hm
    have hq := hmq.splittable hm
    have hids : ∀ c ∈ topContainers m, c.index < m.ops.size ∧ (m.kind c).isContainer = true :=
      fun c hc => ⟨hm.linked.ops_lt (mem_topContainers.1 hc).1, (mem_topContainers.1 hc).2⟩
    obtain ⟨hqp₁, hemptied⟩ := relocates_of_splitContainers hq (fun c hc => by
      obtain ⟨hclt, hkind⟩ := hids c hc
      exact ⟨Nat.lt_of_lt_of_le hclt hmq.retains.size_ops, by rw [hmq.kind_eq hclt, hkind]⟩) hsplit
    have hp₁ := hqp₁.splittable hq
    have hp₁₂ := relocates_of_terminateNamed hp₁ (.inl rfl) hdeploy
    have hp₂ₙ := relocates_of_terminateNamed (hp₁₂.splittable hp₁) (.inr rfl) hruntime
    have hp₁ₙ := hp₁₂.trans hp₂ₙ hp₁.linked
    refine ⟨hmq.trans (hqp₁.trans hp₁ₙ hq.linked) hm.linked, fun c hc => ?_⟩
    obtain ⟨hclt, hkind⟩ := hids c hc
    have hafter := (hemptied c hc).trans hq.linked (by rw [hmq.kind_eq hclt, hkind]) hqp₁ hp₁ₙ
    exact hafter.of_relocates hm.linked hclt hmq

end ContractIR.EraVM
