import ContractIR.Proofs.Legalization.Emptying
import ContractIR.Proofs.Legalization.Lifting

/-!
# The function that code goes to

Splitting takes the code out of a container of the body, and out of the containers that stand
directly in a deployable one, and puts it into the function for the code of the container's context.
This holds of every module whose links agree.  A container of the body may go by the name of such a
function; then code goes into the container, and may be taken out of it again.

## Main definitions

* `ContractIR.EraVM.HoldsCode` — a block for the code of a context.
* `ContractIR.EraVM.Reached` — the containers whose code is taken out.
* `ContractIR.EraVM.Assigns` — code went to functions, and symbols joined the body.

## Main results

* `ContractIR.EraVM.assigns_of_lowerContainers` — where splitting takes code.
* `ContractIR.EraVM.Assigns.isAttached_iff` — the tree keeps what it had.
-/

set_option autoImplicit false

namespace ContractIR.EraVM

open ContractIR.Module (Extends Retains)

variable {m n p : Module} {o c f : OpId} {b e : BlockId} {context : CodeContext}

/-! ## Functions for code -/

/-- The name of the function for the code of a context. -/
def routineName : CodeContext → String
  | .deploy => deployName
  | .runtime => runtimeName

/-- The function for the code of a context goes by one of the two names. -/
theorem isRoutine_routineName (context : CodeContext) : IsRoutine (routineName context) := by
  cases context
  · exact .inl rfl
  · exact .inr rfl

/-- A block is where a symbol of the body is entered that goes by the name of the function for the
code of a context. -/
structure HoldsCode (m : Module) (context : CodeContext) (f : OpId) (b : BlockId) : Prop where
  stands : m.StandsIn f Module.body
  symbol : (m.kind f).isSymbol = true
  name : m.symName? f = some (routineName context)
  entry : m.entryBlock? f = some b

/-- The block belongs to the symbol. -/
theorem HoldsCode.owner?_eq (h : HoldsCode m context f b) (hm : m.Linked) : m.owner? b = some f :=
  (Module.owner?_of_entryBlock? hm h.entry).2

/-- A symbol is no return from contract code. -/
theorem kind_ne_of_isSymbol (h : (m.kind o).isSymbol = true) : m.kind o ≠ .sol .ret := by
  intro hkind
  rw [hkind] at h
  cases h

/-! ## Containers -/

/-- The containers whose code is taken out: those of the body, and those that stand directly in a
deployable one of the body. -/
def Reached (m : Module) (c : OpId) : Prop :=
  c ∈ topContainers m ∨ (m.kind c).isContainer = true ∧ ∃ d ∈ topContainers m, m.Up c d ∧
    ∃ x, m.symName? d = some x ∧ CodeContext.isRuntimeName x = false

/-- What is reached is a container. -/
theorem Reached.isContainer (h : Reached m c) : (m.kind c).isContainer = true := by
  rcases h with htop | ⟨hc, -⟩
  · exact (mem_topContainers.1 htop).2
  · exact hc

/-- Containers of the body stand in the body. -/
theorem standsIn_of_mem_topContainers (hbody : m.hasBody = true) (h : c ∈ topContainers m) :
    m.StandsIn c Module.body :=
  ⟨m.bodyBlock, Module.bodyBlock_mem hbody, (mem_topContainers.1 h).1⟩

/-- What is reached is part of the tree. -/
theorem Reached.isAttached (h : Reached m c) (hm : m.Linked) (hbody : m.hasBody = true) :
    m.isAttached c = true := by
  rcases h with htop | ⟨-, d, hd, hup, -⟩
  · exact hm.isAttached_iff.2 ⟨c, standsIn_of_mem_topContainers hbody htop, .refl⟩
  · exact hm.isAttached_iff.2 ⟨d, standsIn_of_mem_topContainers hbody hd, .single hup⟩

/-- No container of the body goes by the name of a function for code. -/
def Unclaimed (m : Module) : Prop :=
  ∀ c, m.StandsIn c Module.body → (m.kind c).isContainer = true →
    ∀ x, m.symName? c = some x → ¬IsRoutine x

/-! ## Where code goes -/

/-- An operation was code of a container, and stands in a block for code.  If no container goes by
the name of a function for code, the block is that of the container's context. -/
def Assigned (m n : Module) (o : OpId) : Prop :=
  isCode m o = true ∧ ∃ c x context f b, m.Up o c ∧ Reached m c ∧ m.symName? c = some x ∧
    (n.op o).parent = some b ∧ HoldsCode n context f b ∧
    (Unclaimed m → context = CodeContext.ofContainer x)

/-- Operations stand where they stood, but for code that went to functions, and what is in a block
outside of the containers stays there in order.  Nothing got into a return from contract code.  What
is new is no container, and goes by the name of a function for code in the body only if it is this
function. -/
structure Assigns (m n : Module) : Prop where
  linked : n.Linked
  retains : Retains (fun _ => False) m n
  parents : ∀ o : OpId, o.index < m.ops.size → (n.op o).parent = (m.op o).parent ∨ Assigned m n o
  returns : ∀ o r, n.Up o r → n.kind r = .sol .ret → m.Up o r
  containers : ∀ o : OpId, m.ops.size ≤ o.index → o.index < n.ops.size →
    (n.kind o).isContainer = false
  routines : ∀ o : OpId, m.ops.size ≤ o.index → o.index < n.ops.size →
    n.StandsIn o Module.body → (n.kind o).isSymbol = true → ∀ context,
      n.symName? o = some (routineName context) →
        IsRoutineFunction n (routineName context) context o
  ordered : ∀ b c, m.owner? b = some c → (m.kind c).isContainer = false →
    (m.block b).ops.Sublist (n.block b).ops

namespace Assigns

/-- Nothing moves. -/
theorem refl (hm : m.Linked) : Assigns m m where
  linked := hm
  retains := .refl _ _
  parents _ _ := .inl rfl
  returns _ _ hup _ := hup
  containers _ hle hlt := absurd hlt (Nat.not_lt.2 hle)
  routines _ hle hlt := absurd hlt (Nat.not_lt.2 hle)
  ordered _ _ _ _ := .refl _

/-- Assigning code to functions moves nothing but code of containers. -/
theorem shifts (h : Assigns m n) : Shifts m n where
  linked := h.linked
  retains := h.retains
  parents o ho := (h.parents o ho).imp_right fun ⟨hcode, c, _, _, _, _, hup, hreached, _⟩ =>
    ⟨hcode, c, hup, hreached.isContainer⟩

/-- Assigning code keeps the kinds of operations. -/
theorem kind_eq (h : Assigns m n) (ho : o.index < m.ops.size) : n.kind o = m.kind o :=
  h.shifts.kind_eq ho

/-- A container is not new. -/
theorem lt_of_isContainer (h : Assigns m n) (hlt : o.index < n.ops.size)
    (hc : (n.kind o).isContainer = true) : o.index < m.ops.size := by
  by_contra hnew
  rw [h.containers o (Nat.not_lt.1 hnew) hlt] at hc
  cases hc

/-- Containers stand where they stood. -/
theorem parent_of_isContainer (h : Assigns m n) (ho : o.index < m.ops.size)
    (hc : (m.kind o).isContainer = true) : (n.op o).parent = (m.op o).parent :=
  h.shifts.parent_eq ho (by simp [isCode, hc])

/-- Assigning code keeps the body. -/
theorem hasBody (h : Assigns m n) (hm : m.Linked) (hbody : m.hasBody = true) :
    n.hasBody = true := (h.retains.hasBody_eq hm).trans hbody

/-- What stands in the body stood there, if it is not new. -/
theorem standsIn_of_standsIn (h : Assigns m n) (hm : m.Linked) (ho : o.index < m.ops.size)
    (hstands : n.StandsIn o Module.body) : m.StandsIn o Module.body := by
  obtain ⟨b, hb, hmem⟩ := hstands
  have hparent := (h.linked.op_parent o b).2 hmem
  rcases h.parents o ho with hsame | ⟨-, _, _, _, f, b', -, -, -, hb', hholds, -⟩
  · refine ⟨b, by rw [← h.retains.region_body hm]; exact hb, (hm.op_parent o b).1 ?_⟩
    rw [← hsame]
    exact hparent
  · obtain rfl := Option.some.inj (hparent.symm.trans hb')
    have howner := hholds.owner?_eq h.linked
    rw [h.linked.owner?_of_mem_body hb] at howner
    cases howner

/-- The containers of the body are those that it had. -/
theorem mem_topContainers_iff (h : Assigns m n) (hm : m.Linked) :
    c ∈ topContainers n ↔ c ∈ topContainers m := by
  rw [mem_topContainers, mem_topContainers, h.retains.bodyBlock_eq hm, ← h.linked.op_parent,
    ← hm.op_parent]
  constructor
  · rintro ⟨hparent, hc⟩
    have hlt := h.lt_of_isContainer (Module.op_lt_of_parent hparent) hc
    rw [h.kind_eq hlt] at hc
    rw [h.parent_of_isContainer hlt hc] at hparent
    exact ⟨hparent, hc⟩
  · rintro ⟨hparent, hc⟩
    have hlt := Module.op_lt_of_parent hparent
    exact ⟨by rw [h.parent_of_isContainer hlt hc, hparent], by rw [h.kind_eq hlt, hc]⟩

/-- The containers whose code is taken out are the same. -/
theorem reached_iff (h : Assigns m n) (hm : m.Linked) (hc : c.index < m.ops.size) :
    Reached n c ↔ Reached m c := by
  refine or_congr (h.mem_topContainers_iff hm) ?_
  rw [h.kind_eq hc]
  refine and_congr_right fun hkind => exists_congr fun d => ?_
  rw [h.mem_topContainers_iff hm]
  refine and_congr_right fun hd => ?_
  rw [h.shifts.up_iff hm (h.parent_of_isContainer hc hkind),
    (h.retains.ops d (hm.ops_lt (mem_topContainers.1 hd).1)).symName?_eq]

/-- Blocks for code stay so. -/
theorem holdsCode (h : Assigns m n) (hm : m.Linked) (hf : HoldsCode m context f b) :
    HoldsCode n context f b := by
  have hlt := (hm.lt_of_owner? (hf.owner?_eq hm)).2
  exact ⟨h.shifts.standsIn_body hm hf.stands, by rw [h.kind_eq hlt, hf.symbol],
    by rw [(h.retains.ops f hlt).symName?_eq, hf.name],
    by rw [h.retains.entryBlock?_eq hm hlt, hf.entry]⟩

/-- No container goes by the name of a function for code, if none did. -/
theorem unclaimed (h : Assigns m n) (hm : m.Linked) (hfree : Unclaimed m) : Unclaimed n := by
  intro c hc hkind x hx
  have hlt : c.index < m.ops.size := by
    obtain ⟨b, -, hmem⟩ := hc
    exact h.lt_of_isContainer (h.linked.ops_lt hmem) hkind
  rw [h.kind_eq hlt] at hkind
  rw [(h.retains.ops c hlt).symName?_eq] at hx
  exact hfree c (h.standsIn_of_standsIn hm hlt hc) hkind x hx

/-- **Some code goes to functions, and then some more.**

**Proof sketch.** Code that went to a function is taken out again only if the function is a
container, and then one that goes by the name of a function for code. -/
theorem trans (h : Assigns m n) (k : Assigns n p) (hm : m.Linked) : Assigns m p where
  linked := k.linked
  retains := h.retains.trans k.retains
  parents o ho := by
    have hon := Nat.lt_of_lt_of_le ho h.retains.size_ops
    rcases k.parents o hon with hsame | ⟨hcode, c, x, context, f, b, hup, hreached, hx, hb, hf, hcx⟩
    · rcases h.parents o ho with hold | ⟨hcode, c, x, context, f, b, hup, hreached, hx, hb, hf, hcx⟩
      · exact .inl (hsame.trans hold)
      · exact .inr ⟨hcode, c, x, context, f, b, hup, hreached, hx, hsame.trans hb,
          k.holdsCode h.linked hf, hcx⟩
    · have hclt : c.index < m.ops.size := by
        obtain ⟨b', -, howner⟩ := Module.up_iff_owner?.1 hup
        exact h.lt_of_isContainer (h.linked.lt_of_owner? howner).2 hreached.isContainer
      rcases h.parents o ho with
        hold | ⟨hcode', c', x', _, f', b', hup', hreached', hx', hb', hf', -⟩
      · refine .inr ⟨by rw [← h.shifts.isCode_eq ho, hcode], c, x, context, f, b,
          (h.shifts.up_iff hm hold).1 hup, (h.reached_iff hm hclt).1 hreached, ?_, hb, hf,
          fun hfree => hcx (h.unclaimed hm hfree)⟩
        rw [← (h.retains.ops c hclt).symName?_eq, hx]
      · refine .inr ⟨hcode', c', x', context, f, b, hup', hreached', hx', hb, hf, fun hfree => ?_⟩
        -- The container is the one that the code went to.
        obtain ⟨b'', hb'', howner⟩ := Module.up_iff_owner?.1 hup
        obtain rfl := Option.some.inj (hb'.symm.trans hb'')
        obtain rfl := Option.some.inj ((hf'.owner?_eq h.linked).symm.trans howner)
        exact absurd (isRoutine_routineName _) (h.unclaimed hm hfree _ hf'.stands
          hreached.isContainer _ hf'.name)
  returns o r hup hkind := by
    have hup' := k.returns o r hup hkind
    obtain ⟨b, -, howner⟩ := Module.up_iff_owner?.1 hup'
    rw [k.kind_eq (h.linked.lt_of_owner? howner).2] at hkind
    exact h.returns o r hup' hkind
  containers o hle hlt := by
    by_cases hon : o.index < n.ops.size
    · rw [k.kind_eq hon]
      exact h.containers o hle hon
    · exact k.containers o (Nat.not_lt.1 hon) hlt
  routines o hle hlt hstands hsymbol context hname := by
    by_cases hon : o.index < n.ops.size
    · rw [k.kind_eq hon] at hsymbol
      rw [(k.retains.ops o hon).symName?_eq] at hname
      exact (h.routines o hle hon (k.standsIn_of_standsIn h.linked hon hstands) hsymbol context
        hname).congr (k.retains.ops o hon)
    · exact k.routines o (Nat.not_lt.1 hon) hlt hstands hsymbol context hname
  ordered b c hb hc := by
    obtain ⟨hblt, hclt⟩ := hm.lt_of_owner? hb
    exact (h.ordered b c hb hc).trans
      (k.ordered b c (by rw [h.retains.owner?_eq hm hblt, hb]) (by rw [h.kind_eq hclt, hc]))

/-- A module that grows in symbols or in the body, but not by containers.

**Proof sketch.** Old operations stay where they stood.  A new operation under a return is
excluded: it stands in an old block only if that belongs to a symbol, and a new return has no old
block, or is not there by `hreturns`. -/
theorem of_extends {B : BlockId → Prop} (hm : m.Linked) (hn : n.Linked) (hext : Extends B m n)
    (hB : ∀ b, B b → ∀ f, m.owner? b = some f → (m.kind f).isSymbol = true)
    (hcontainers : ∀ o : OpId, m.ops.size ≤ o.index → o.index < n.ops.size →
      (n.kind o).isContainer = false)
    (hreturns : n.blocks.size = m.blocks.size ∨
      ∀ o : OpId, m.ops.size ≤ o.index → o.index < n.ops.size → n.kind o ≠ .sol .ret)
    (hroutines : ∀ o : OpId, m.ops.size ≤ o.index → o.index < n.ops.size →
      n.StandsIn o Module.body → (n.kind o).isSymbol = true → ∀ context,
        n.symName? o = some (routineName context) →
          IsRoutineFunction n (routineName context) context o) : Assigns m n where
  linked := hn
  retains := .of_extends hext fun _ hb => hb.elim
  parents o ho := .inl (by rw [hext.ops o ho])
  returns o r hup hkind := by
    obtain ⟨b, hb, howner⟩ := Module.up_iff_owner?.1 hup
    obtain ⟨hblt, hrlt⟩ := hn.lt_of_owner? howner
    by_cases hnew : m.ops.size ≤ r.index
    · -- A new operation has new blocks only.
      rcases hreturns with hsize | hreturns
      · have hregion := hext.new_regions r hnew _ ((hn.region_parent _ r).1 howner)
        have hmem := (hn.block_parent b _ hblt).1 rfl
        exact absurd (hext.new_blocks _ hregion b hmem) (Nat.not_le.2 (hsize ▸ hblt))
      · exact absurd hkind (hreturns r hnew hrlt)
    · have hold := Nat.not_le.1 hnew
      have howner' := hext.owner?_of_owner? hm hn howner hold
      rw [Module.kind, hext.ops r hold] at hkind
      by_cases ho : o.index < m.ops.size
      · rw [hext.ops o ho] at hb
        exact Module.up_iff_owner?.2 ⟨b, hb, howner'⟩
      · have hbB := (hext.new_parents o (Nat.not_lt.1 ho) b hb).resolve_right
          (Nat.not_le.2 (hm.lt_of_owner? howner').1)
        exact absurd hkind (kind_ne_of_isSymbol (hB b hbB r howner'))
  containers := hcontainers
  routines := hroutines
  ordered b _ hb _ := (hext.grown b (hm.lt_of_owner? hb).1).2.2

/-- A module that grows in the body. -/
theorem of_grown (hm : m.Linked) (hbody : m.hasBody = true) (hn : n.Linked)
    (hext : Extends (· = m.bodyBlock) m n)
    (hplain : ∀ o : OpId, m.ops.size ≤ o.index → o.index < n.ops.size →
      (n.kind o).dialect = .llvm)
    (hroutines : ∀ o : OpId, m.ops.size ≤ o.index → o ∈ (n.block m.bodyBlock).ops →
      ∀ context, n.symName? o = some (routineName context) →
        IsRoutineFunction n (routineName context) context o) : Assigns m n := by
  refine .of_extends hm hn hext (fun b hb f hf => ?_)
    (fun o hle hlt => isContainer_of_dialect (hplain o hle hlt)) (.inr fun o hle hlt hkind => ?_)
    fun o hle hlt hstands _ => ?_
  · rw [hb, hm.owner?_bodyBlock hbody] at hf
    cases hf
  · have hdialect := hplain o hle hlt
    rw [hkind] at hdialect
    cases hdialect
  · obtain ⟨b, hb, hmem⟩ := hstands
    rw [hext.regions _ hm.body_lt] at hb
    have hplace := hext.new_parents o hle b ((hn.op_parent o b).2 hmem)
    have hbody : b = m.bodyBlock :=
      hplace.resolve_right (Nat.not_le.2 (hm.blocks_lt _ b hb))
    exact hroutines o hle (hbody ▸ hmem)

/-- **The tree keeps what it had**, and nothing else of it comes into the tree.

**Proof sketch.** Induction along the way up, in either module.  Code that moved belonged to the
tree, since its container did, and belongs to it now, since the function does. -/
theorem isAttached_iff (h : Assigns m n) (hm : m.Linked) (hbody : m.hasBody = true)
    (ho : o.index < m.ops.size) : n.isAttached o = true ↔ m.isAttached o = true := by
  constructor
  · intro hattached
    induction o using h.linked.acyclic.induction with
    | _ o ih =>
      obtain ⟨b, hb, hblock⟩ := h.linked.exists_blockAttached hattached
      rcases h.parents o ho with hsame | ⟨-, c, _, _, _, _, hup, hreached, -⟩
      · have hparent := hsame.symm.trans hb
        refine hm.isAttached_of_parent hparent ?_
        rcases hblock with hblock | ⟨f, hf, hfattached⟩
        · exact .inl (by rw [← h.retains.region_body hm]; exact hblock)
        · have hf' := hf
          rw [h.retains.owner?_eq hm (hm.block_lt hparent)] at hf'
          exact .inr ⟨f, hf', ih f (Module.up_iff_owner?.2 ⟨b, hb, hf⟩) (hm.lt_of_owner? hf').2
            hfattached⟩
      · obtain ⟨e, he, hc⟩ := Module.up_iff_owner?.1 hup
        exact hm.isAttached_of_parent he (.inr ⟨c, hc, hreached.isAttached hm hbody⟩)
  · intro hattached
    induction o using hm.acyclic.induction with
    | _ o ih =>
      obtain ⟨b, hb, hblock⟩ := hm.exists_blockAttached hattached
      rcases h.parents o ho with hsame | ⟨-, _, _, _, f, b', -, -, -, hb', hf, -⟩
      · refine h.linked.isAttached_of_parent (hsame.trans hb) ?_
        rcases hblock with hblock | ⟨f, hf, hfattached⟩
        · exact .inl (by rw [h.retains.region_body hm]; exact hblock)
        · exact .inr ⟨f, by rw [h.retains.owner?_eq hm (hm.block_lt hb), hf],
            ih f (Module.up_iff_owner?.2 ⟨b, hb, hf⟩) (hm.lt_of_owner? hf).2 hfattached⟩
      · exact h.linked.isAttached_of_parent hb' (.inr ⟨f, hf.owner?_eq h.linked,
          h.linked.isAttached_iff.2 ⟨f, hf.stands, .refl⟩⟩)

end Assigns

/-! ## The steps of splitting -/

section Steps

variable {location : Location} {a : Unit}

/-- **The code of a container goes** to the function of its context.

**Proof sketch.** `movesCode_of_run` says which operations move: the code listed in the
container's block.  They are assigned to the function of the context, and all others keep their
places. -/
theorem assigns_of_moveCode (hm : m.Linked) (hc : Reached m c) {x : String}
    (hx : m.symName? c = some x) (he : m.entryBlock? c = some e)
    (hf : HoldsCode m (CodeContext.ofContainer x) f b)
    (h : (moveCode e b location).run m = .ok a n) : Assigns m n := by
  obtain ⟨-, hsource⟩ := Module.owner?_of_entryBlock? hm he
  have htarget := hf.owner?_eq hm
  have hmoves := movesCode_of_run hm hsource htarget hf.stands h
  have hflt := (hm.lt_of_owner? htarget).2
  have hf' : HoldsCode n (CodeContext.ofContainer x) f b :=
    ⟨hmoves.standsIn_body hm hsource hf.stands, by rw [hmoves.kind_eq, hf.symbol],
      by rw [(hmoves.retains.ops f hflt).symName?_eq, hf.name],
      by rw [hmoves.retains.entryBlock?_eq hm hflt, hf.entry]⟩
  have hparents : ∀ o : OpId, (n.op o).parent = (m.op o).parent ∨ Assigned m n o := by
    intro o
    by_cases ho : (m.op o).parent = some e ∧ isCode m o = true
    · have hmem := List.mem_filter.2 ⟨(hm.op_parent o e).1 ho.1, ho.2⟩
      exact .inr ⟨ho.2, c, x, _, f, b, Module.up_iff_owner?.2 ⟨e, ho.1, hsource⟩, hc, hx,
        by rw [hmoves.op, if_pos hmem], hf', fun _ => rfl⟩
    · refine .inl (congrArg Op.parent (hmoves.op_eq (fun hparent => ?_) hm))
      exact Bool.eq_false_iff.2 fun hcode => ho ⟨hparent, hcode⟩
  refine ⟨hmoves.linked, hmoves.retains, fun o _ => hparents o, fun o r hup hkind => ?_,
    fun o hle hlt => ?_, fun o hle hlt => ?_, fun y d hy hd => hmoves.ordered y ?_⟩
  · obtain ⟨y, hy, howner⟩ := Module.up_iff_owner?.1 hup
    rcases hparents o with hsame | ⟨-, _, _, _, f', y', -, -, -, hy', hf', -⟩
    · rw [hsame] at hy
      rw [hmoves.retains.owner?_eq hm (hm.block_lt hy)] at howner
      exact Module.up_iff_owner?.2 ⟨y, hy, howner⟩
    · obtain rfl := Option.some.inj (hy.symm.trans hy')
      obtain rfl := Option.some.inj ((hf'.owner?_eq hmoves.linked).symm.trans howner)
      exact absurd hkind (kind_ne_of_isSymbol hf'.symbol)
  · exact absurd hlt (Nat.not_lt.2 (hmoves.size_ops ▸ hle))
  · exact absurd hlt (Nat.not_lt.2 (hmoves.size_ops ▸ hle))
  · rintro rfl
    obtain rfl := Option.some.inj (hsource.symm.trans hy)
    rw [hc.isContainer] at hd
    cases hd

/-- **The function for the code of a context** is there, and has a block for the code.

**Proof sketch.** The function is found by its name or made.  A new one is the only new
operation, has the right name and form, and moves nothing (`of_grown`). -/
theorem assigns_of_codeFunction (hm : m.Linked) (hbody : m.hasBody = true) (context : CodeContext)
    (h : (codeFunction (routineName context) context).run m = .ok e n) :
    Assigns m n ∧ ∃ f, HoldsCode n context f e := by
  rcases routineMade_of_run hm (hm.bodyBlock_lt hbody) h with ⟨rfl, f, hf, he⟩ | ⟨f, hmade⟩
  · obtain ⟨hstands, hsymbol, hname⟩ := Module.standsIn_of_lookupTop? hf
    exact ⟨.refl hm, f, hstands, hsymbol, hname, he⟩
  · have hnew : ∀ o : OpId, m.ops.size ≤ o.index → o.index < n.ops.size → o = f := by
      intro o hle hlt
      rw [hmade.size_ops] at hlt
      rw [hmade.id, ← OpId.index_eq_iff]
      exact Nat.le_antisymm (Nat.le_of_lt_succ hlt) hle
    have hassigns : Assigns m n := by
      refine .of_grown hm hbody hmade.linked hmade.grown (fun o hle hlt => ?_)
        fun o hle ho context' hname => ?_
      · rw [hnew o hle hlt, hmade.function.1]
        rfl
      · obtain rfl := hnew o hle (hmade.linked.ops_lt ho)
        obtain rfl : context = context' := by
          have hsame := Option.some.inj (hmade.function.symName?.symm.trans hname)
          revert hsame
          cases context <;> cases context' <;> decide
        exact hmade.function
    refine ⟨hassigns, f, ⟨m.bodyBlock, ?_, by simp [hmade.listed]⟩, by rw [hmade.function.1]; rfl,
      hmade.function.symName?, hmade.entry⟩
    rw [hassigns.retains.region_body hm]
    exact Module.bodyBlock_mem hbody

/-- The entry function joins the body. -/
theorem assigns_of_buildEntry (hm : m.Linked) (hbody : m.hasBody = true)
    (h : (buildEntry location).run m = .ok f n) : Assigns m n := by
  have hbuilt := entryBuilt_of_run hm (hm.bodyBlock_lt hbody) h
  refine .of_grown hm hbody hbuilt.linked hbuilt.grown hbuilt.new fun o hle ho context hname => ?_
  rw [hbuilt.listed, List.mem_append, List.mem_singleton] at ho
  rcases ho with hold | rfl
  · exact absurd (hm.ops_lt hold) (Nat.not_lt.2 hle)
  · rw [Module.symName?, Module.attr?, hbuilt.entry.attrs] at hname
    cases context <;> exact absurd (Option.some.inj hname) (by decide)

/-- Declaring symbols moves nothing.

**Proof sketch.** What is new are globals and the declaration of the return function, none of
which is a container or goes by the name of a function for code. -/
theorem SymbolsDeclared.assigns {globals : List Global} {code rest : List OpId}
    (h : SymbolsDeclared m n globals code rest) (hm : m.Linked) (hbody : m.hasBody = true) :
    Assigns m n := by
  have hnew : ∀ o : OpId, m.ops.size ≤ o.index → o.index < n.ops.size →
      (∃ g, IsGlobal n o g) ∨ IsReturnDeclaration n o := by
    intro o hle hlt
    rcases List.mem_append.1 ((h.new o).2 ⟨hle, hlt⟩) with ho | ho
    · obtain ⟨g, -, hg⟩ := Outcome.exists_right h.globals ho
      exact .inl ⟨g, hg⟩
    · rcases h.rest with rfl | ⟨o', rfl, hreturn⟩
      · cases ho
      · exact .inr (List.mem_singleton.1 ho ▸ hreturn)
  refine .of_grown hm hbody h.linked h.grown (fun o hle hlt => ?_) fun o hle ho context hname => ?_
  · rcases hnew o hle hlt with ⟨g, hg⟩ | hreturn
    · rw [hg.1]
      rfl
    · rw [hreturn.1]
      rfl
  · rcases hnew o hle (h.linked.ops_lt ho) with ⟨g, hg⟩ | hreturn
    · have hsame := Option.some.inj (hg.symName?.symm.trans hname)
      cases context
      · exact absurd hsame g.name_ne.2.1
      · exact absurd hsame g.name_ne.2.2.1
    · have hsame := Option.some.inj (hreturn.symName?.symm.trans hname)
      cases context <;> exact absurd hsame (by decide)

/-- What goes by a name in the body is ended.

**Proof sketch.** If something is ended, its entry block grows by code that is no symbol and no
container, and the block belongs to a symbol (`of_extends`). -/
theorem assigns_of_terminateNamed (hm : m.Linked) {name : String}
    (h : (terminateNamed name).run m = .ok a n) : Assigns m n := by
  rcases steps_of_terminateNamed h with rfl | ⟨f, hf, h⟩
  · exact .refl hm
  · rcases terminated_of_run hm h with rfl | ⟨e, he, hterminated⟩
    · exact .refl hm
    · obtain ⟨-, hsymbol, -⟩ := Module.standsIn_of_lookupTop? hf
      obtain ⟨-, howner⟩ := Module.owner?_of_entryBlock? hm he
      refine .of_extends hm hterminated.linked hterminated.grown (fun b hb g hg => ?_)
        (fun o hle hlt => ?_) (.inl hterminated.size_blocks) fun o hle hlt _ hsymbol => ?_
      · obtain rfl : f = g := Option.some.inj (howner.symm.trans (hb ▸ hg))
        exact hsymbol
      · have hplain := hterminated.new o hle hlt
        rw [OpKind.isSymbol, Bool.or_eq_false_iff, Bool.or_eq_false_iff] at hplain
        simp_all
      · rw [hterminated.new o hle hlt] at hsymbol
        cases hsymbol

/-- Code of containers with names of runtime code is runtime code. -/
theorem ofContainer_eq_runtime {x : String} (h : CodeContext.isRuntimeName x = true) :
    CodeContext.ofContainer x = .runtime := by
  rw [CodeContext.ofContainer, h]
  rfl

/-- Code of other containers is deploy code. -/
theorem ofContainer_eq_deploy {x : String} (h : CodeContext.isRuntimeName x = false) :
    CodeContext.ofContainer x = .deploy := by
  rw [CodeContext.ofContainer, h]
  rfl

/-- **The code of some objects goes** to the function for runtime code. -/
theorem assigns_of_moveObjects (hm : m.Linked) (hf : HoldsCode m .runtime f b) {ids : List OpId}
    (hids : ∀ c ∈ ids, c.index < m.ops.size ∧ Reached m c ∧
      ∃ x, m.symName? c = some x ∧ CodeContext.isRuntimeName x = true)
    (h : (moveObjects b ids).run m = .ok a n) : Assigns m n := by
  induction ids generalizing m with
  | nil =>
    cases h
    exact .refl hm
  | cons c ids ih =>
    obtain ⟨-, hc, x, hx, hruntime⟩ := hids c (by simp)
    obtain ⟨e, p, he, hmove, hrest⟩ := steps_of_moveObjects h
    have hassigns := assigns_of_moveCode hm hc hx he (ofContainer_eq_runtime hruntime ▸ hf) hmove
    refine hassigns.trans (ih hassigns.linked (hassigns.holdsCode hm hf) (fun d hd => ?_) hrest) hm
    obtain ⟨hdlt, hd, y, hy, hdruntime⟩ := hids d (by simp [hd])
    exact ⟨Nat.lt_of_lt_of_le hdlt hassigns.retains.size_ops, (hassigns.reached_iff hm hdlt).2 hd,
      y, by rw [(hassigns.retains.ops d hdlt).symName?_eq, hy], hdruntime⟩

/-- A container with runtime code only is split. -/
theorem assigns_of_splitRuntime (hm : m.Linked) (hbody : m.hasBody = true)
    (hc : c ∈ topContainers m) {x : String} (hx : m.symName? c = some x)
    (hruntime : CodeContext.isRuntimeName x = true) (he : m.entryBlock? c = some e)
    (h : (splitRuntime e location).run m = .ok a n) : Assigns m n := by
  obtain ⟨target, p, hfunction, hmove⟩ := Outcome.run_bind_eq_ok.1 h
  obtain ⟨hmp, f, hf⟩ := assigns_of_codeFunction hm hbody .runtime hfunction
  have hclt := hm.ops_lt (mem_topContainers.1 hc).1
  refine hmp.trans (assigns_of_moveCode hmp.linked (.inl ((hmp.mem_topContainers_iff hm).2 hc))
    (by rw [(hmp.retains.ops c hclt).symName?_eq, hx])
    (by rw [hmp.retains.entryBlock?_eq hm hclt, he]) (ofContainer_eq_runtime hruntime ▸ hf)
    hmove) hm

/-- **A deployable container is split.**

**Proof sketch.** Step by step, each composed with the last (`trans`): the entry function is
built, the function for deploy code found and the code moved to it, then the same for runtime code
and each runtime object. -/
theorem assigns_of_splitDeployable (hm : m.Linked) (hbody : m.hasBody = true)
    (hc : c ∈ topContainers m) {x : String} (hx : m.symName? c = some x)
    (hdeploy : CodeContext.isRuntimeName x = false) (he : m.entryBlock? c = some e)
    (h : (splitDeployable x e location).run m = .ok a n) : Assigns m n := by
  have hclt := hm.ops_lt (mem_topContainers.1 hc).1
  obtain ⟨-, howner⟩ := Module.owner?_of_entryBlock? hm he
  obtain ⟨-, objects, f, p₁, deployBody, p₂, p₃, runtimeBody, p₄, hobjects, hentry, hdeployBody,
    hmove, hruntimeBody, hrest⟩ := steps_of_splitDeployable h
  obtain ⟨-, rfl, hnames⟩ := run_runtimeObjects_eq_ok hobjects
  have h₁ := assigns_of_buildEntry hm hbody hentry
  obtain ⟨h₁₂, g, hg⟩ :=
    assigns_of_codeFunction h₁.linked (h₁.hasBody hm hbody) .deploy hdeployBody
  have h₂ := h₁.trans h₁₂ hm
  have h₂₃ := assigns_of_moveCode h₂.linked (.inl ((h₂.mem_topContainers_iff hm).2 hc))
    (by rw [(h₂.retains.ops c hclt).symName?_eq, hx])
    (by rw [h₂.retains.entryBlock?_eq hm hclt, he]) (ofContainer_eq_deploy hdeploy ▸ hg) hmove
  have h₃ := h₂.trans h₂₃ hm
  obtain ⟨h₃₄, g', hg'⟩ :=
    assigns_of_codeFunction h₃.linked (h₃.hasBody hm hbody) .runtime hruntimeBody
  have h₄ := h₃.trans h₃₄ hm
  refine h₄.trans (assigns_of_moveObjects h₄.linked hg' (fun o ho => ?_) hrest) hm
  obtain ⟨hmem, hkind⟩ := List.mem_filter.1 ho
  have holt := hm.ops_lt hmem
  have hup : Module.Up _ o c := Module.up_iff_owner?.2 ⟨e, (hm.op_parent o e).2 hmem, howner⟩
  obtain ⟨y, hy, hyruntime⟩ := hnames o ho
  exact ⟨Nat.lt_of_lt_of_le holt h₄.retains.size_ops,
    (h₄.reached_iff hm holt).2 (.inr ⟨hkind, c, hc, hup, x, hx, hdeploy⟩), y,
    by rw [(h₄.retains.ops o holt).symName?_eq, hy], hyruntime⟩

/-- **Containers of the body are split.** -/
theorem assigns_of_splitContainers (hm : m.Linked) (hbody : m.hasBody = true) {ids : List OpId}
    (hids : ∀ c ∈ ids, c ∈ topContainers m) (h : (splitContainers ids).run m = .ok a n) :
    Assigns m n := by
  induction ids generalizing m with
  | nil =>
    cases h
    exact .refl hm
  | cons c ids ih =>
    have hc := hids c (by simp)
    obtain ⟨name, e, p, hname, he, hsplit, hrest⟩ := steps_of_splitContainers h
    have hassigns : Assigns m p := by
      rcases hsplit with ⟨hruntime, hsplit⟩ | ⟨hdeploy, hsplit⟩
      · exact assigns_of_splitRuntime hm hbody hc hname hruntime he hsplit
      · exact assigns_of_splitDeployable hm hbody hc hname hdeploy he hsplit
    refine hassigns.trans (ih hassigns.linked (hassigns.hasBody hm hbody) (fun d hd => ?_) hrest) hm
    exact (hassigns.mem_topContainers_iff hm).2 (hids d (by simp [hd]))

/-- **Where splitting takes code**: to the function of the context of its container. -/
theorem assigns_of_lowerContainers (hm : m.Linked) (h : lowerContainers.run m = .ok a n) :
    m.hasBody = true ∧ Assigns m n := by
  obtain ⟨hbody, hsteps⟩ := steps_of_lowerContainers h
  refine ⟨hbody, ?_⟩
  rcases hsteps with ⟨-, rfl⟩ | ⟨q, p₁, p₂, hdeclare, hsplit, hdeploy, hruntime⟩
  · exact .refl hm
  · obtain ⟨globals, code, rest, hdeclared⟩ :=
      symbolsDeclared_of_run hm (hm.bodyBlock_lt hbody) hdeclare
    have hq := hdeclared.assigns hm hbody
    have hp₁ := assigns_of_splitContainers hq.linked (hq.hasBody hm hbody)
      (fun c hc => (hq.mem_topContainers_iff hm).2 hc) hsplit
    have hp₂ := assigns_of_terminateNamed hp₁.linked hdeploy
    have hn := assigns_of_terminateNamed hp₂.linked hruntime
    exact ((hq.trans hp₁ hm).trans hp₂ hm).trans hn hm

end Steps

end ContractIR.EraVM
