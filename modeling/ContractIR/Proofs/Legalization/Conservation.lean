import ContractIR.Proofs.Legalization.Finishing
import Mathlib.Data.List.Pairwise

/-!
# What legalization keeps

Containers are dropped with everything that is left in them.  Functions are taken out of them
before, at any depth, but code is taken out of a container of the body, and out of the containers
that stand directly in a deployable one, and from nowhere else.  If no code stands deeper, nothing
is lost: what belonged to the tree and is no container belongs to it afterwards, and every return
from contract code is replaced by its sequence.

## Main definitions

* `ContractIR.EraVM.WithinReach` — code that stands where it is found.
* `ContractIR.EraVM.Stages` — the modules between the steps of legalization.
* `ContractIR.EraVM.Conserves` — nothing is lost.

## Main results

* `ContractIR.EraVM.Stages.lands_or_buried` — where an operation of the tree is after hoisting.
* `ContractIR.EraVM.legalize_conserves` — nothing is lost if all code is within reach.
* `ContractIR.EraVM.sunkenCode_lost` — code out of reach is dropped.
-/

set_option autoImplicit false

namespace ContractIR

namespace EraVM

open ContractIR.Module (Up Inside)

variable {m s t n : Module} {become : OpId → List OpId} {o : OpId}

/-! ## Stages -/

/-- The modules between the steps of legalization: `s` after splitting, `t` after hoisting, and `n`
after conversion. -/
structure Stages (m s t n : Module) (become : OpId → List OpId) : Prop where
  start : Splittable m
  relocates : Relocates m s
  emptied : ∀ c ∈ topContainers m, Emptied m s c
  lifts : Lifts s t
  listed : (t.block s.bodyBlock).ops = (s.block s.bodyBlock).ops.flatMap fun o =>
    if (s.kind o).isContainer then functionsIn s o else [o]
  reworks : Reworks t n become
  linked : n.Linked
  legal : lowLevelTarget.illegalOps n = []

/-- Legalization that succeeds has stages. -/
theorem exists_stages (hm : m.Linked)
    (hfree : ∀ c, m.StandsIn c Module.body → (m.kind c).isContainer = true →
      ∀ x, m.symName? c = some x → ¬IsRoutine x) {stats : Conversion.Stats}
    (h : legalize.run m = .ok stats n) : ∃ s t become, Stages m s t n become := by
  obtain ⟨s, t, count, hlower, hhoist, hconvert, -⟩ := steps_of_legalize h
  have hstart : Splittable m := ⟨hm, (steps_of_lowerContainers hlower).1, hfree⟩
  obtain ⟨hrelocates, hemptied⟩ := relocates_of_lowerContainers hstart hlower
  obtain ⟨hlifts, hlisted⟩ := lifts_of_hoist hrelocates.linked hhoist
  obtain ⟨hn, hlegal, become, hreworks, -⟩ := reworks_of_convert hlifts.linked hconvert
  exact ⟨s, t, become, hstart, hrelocates, hemptied, hlifts, hlisted, hreworks, hn, hlegal⟩

/-- An operation stands in a block that belongs to the tree of the result. -/
def Lands (t n : Module) (o : OpId) : Prop :=
  ∃ b, (t.op o).parent = some b ∧ n.BlockAttached b

/-- A container is inside a container of the body, and everything around it is a container. -/
def Buried (m : Module) (c : OpId) : Prop :=
  (∀ a, m.Inside c a → (m.kind a).isContainer = true) ∧ ∃ k ∈ topContainers m, m.Inside c k

/-- A container inside a buried one is buried. -/
theorem Buried.of_up {c d : OpId} (h : Buried m d) (hup : m.Up c d)
    (hc : (m.kind c).isContainer = true) : Buried m c := by
  obtain ⟨hcontainers, k, hk, hdk⟩ := h
  refine ⟨fun a ha => ?_, k, hk, .head hup hdk⟩
  rcases ha.cases_head with rfl | ⟨q, hq, hqa⟩
  · exact hc
  · obtain rfl := Module.rightUnique_up hup hq
    exact hcontainers a hqa

namespace Stages

/-- What a module had is there after splitting. -/
theorem lt_split (h : Stages m s t n become) (ho : o.index < m.ops.size) :
    o.index < s.ops.size := Nat.lt_of_lt_of_le ho h.relocates.retains.size_ops

/-- Splitting and hoisting leave kinds. -/
theorem kind_eq (h : Stages m s t n become) (ho : o.index < m.ops.size) : t.kind o = m.kind o :=
  (h.lifts.kind_eq o).trans (h.relocates.kind_eq ho)

/-- What follows the split. -/
theorem finishes (h : Stages m s t n become) : Finishes s t n become where
  start := h.relocates.linked
  body := (h.relocates.splittable h.start).body
  lifts := h.lifts
  listed := h.listed
  reworks := h.reworks
  linked := h.linked
  legal := h.legal

/-- The body is the region that it was. -/
theorem region_body (h : Stages m s t n become) :
    s.region Module.body = m.region Module.body ∧ n.region Module.body = m.region Module.body := by
  have hs := h.relocates.retains.region_body h.start.linked
  exact ⟨hs, h.finishes.region_body.trans hs⟩

/-- The first block of the body is the one that it was. -/
theorem bodyBlock_eq (h : Stages m s t n become) : s.bodyBlock = m.bodyBlock :=
  h.relocates.retains.bodyBlock_eq h.start.linked

/-- Blocks belong to the operations that they belonged to. -/
theorem owner?_eq (h : Stages m s t n become) {b : BlockId} {f : OpId}
    (hb : s.owner? b = some f) : n.owner? b = some f := by
  rw [h.finishes.owner?_eq (h.relocates.linked.lt_of_owner? hb).1, hb]

/-- **What lands belongs to the tree of the result**, if it is no return from contract code. -/
theorem isAttached_of_lands (h : Stages m s t n become) (ho : Lands t n o)
    (hkind : t.kind o ≠ .sol .ret) : n.isAttached o = true := by
  obtain ⟨b, hb, hattached⟩ := ho
  have hform := (h.reworks.code o (Module.op_lt_of_parent hb) hkind).2
  exact h.linked.isAttached_of_parent (hform.parent.trans hb) hattached

/-- No container lands. -/
theorem not_lands (h : Stages m s t n become) (ho : o.index < m.ops.size)
    (hc : (m.kind o).isContainer = true) : ¬Lands t n o := by
  intro hlands
  have hkind : t.kind o ≠ .sol .ret := by
    intro hret
    rw [← h.kind_eq ho, hret] at hc
    cases hc
  exact h.finishes.not_isAttached (h.lt_split ho) (by rw [h.relocates.kind_eq ho, hc])
    (h.isAttached_of_lands hlands hkind)

/-- What stood in the body, or inside an operation of the result, lands. -/
theorem lands_of_split (h : Stages m s t n become) {b : BlockId} (hb : (s.op o).parent = some b)
    (hkept : b = m.bodyBlock → (s.kind o).isContainer = false) (hattached : n.BlockAttached b) :
    Lands t n o := by
  rcases h.lifts.parents o with hparent | ⟨-, hparent⟩ | ⟨hc, hparent, -⟩
  · exact ⟨b, hparent.trans hb, hattached⟩
  · exact ⟨s.bodyBlock, hparent, .inl h.finishes.bodyBlock_mem⟩
  · rw [hb, h.bodyBlock_eq] at hparent
    rw [hkept (Option.some.inj hparent)] at hc
    cases hc

/-- Symbols of the body that are no containers belong to the tree of the result. -/
theorem isAttached_of_sheltered (h : Stages m s t n become) {b : BlockId} (hb : Sheltered s b) :
    n.BlockAttached b := by
  obtain ⟨f, hf, hcontainer, hsymbol, x, hx, hfx⟩ := hb
  refine .inr ⟨f, h.owner?_eq hf, h.isAttached_of_lands (h.lands_of_split
    ((h.relocates.linked.op_parent f x).2 hfx) (fun _ => hcontainer) (.inl ?_)) ?_⟩
  · rw [h.region_body.2, ← h.region_body.1]
    exact hx
  · intro hret
    rw [h.lifts.kind_eq] at hret
    rw [hret] at hsymbol
    cases hsymbol

/-- Splitting leaves ways up along containers. -/
theorem inside_of_buried (h : Stages m s t n become) {c k : OpId} (hck : m.Inside c k)
    (hc : ∀ a, m.Inside c a → (m.kind a).isContainer = true) : s.Inside c k := by
  induction hck using Relation.ReflTransGen.head_induction_on with
  | refl => exact .refl
  | @head c d hcd hdk ih =>
    obtain ⟨b, hb, -⟩ := Module.up_iff.1 hcd
    have hparent := h.relocates.parent_of_isContainer (Module.op_lt_of_parent hb) (hc c .refl)
    exact .head ((h.relocates.up_iff h.start.linked hparent).2 hcd)
      (ih fun a ha => hc a (.head hcd ha))

/-- **Functions inside containers land** in the body.

**Proof sketch.** Splitting moves code only, so the function is inside its container still, and
that is one of the body; hoisting then moves it to the body (`parent_of_isFunction`). -/
theorem lands_of_isFunction (h : Stages m s t n become) {c : OpId} (hup : m.Up o c)
    (hc : Buried m c) (ho : (m.kind o).isFunction = true) : Lands t n o := by
  obtain ⟨hcontainers, k, hk, hck⟩ := hc
  obtain ⟨b, hb, -⟩ := Module.up_iff.1 hup
  have holt := Module.op_lt_of_parent hb
  obtain ⟨hkops, hkind⟩ := mem_topContainers.1 hk
  have hklt := h.start.linked.ops_lt hkops
  have hparent : (s.op o).parent = (m.op o).parent := by
    rcases h.relocates.parents o holt with hparent | ⟨hcode, -⟩
    · exact hparent
    · rw [isCode, ho] at hcode
      cases hcode
  have hin : s.Inside o k := .head ((h.relocates.up_iff h.start.linked hparent).2 hup)
    (h.inside_of_buried hck hcontainers)
  have hkbody : k ∈ topContainers s := by
    rw [mem_topContainers, h.bodyBlock_eq, ← h.relocates.linked.op_parent,
      h.relocates.parent_of_isContainer hklt hkind, h.relocates.kind_eq hklt]
    exact ⟨(h.start.linked.op_parent k _).2 hkops, hkind⟩
  exact ⟨s.bodyBlock, h.finishes.parent_of_isFunction hkbody hin
    (by rw [h.relocates.kind_eq holt, ho]), .inl h.finishes.bodyBlock_mem⟩

/-- **Code lands** if it was taken out of the block that it stood in. -/
theorem lands_of_cleared (h : Stages m s t n become) (hcode : isCode m o = true) {e : BlockId}
    (he : (m.op o).parent = some e) (hcleared : Cleared s e) : Lands t n o := by
  have holt := Module.op_lt_of_parent he
  rcases h.relocates.parents o holt with hparent | ⟨-, -, b, hb, hsheltered⟩
  · have hfalse := hcleared o ((h.relocates.linked.op_parent o e).1 (hparent.trans he))
    rw [h.relocates.isCode_eq holt, hcode] at hfalse
    cases hfalse
  · refine h.lands_of_split hb (fun _ => ?_) (h.isAttached_of_sheltered hsheltered)
    rw [h.relocates.kind_eq holt]
    simp only [isCode, Bool.and_eq_true, Bool.not_eq_true'] at hcode
    exact hcode.2

end Stages

/-! ## Code within reach -/

/-- Code stands in a container of the body at most, or in a container that stands directly in a
deployable one. -/
def WithinReach (m : Module) (o : OpId) : Prop :=
  (m.ancestors o).length ≤ 1 ∨ ∃ c d x, m.ancestors o = [c, d] ∧ m.symName? d = some x ∧
    CodeContext.isRuntimeName x = false

namespace Stages

/-- Code in a container that is within reach lands.

**Proof sketch.** Within reach, the container is one of the body or the runtime object of one.
Splitting takes all code out of the entry blocks of both (`Emptied`), and a container has no other
block (`verifyContainer`). -/
theorem lands_of_isCode (h : Stages m s t n become) (hverify : m.verify = .ok ()) {c : OpId}
    (hup : m.Up o c) (hattached : m.isAttached c = true) (hc : Buried m c)
    (hcode : isCode m o = true) (hreach : WithinReach m o) : Lands t n o := by
  have hm := h.start.linked
  obtain ⟨hcontainers, k, hk, hck⟩ := hc
  obtain ⟨e, he, -⟩ := Module.up_iff.1 hup
  have hblock : ∀ {o c : OpId}, m.Up o c → m.isAttached c = true →
      (m.kind c).isContainer = true → m.entryBlock? c = (m.op o).parent :=
    fun hup hattached hkind => Module.entryBlock?_of_verifyContainer
      (Module.verifyContainer_of_verifyOp
        (Module.of_verify hverify (hm.mem_walk_iff.2 hattached)).1 hkind) hm hup
  have hentry := (hblock hup hattached (hcontainers c .refl)).trans he
  refine h.lands_of_cleared hcode he ?_
  -- the container is one of the body, or the one around it is, and deployable
  have hancestors : m.ancestors o = c :: m.ancestors c := by
    rw [hm.ancestors_eq, show m.parentOp? o = some c from hup]
  have hroot : ∀ {d}, m.Inside c d → m.parentOp? d = none → d = k := fun hcd hnone =>
    hm.root_unique hcd hck (hnone.trans (by
      obtain ⟨hkops, -⟩ := mem_topContainers.1 hk
      rw [hm.parentOp?_of_standsIn ⟨_, Module.bodyBlock_mem h.start.body, hkops⟩, hm.body_parent]))
  rw [WithinReach, hancestors] at hreach
  rcases hreach with hlength | ⟨c', d, x, heq, hx, hruntime⟩
  · have hnone : m.parentOp? c = none := by
      cases hparent : m.parentOp? c with
      | none => rfl
      | some d =>
        rw [hm.ancestors_eq c, hparent] at hlength
        simp only [List.length_cons] at hlength
        omega
    obtain rfl := hroot .refl hnone
    exact (h.emptied c hk).own e hentry
  · obtain ⟨rfl, hrest⟩ := List.cons.inj heq
    have hd : m.parentOp? c = some d ∧ m.ancestors d = [] := by
      rw [hm.ancestors_eq c] at hrest
      split at hrest
      · rename_i hparent
        obtain ⟨rfl, hnil⟩ := List.cons.inj hrest
        exact ⟨hparent, hnil⟩
      · cases hrest
    have hnone : m.parentOp? d = none := by
      cases hparent : m.parentOp? d with
      | none => rfl
      | some q =>
        have hnil := hd.2
        rw [hm.ancestors_eq d, hparent] at hnil
        cases hnil
    obtain rfl := hroot (.single hd.1) hnone
    obtain ⟨e', he', -⟩ := Module.up_iff.1 hd.1
    have hentry' := (hblock hd.1 (hm.isAttached_of_up hattached hd.1)
      (hcontainers d (.single hd.1))).trans he'
    exact (h.emptied d hk).objects x hx hruntime e' hentry' c ((hm.op_parent c e').1 he')
      (hcontainers c .refl) e hentry

/-- What stands directly in the body lands, or is a container of the body.

**Proof sketch.** A container in the body's block is buried; everything else in the body is not
moved by splitting and stands in a block that stays. -/
theorem lands_or_buried_of_top (h : Stages m s t n become) (ho : m.isAttached o = true)
    (hparent : m.parentOp? o = none) : Lands t n o ∨ Buried m o := by
  have hm := h.start.linked
  obtain ⟨b, hb⟩ := Module.exists_parent_of_isAttached ho
  have hstands := hm.standsIn_body ho hparent
  by_cases hc : (m.kind o).isContainer = true ∧ b = m.bodyBlock
  · refine .inr ⟨fun a ha => ?_, o, mem_topContainers.2 ⟨?_, hc.1⟩, .refl⟩
    · rcases ha.cases_head with rfl | ⟨q, hq, -⟩
      · exact hc.1
      · rw [Up, hparent] at hq
        cases hq
    · rw [← hc.2]
      exact (hm.op_parent o b).1 hb
  · have hblock : n.BlockAttached b := by
      obtain ⟨x, hx, hox⟩ := hstands
      obtain rfl := Option.some.inj (hb.symm.trans ((hm.op_parent o x).2 hox))
      exact .inl (by rw [h.region_body.2]; exact hx)
    have hsplit := (h.relocates.parent_eq_of_standsIn hm hstands).trans hb
    refine .inl (h.lands_of_split hsplit (fun hbody => ?_) hblock)
    rw [h.relocates.kind_eq (Module.op_lt_of_parent hb)]
    exact Bool.eq_false_iff.2 fun hkind => hc ⟨hkind, hbody⟩

/-- What is inside an operation that lands, and is no container, lands.

**Proof sketch.** The operation around is no container, so splitting does not move the inner one,
and the block in which it stands belongs to an operation that is attached afterwards. -/
theorem lands_of_up (h : Stages m s t n become) (hverify : m.verify = .ok ()) {p : OpId}
    (hup : m.Up o p) (hp : m.isAttached p = true) (hlands : Lands t n p)
    (hkind : (m.kind p).isContainer = false) : Lands t n o := by
  have hm := h.start.linked
  obtain ⟨b, hb, howner⟩ := Module.up_iff_owner?.1 hup
  obtain ⟨hblt, hplt⟩ := hm.lt_of_owner? howner
  -- only code of containers moves
  have hsplit : (s.op o).parent = some b := by
    rcases h.relocates.parents o (Module.op_lt_of_parent hb) with
      hsame | ⟨-, ⟨c, hc, hcontainer⟩, -⟩
    · exact hsame.trans hb
    · obtain rfl := Module.rightUnique_up hup hc
      rw [hkind] at hcontainer
      cases hcontainer
  have hret := Module.kind_ne_of_up (Module.of_verify hverify (hm.mem_walk_iff.2 hp)).1 hm hup
  have hattached : n.isAttached p = true :=
    h.isAttached_of_lands hlands (by rw [h.kind_eq hplt]; exact hret)
  refine h.lands_of_split hsplit (fun hbody => ?_)
    (.inr ⟨p, h.owner?_eq ((h.relocates.retains.owner?_eq hm hblt).trans howner), hattached⟩)
  rw [hbody, hm.owner?_bodyBlock h.start.body] at howner
  cases howner

/-- **Where an operation of the tree is after hoisting**: it lands, or it is a container inside
containers.

**Proof sketch.** Induction along the way up.  Inside an operation that lands, everything lands, as
nothing moves out of it but functions, into the body.  Inside containers, functions are collected at
any depth, and code lands since it is within reach. -/
theorem lands_or_buried (h : Stages m s t n become) (hverify : m.verify = .ok ())
    (hreach : ∀ o, m.isAttached o = true → isCode m o = true →
      (∀ a ∈ m.ancestors o, (m.kind a).isContainer = true) → WithinReach m o)
    (ho : m.isAttached o = true) :
    Lands t n o ∧ (m.kind o).isContainer = false ∨ Buried m o := by
  have hm := h.start.linked
  induction o using hm.acyclic.induction with
  | _ o ih =>
    obtain ⟨b, hb⟩ := Module.exists_parent_of_isAttached ho
    -- what lands is no container
    have hlanded : Lands t n o → Lands t n o ∧ (m.kind o).isContainer = false := fun hlands =>
      ⟨hlands, Bool.eq_false_iff.2 fun hc => h.not_lands (Module.op_lt_of_parent hb) hc hlands⟩
    cases hparent : m.parentOp? o with
    | none => exact (h.lands_or_buried_of_top ho hparent).imp_left hlanded
    | some p =>
      have hp := hm.isAttached_of_up ho hparent
      rcases ih p hparent hp with ⟨hlands, hkind⟩ | hburied
      · exact .inl (hlanded (h.lands_of_up hverify hparent hp hlands hkind))
      · cases hc : (m.kind o).isContainer with
        | true => exact .inr (hburied.of_up hparent hc)
        | false =>
          refine .inl ⟨?_, rfl⟩
          cases hf : (m.kind o).isFunction with
          | true => exact h.lands_of_isFunction hparent hburied hf
          | false =>
            have hcode : isCode m o = true := by rw [isCode, hf, hc]; rfl
            refine h.lands_of_isCode hverify hparent hp hburied hcode
              (hreach o ho hcode fun a ha => ?_)
            rw [hm.ancestors_eq, hparent] at ha
            exact hburied.1 a (hm.mem_ancestors_iff.1 ha)

end Stages

/-! ## Nothing is lost -/

/-- A return from contract code was replaced by new operations of the tree, which stand next to each
other and are its sequence. -/
structure ReturnsInto (m n : Module) (o : OpId) (code : List OpId) : Prop where
  dropped : n.isAttached o = false
  new : ∀ p ∈ code, m.ops.size ≤ p.index ∧ n.isAttached p = true
  sequence : ∃ context offset length, (m.op o).operands = [offset, length] ∧
    ReturnCode n context offset length code
  contiguous : ∃ b front back, (n.block b).ops = front ++ code ++ back

/-- Nothing is lost: what belonged to the tree still does, but for containers and for returns from
contract code, and these were replaced by their sequences, each by its own. -/
structure Conserves (m n : Module) : Prop where
  kept : ∀ o, m.isAttached o = true → (m.kind o).isContainer = false → m.kind o ≠ .sol .ret →
    n.isAttached o = true
  returns : ∃ code : OpId → List OpId,
    (∀ o, m.isAttached o = true → m.kind o = .sol .ret → ReturnsInto m n o (code o)) ∧
    ∀ o, m.isAttached o = true → m.kind o = .sol .ret →
      ∀ p, m.isAttached p = true → m.kind p = .sol .ret → o ≠ p → (code o).Disjoint (code p)

namespace Stages

/-- A return from contract code that lands is replaced.

**Proof sketch.** The return is listed where it landed, and the conversion lists its code in its
place (`Finishes.replaced`).  The operands are those of before, because the stages in front change
places only. -/
theorem returnsInto_of_lands (h : Stages m s t n become) (ho : o.index < m.ops.size)
    (hkind : m.kind o = .sol .ret) {b : BlockId} (hb : (t.op o).parent = some b)
    (hattached : n.BlockAttached b) :
    ReturnsInto m n o (become o) ∧ become o ⊆ (n.block b).ops := by
  have hkind' : t.kind o = .sol .ret := (h.kind_eq ho).trans hkind
  have hmem : o ∈ (t.block b).ops := (h.lifts.linked.op_parent o b).1 hb
  have hsub : become o ⊆ (n.block b).ops := by
    intro p hp
    rw [h.reworks.listed]
    exact List.mem_flatMap.2 ⟨o, hmem, hp⟩
  have hreplaced := h.finishes.replaced hb hkind' hattached
  refine ⟨⟨hreplaced.isAttached_eq_false, fun p hp => ⟨?_, ?_⟩, ?_, ?_⟩, hsub⟩
  · have hle := (hreplaced.new p hp).1
    rw [h.lifts.size_ops] at hle
    exact Nat.le_trans h.relocates.retains.size_ops hle
  · exact h.linked.isAttached_of_parent ((h.linked.op_parent p b).2 (hsub hp)) hattached
  · obtain ⟨context, offset, length, hoperands, hcode⟩ := hreplaced.sequence
    obtain ⟨x, hx⟩ := h.relocates.retains.ops o ho
    obtain ⟨y, hy⟩ := h.lifts.retains.ops o (h.lt_split ho)
    rw [hy, hx] at hoperands
    exact ⟨context, offset, length, hoperands, hcode⟩
  · obtain ⟨front, back, hops⟩ := List.append_of_mem hmem
    refine ⟨b, front.flatMap become, back.flatMap become, ?_⟩
    rw [h.reworks.listed, hops, List.flatMap_append, List.flatMap_cons, List.append_assoc]

/-- Different operations become different ones. -/
theorem disjoint_become (h : Stages m s t n become) {p : OpId} {b c : BlockId}
    (hb : (t.op o).parent = some b) (hc : (t.op p).parent = some c)
    (hob : become o ⊆ (n.block b).ops) (hpc : become p ⊆ (n.block c).ops) (hne : o ≠ p) :
    (become o).Disjoint (become p) := by
  intro x hxo hxp
  have hbc : b = c := Option.some.inj
    (((h.linked.op_parent x b).2 (hob hxo)).symm.trans ((h.linked.op_parent x c).2 (hpc hxp)))
  subst hbc
  have hnodup := h.linked.ops_nodup b
  rw [h.reworks.listed] at hnodup
  have : Std.Symm (Function.onFun List.Disjoint become) :=
    ⟨fun _ _ hdisjoint _ hy hx => hdisjoint hx hy⟩
  exact (List.nodup_flatMap.1 hnodup).2.forall ((h.lifts.linked.op_parent o b).1 hb)
    ((h.lifts.linked.op_parent p b).1 hc) hne hxo hxp

end Stages

/-- **Nothing is lost**, if all code that stands in nothing but containers is within reach.

**Proof sketch.** `exists_stages` gives the stages.  Everything but containers lands
(`lands_or_buried`), what lands and is no return is attached afterwards, and a return that lands
is replaced by its code, different returns by different code. -/
theorem legalize_conserves (hm : m.Linked) (hverify : m.verify = .ok ())
    (hfree : ∀ c, m.StandsIn c Module.body → (m.kind c).isContainer = true →
      ∀ x, m.symName? c = some x → ¬IsRoutine x)
    (hreach : ∀ o, m.isAttached o = true → isCode m o = true →
      (∀ a ∈ m.ancestors o, (m.kind a).isContainer = true) → WithinReach m o)
    {stats : Conversion.Stats} (h : legalize.run m = .ok stats n) : Conserves m n := by
  obtain ⟨s, t, become, hstages⟩ := exists_stages hm hfree h
  have hlands : ∀ o, m.isAttached o = true → (m.kind o).isContainer = false → Lands t n o := by
    intro o ho hc
    rcases hstages.lands_or_buried hverify hreach ho with ⟨hlands, -⟩ | hburied
    · exact hlands
    · rw [hburied.1 o .refl] at hc
      cases hc
  have hlt : ∀ o, m.isAttached o = true → o.index < m.ops.size := by
    intro o ho
    obtain ⟨b, hb⟩ := Module.exists_parent_of_isAttached ho
    exact Module.op_lt_of_parent hb
  have hreturns : ∀ o, m.isAttached o = true → m.kind o = .sol .ret →
      ∃ b, (t.op o).parent = some b ∧ ReturnsInto m n o (become o) ∧
        become o ⊆ (n.block b).ops := by
    intro o ho hkind
    obtain ⟨b, hb, hattached⟩ := hlands o ho (by rw [hkind]; rfl)
    exact ⟨b, hb, hstages.returnsInto_of_lands (hlt o ho) hkind hb hattached⟩
  refine ⟨fun o ho hc hkind => ?_, become, fun o ho hkind => ?_,
    fun o ho hkind p hp hkind' hne => ?_⟩
  · refine hstages.isAttached_of_lands (hlands o ho hc) ?_
    rw [hstages.kind_eq (hlt o ho)]
    exact hkind
  · obtain ⟨b, -, hinto, -⟩ := hreturns o ho hkind
    exact hinto
  · obtain ⟨b, hb, -, hob⟩ := hreturns o ho hkind
    obtain ⟨c, hc, -, hpc⟩ := hreturns p hp hkind'
    exact hstages.disjoint_become hb hc hob hpc hne

/-- A contract of runtime code with a function and some code. -/
def reachableCode : Builder :=
  [Command.build (.container .contract "X_deployed"), .build (.toEnd ⟨1⟩),
    .build (.func "f" ⟨[], []⟩), .build (.constant 32 .word), .build (.solReturn ⟨0⟩ ⟨0⟩),
    .build (.toEnd ⟨2⟩), .build (.funcReturn [])].foldl
    (fun b c => c.run b) (.new (.new .unknown))

/-- The contract is legalized, and nothing of it is lost.

**Proof sketch.** The module is built by valid commands and verifies, its only container has the
name `X_deployed`, and its code is one level deep; with that, `legalize_conserves` applies. -/
theorem reachableCode_conserved :
    ∃ stats n, legalize.run reachableCode.ir = .ok stats n ∧ Conserves reachableCode.ir n := by
  have hm : reachableCode.ir.Linked :=
    ((Builder.Reachable.new .unknown).foldl (by decide +kernel)).sound.linked
  have hverify : reachableCode.ir.verify = .ok () := by decide +kernel
  have hnames : ∀ b ∈ (reachableCode.ir.region Module.body).blocks,
      ∀ c ∈ (reachableCode.ir.block b).ops, reachableCode.ir.symName? c = some "X_deployed" := by
    decide +kernel
  have hdepth : ∀ o ∈ reachableCode.ir.walk, isCode reachableCode.ir o = true →
      (∀ a ∈ reachableCode.ir.ancestors o, (reachableCode.ir.kind a).isContainer = true) →
      (reachableCode.ir.ancestors o).length ≤ 1 := by
    decide +kernel
  have hends : Outcome.endsIn legalize reachableCode.ir (fun _ => true) = true := by decide +kernel
  obtain ⟨stats, n, h, -⟩ := Outcome.exists_of_endsIn hends
  refine ⟨stats, n, h, legalize_conserves hm hverify ?_ (fun o ho hcode hall =>
    .inl (hdepth o (hm.mem_walk_iff.2 ho) hcode hall)) h⟩
  rintro c ⟨b, hb, hc⟩ - x hx
  obtain rfl := Option.some.inj ((hnames b hb c hc).symm.trans hx)
  exact not_or_intro (by decide) (by decide)

/-- A contract of runtime code that holds an object with code. -/
def sunkenCode : Builder :=
  [Command.build (.container .contract "X_deployed"), .build (.toEnd ⟨1⟩),
    .build (.container .object "Y"), .build (.toEnd ⟨2⟩), .build (.constant 0 .word),
    .build (.constant 32 .word), .build (.solReturn ⟨0⟩ ⟨1⟩)].foldl
    (fun b c => c.run b) (.new (.new .unknown))

/-- The object is accepted, and dropped with its code. -/
theorem sunkenCode_lost :
    sunkenCode.ir.Linked ∧ sunkenCode.ir.verify = .ok () ∧
      ∃ stats n, legalize.run sunkenCode.ir = .ok stats n ∧ ¬Conserves sunkenCode.ir n := by
  refine ⟨((Builder.Reachable.new .unknown).foldl (by decide +kernel)).sound.linked,
    by decide +kernel, ?_⟩
  have hends : Outcome.endsIn legalize sunkenCode.ir (fun n => !n.isAttached ⟨2⟩) = true := by
    decide +kernel
  obtain ⟨stats, n, h, hlost⟩ := Outcome.exists_of_endsIn hends
  refine ⟨stats, n, h, fun hconserves => ?_⟩
  have hkept := hconserves.kept ⟨2⟩ (by decide +kernel) (by decide +kernel) (by decide +kernel)
  rw [hkept] at hlost
  cases hlost

end EraVM

end ContractIR
