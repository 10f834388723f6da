import ContractIR.Proofs.Legalization.Assigning
import ContractIR.Proofs.Verification.Rules

/-!
# The course of legalization

Legalization splits the containers of the body, hoists functions out of them, drops them, and
converts what is left.  An operation of the tree stays in it if it is inside a function, or inside
no container of the body.  As nothing but low-level operations is left, a container of the tree is
inside one of the body, and inside no function.

## Main definitions

* `ContractIR.EraVM.Finishes` — the modules after splitting, after hoisting and after conversion.
* `ContractIR.EraVM.Course` — a verified module on its way through legalization.

## Main results

* `ContractIR.EraVM.Finishes.isAttached` — what stays in the tree.
* `ContractIR.EraVM.Finishes.exists_topContainer` — where containers are.
* `ContractIR.EraVM.Finishes.standsIn_body` — functions of containers end in the body.
* `ContractIR.EraVM.exists_course` — legalization that succeeds has a course.
-/

set_option autoImplicit false

namespace ContractIR.EraVM

variable {s t n : Module} {become : OpId → List OpId} {o : OpId}

/-- Functions were hoisted, which leads from `s` to `t`, and the rest was converted, which leads to
`n`.  Nothing illegal is left. -/
structure Finishes (s t n : Module) (become : OpId → List OpId) : Prop where
  start : s.Linked
  body : s.hasBody = true
  lifts : Lifts s t
  listed : (t.block s.bodyBlock).ops = (s.block s.bodyBlock).ops.flatMap fun o =>
    if (s.kind o).isContainer then functionsIn s o else [o]
  reworks : Reworks t n become
  linked : n.Linked
  legal : lowLevelTarget.illegalOps n = []

namespace Finishes

/-- The body is the region that it was. -/
theorem region_body (h : Finishes s t n become) : n.region Module.body = s.region Module.body :=
  (h.reworks.regions _ h.lifts.linked.body_lt).trans (h.lifts.retains.region_body h.start)

/-- The first block of the body still belongs to it. -/
theorem bodyBlock_mem (h : Finishes s t n become) :
    s.bodyBlock ∈ (n.region Module.body).blocks := by
  rw [h.region_body]
  exact Module.bodyBlock_mem h.body

/-- Blocks belong to the operations that they belonged to. -/
theorem owner?_eq (h : Finishes s t n become) {b : BlockId} (hb : b.index < s.blocks.size) :
    n.owner? b = s.owner? b := by
  have ht := Nat.lt_of_lt_of_le hb h.lifts.retains.size_blocks
  rw [← h.lifts.retains.owner?_eq h.start hb, Module.owner?, h.reworks.parent,
    h.reworks.regions _ (h.lifts.linked.parent_lt ht)]
  rfl

/-- The tree of the result is low-level. -/
theorem dialect_eq (h : Finishes s t n become) (ho : n.isAttached o = true) :
    (n.kind o).dialect = .llvm :=
  illegalOps_eq_nil_iff.1 h.legal o (h.linked.mem_walk_iff.2 ho)

/-- What is no return from contract code keeps its place when it is converted. -/
theorem lowForm (h : Finishes s t n become) (ho : o.index < s.ops.size)
    (hkind : s.kind o ≠ .sol .ret) : LowForm (t.op o) (n.op o) :=
  (h.reworks.code o (h.lifts.size_ops ▸ ho) (by rw [h.lifts.kind_eq]; exact hkind)).2

/-- No container is left in the tree. -/
theorem not_isAttached (h : Finishes s t n become) (ho : o.index < s.ops.size)
    (hc : (s.kind o).isContainer = true) : n.isAttached o ≠ true := by
  intro hattached
  have hkind : s.kind o ≠ .sol .ret := by
    intro hret
    rw [hret] at hc
    cases hc
  have hform := (h.lowForm ho hkind).isContainer_eq (h.dialect_eq hattached)
  rw [← h.lifts.kind_eq] at hc
  exact absurd hc (Bool.eq_false_iff.1 hform)

/-- A return from contract code in a block of the tree is replaced. -/
theorem replaced (h : Finishes s t n become) {b : BlockId} (hb : (t.op o).parent = some b)
    (hkind : t.kind o = .sol .ret) (hattached : n.BlockAttached b) : Replaced t n o (become o) := by
  obtain ⟨hn, ⟨-, hsame⟩ | hreplaced⟩ := h.reworks.returns o (Module.op_lt_of_parent hb) hkind
  · -- It would be illegal in the result.
    have hlow := h.dialect_eq (h.linked.isAttached_of_parent (hsame ▸ hb) hattached)
    rw [hn] at hlow
    cases hlow
  · exact hreplaced

/-- **A function inside a container of the body** is hoisted. -/
theorem parent_of_isFunction (h : Finishes s t n become) {k : OpId} (hk : k ∈ topContainers s)
    (hin : s.Inside o k) (ho : (s.kind o).isFunction = true) :
    (t.op o).parent = some s.bodyBlock := by
  obtain ⟨hmem, hkind⟩ := mem_topContainers.1 hk
  refine (h.lifts.linked.op_parent o _).2 ?_
  rw [h.listed]
  refine List.mem_flatMap.2 ⟨k, hmem, ?_⟩
  rw [if_pos hkind]
  exact (mem_functionsIn h.start).2 ⟨hin, ho⟩

/-- **What stays in the tree**: what is inside a function, or inside no container of the body, and
is no return from contract code.

**Proof sketch.** Induction along the way up.  What stands inside something else stays where it is,
but for functions, which stay or go to the body; and it stays in the tree with what it is inside
of. -/
theorem isAttached (h : Finishes s t n become)
    (hplain : ∀ o r, s.isAttached o = true → s.Up o r → s.kind r ≠ .sol .ret)
    (ho : s.isAttached o = true) (hkind : s.kind o ≠ .sol .ret)
    (hkept : (∃ f, s.Inside o f ∧ (s.kind f).isFunction = true) ∨
      ∀ k ∈ topContainers s, ¬s.Inside o k) : n.isAttached o = true := by
  induction o using h.start.acyclic.induction with
  | _ o ih =>
    obtain ⟨b, hb, hblock⟩ := h.start.exists_blockAttached ho
    have hparent := (h.lowForm (Module.op_lt_of_parent hb) hkind).parent
    rcases h.lifts.parents o with hsame | ⟨-, hmoved⟩ | ⟨hc, hat, -⟩
    · refine h.linked.isAttached_of_parent (hparent.trans (hsame.trans hb)) ?_
      rcases hblock with hblock | ⟨f, hf, hattached⟩
      · exact .inl (by rw [h.region_body]; exact hblock)
      · have hup : s.Up o f := Module.up_iff_owner?.2 ⟨b, hb, hf⟩
        refine .inr ⟨f, by rw [h.owner?_eq (h.start.block_lt hb), hf],
          ih f hup hattached (hplain o f ho hup) ?_⟩
        -- A function that is not hoisted is inside no container of the body.
        by_cases hin : ∃ k ∈ topContainers s, s.Inside f k
        · obtain ⟨k, hk, hfk⟩ := hin
          refine .inl ?_
          rcases hkept with ⟨g, hog, hg⟩ | hnone
          · rcases hog.cases_head with rfl | ⟨q, hq, hqg⟩
            · have hbody := h.parent_of_isFunction hk (.head hup hfk) hg
              rw [hsame, hb] at hbody
              rw [Option.some.inj hbody, h.start.owner?_bodyBlock h.body] at hf
              cases hf
            · obtain rfl := Module.rightUnique_up hup hq
              exact ⟨g, hqg, hg⟩
          · exact absurd (.head hup hfk) (hnone k hk)
        · exact .inr fun k hk hfk => hin ⟨k, hk, hfk⟩
    · exact h.linked.isAttached_of_parent (hparent.trans hmoved) (.inl h.bodyBlock_mem)
    · have htop : o ∈ topContainers s :=
        mem_topContainers.2 ⟨(h.start.op_parent o _).1 hat, hc⟩
      rcases hkept with ⟨f, hof, hf⟩ | hnone
      · rcases hof.cases_head with rfl | ⟨q, hq, -⟩
        · rw [OpKind.isContainer_of_isFunction hf] at hc
          cases hc
        · rw [Module.Up, Module.parentOp?_eq_owner? hat, h.start.owner?_bodyBlock h.body] at hq
          cases hq
      · exact absurd .refl (hnone o htop)

/-- **Where containers are**: inside a container of the body, and inside no function. -/
theorem exists_topContainer (h : Finishes s t n become)
    (hplain : ∀ o r, s.isAttached o = true → s.Up o r → s.kind r ≠ .sol .ret)
    (ho : s.isAttached o = true) (hc : (s.kind o).isContainer = true) :
    (∃ k ∈ topContainers s, s.Inside o k) ∧
      ∀ f, s.Inside o f → (s.kind f).isFunction = false := by
  have hlost := h.not_isAttached (Module.op_lt_of_isAttached ho) hc
  have hkind : s.kind o ≠ .sol .ret := by
    intro hret
    rw [hret] at hc
    cases hc
  constructor
  · by_contra hnone
    exact hlost (h.isAttached hplain ho hkind (.inr fun k hk hin => hnone ⟨k, hk, hin⟩))
  · intro f hin
    exact Bool.eq_false_iff.2 fun hf => hlost (h.isAttached hplain ho hkind (.inl ⟨f, hin, hf⟩))

/-- What stands in the body after hoisting and is no return from contract code goes on to. -/
theorem standsIn_of_parent (h : Finishes s t n become) (ho : o.index < s.ops.size)
    (hkind : s.kind o ≠ .sol .ret) {b : BlockId} (hb : (t.op o).parent = some b)
    (hbody : b ∈ (s.region Module.body).blocks) : n.StandsIn o Module.body := by
  refine ⟨b, by rw [h.region_body]; exact hbody, (h.linked.op_parent o b).1 ?_⟩
  rw [(h.lowForm ho hkind).parent, hb]

/-- **Functions of the body and of containers end in the body.**

**Proof sketch.** By where the function stood.  In the body it stays or moves within it; in a
container, that one is nested in a container of the body, whose functions are moved there. -/
theorem standsIn_body (h : Finishes s t n become)
    (hplain : ∀ o r, s.isAttached o = true → s.Up o r → s.kind r ≠ .sol .ret)
    (ho : (s.kind o).isFunction = true)
    (hplace : s.StandsIn o Module.body ∨
      ∃ c, s.Up o c ∧ s.isAttached c = true ∧ (s.kind c).isContainer = true) :
    n.StandsIn o Module.body := by
  have hkind : s.kind o ≠ .sol .ret := by
    intro hret
    rw [hret] at ho
    cases ho
  have hbody := Module.bodyBlock_mem h.body
  rcases hplace with ⟨b, hb, hmem⟩ | ⟨c, hup, hattached, hc⟩
  · have hlt := h.start.ops_lt hmem
    rcases h.lifts.parents o with hsame | ⟨-, hmoved⟩ | ⟨hc, -⟩
    · exact h.standsIn_of_parent hlt hkind (hsame.trans ((h.start.op_parent o b).2 hmem)) hb
    · exact h.standsIn_of_parent hlt hkind hmoved hbody
    · rw [OpKind.isContainer_of_isFunction ho] at hc
      cases hc
  · obtain ⟨⟨k, hk, hck⟩, -⟩ := h.exists_topContainer hplain hattached hc
    obtain ⟨b, hb, -⟩ := Module.up_iff_owner?.1 hup
    exact h.standsIn_of_parent (Module.op_lt_of_parent hb) hkind
      (h.parent_of_isFunction hk (.head hup hck) ho) hbody

/-- No scope is left around what is in the tree. -/
theorem isSymbolTable_eq (h : Finishes s t n become) (ho : n.isAttached o = true) {a : OpId}
    (ha : a ∈ n.ancestors o) : (n.kind a).isSymbolTable = false := by
  have hinside := h.linked.mem_ancestors_iff.1 (List.mem_cons_of_mem o ha)
  exact isContainer_of_dialect (h.dialect_eq (h.linked.isAttached_of_inside ho hinside))

end Finishes

/-! ## The whole way -/

/-- A verified module goes through legalization: `s` is what splitting leads to, `t` what hoisting
leads to, and `n` the result, which is verified as well. -/
structure Course (m s t n : Module) (become : OpId → List OpId) : Prop where
  start : m.Linked
  body : m.hasBody = true
  verified : m.verify = .ok ()
  split : lowerContainers.run m = .ok () s
  assigns : Assigns m s
  converts :
    ∃ stats, (Conversion.convert lowLevelTarget (patterns (classify s))).run t = .ok stats n
  finishes : Finishes s t n become
  returns : ReturnsFor (classify s) t n become
  accepted : n.verify = .ok ()

/-- **Legalization that succeeds has a course.** -/
theorem exists_course {m : Module} (hm : m.Linked) (hverify : m.verify = .ok ())
    {stats : Conversion.Stats} (h : legalize.run m = .ok stats n) :
    ∃ s t become, Course m s t n become := by
  obtain ⟨s, t, count, hlower, hhoist, hconvert, haccepted⟩ := steps_of_legalize h
  obtain ⟨hbody, hassigns⟩ := assigns_of_lowerContainers hm hlower
  obtain ⟨hlifts, hlisted⟩ := lifts_of_hoist hassigns.linked hhoist
  obtain ⟨hn, hlegal, become, hreworks, hreturns⟩ := reworks_of_convert hlifts.linked hconvert
  exact ⟨s, t, become, hm, hbody, hverify, hlower, hassigns, ⟨stats, hconvert⟩,
    ⟨hassigns.linked, hassigns.hasBody hm hbody, hlifts, hlisted, hreworks, hn, hlegal⟩, hreturns,
    haccepted⟩

namespace Course

variable {m : Module}

/-- Splitting and hoisting drop no operation from the arena. -/
theorem lt_hoisted (h : Course m s t n become) (ho : o.index < m.ops.size) : o.index < t.ops.size :=
  Nat.lt_of_lt_of_le ho (h.assigns.retains.size_ops.trans h.finishes.lifts.retains.size_ops)

/-- Splitting and hoisting leave operations what they are. -/
theorem sameOp (h : Course m s t n become) (ho : o.index < m.ops.size) : m.SameOp t o :=
  (h.assigns.retains.ops o ho).trans
    (h.finishes.lifts.retains.ops o (Nat.lt_of_lt_of_le ho h.assigns.retains.size_ops))

/-- What is no return from contract code is converted in place. -/
theorem lowForm (h : Course m s t n become) (ho : o.index < m.ops.size)
    (hkind : m.kind o ≠ .sol .ret) : LowForm (t.op o) (n.op o) :=
  h.finishes.lowForm (Nat.lt_of_lt_of_le ho h.assigns.retains.size_ops)
    (by rw [h.assigns.kind_eq ho]; exact hkind)

/-- Attributes stay, but for those that conversion sets. -/
theorem attr?_eq (h : Course m s t n become) (ho : o.index < m.ops.size)
    (hkind : m.kind o ≠ .sol .ret) {name : String} (hlinkage : name ≠ AttrName.linkage)
    (helem : name ≠ AttrName.elemType) : n.attr? o name = m.attr? o name := by
  rw [← (h.sameOp ho).attr?_eq name]
  exact (h.lowForm ho hkind).attrs name hlinkage helem

/-- Nothing is inside a return from contract code after splitting. -/
theorem kind_ne_of_up (h : Course m s t n become) {r : OpId} (ho : s.isAttached o = true)
    (hup : s.Up o r) : s.kind r ≠ .sol .ret := by
  intro hkind
  have hup' := h.assigns.returns o r hup hkind
  obtain ⟨b, hb, howner⟩ := Module.up_iff_owner?.1 hup'
  have ho' := (h.assigns.isAttached_iff h.start h.body (Module.op_lt_of_parent hb)).1 ho
  have hr := Module.of_verify h.verified
    (h.start.mem_walk_iff.2 (h.start.isAttached_of_up ho' hup'))
  rw [h.assigns.kind_eq (h.start.lt_of_owner? howner).2] at hkind
  exact Module.kind_ne_of_up hr.1 h.start hup' hkind

/-- **Functions of the body and of containers end in the body.**

**Proof sketch.** Splitting moves no function, so the function is still in the body or in that
container, and `Finishes.standsIn_body` applies to the module that was split. -/
theorem standsIn_body (h : Course m s t n become) (ho : (m.kind o).isFunction = true)
    (hplace : m.StandsIn o Module.body ∨
      ∃ c, m.Up o c ∧ m.isAttached c = true ∧ (m.kind c).isContainer = true) :
    n.StandsIn o Module.body := by
  have hparent : ∀ b, (m.op o).parent = some b → (s.kind o).isFunction = true := fun b hb => by
    rw [h.assigns.kind_eq (Module.op_lt_of_parent hb), ho]
  rcases hplace with ⟨b, hb, hmem⟩ | ⟨c, hup, hattached, hc⟩
  · exact h.finishes.standsIn_body (fun o r => h.kind_ne_of_up)
      (hparent b ((h.start.op_parent o b).2 hmem))
      (.inl (h.assigns.shifts.standsIn_body h.start ⟨b, hb, hmem⟩))
  · obtain ⟨b, hb, howner⟩ := Module.up_iff_owner?.1 hup
    have hlt := (h.start.lt_of_owner? howner).2
    have hcode : isCode m o = false := by
      rw [isCode, ho]
      rfl
    refine h.finishes.standsIn_body (fun o r => h.kind_ne_of_up) (hparent b hb)
      (.inr ⟨c, ?_, ?_, ?_⟩)
    · exact (h.assigns.shifts.up_iff h.start
        (h.assigns.shifts.parent_eq (Module.op_lt_of_parent hb) hcode)).2 hup
    · exact (h.assigns.isAttached_iff h.start h.body hlt).2 hattached
    · rw [h.assigns.kind_eq hlt, hc]

end Course

end ContractIR.EraVM
