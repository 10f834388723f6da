import ContractIR.Proofs.Legalization.Contexts

/-!
# Returns are lowered for the right context

A return from contract code that is in a function, or in a container whose code is taken out, is
lowered for the context around it in the module that legalization starts from.  Where it stood, or
in the function for the code of its context if it stood in a container, the block ends with code
that returns from this context and never goes on.

One might expect that the nearest function around a return decides alone, by its marker or by the
container that it is in.  This is so if the function has a marker, or if no other function is around
the return.  But a function that decides nothing is passed over.

## Main definitions

* `ContractIR.EraVM.Lowerable` — where returns from contract code may be.
* `ContractIR.EraVM.destination?` — where they end up.
* `ContractIR.EraVM.LoweredFor` — a return was lowered for a context.
* `ContractIR.EraVM.nearestContext` — the context by the nearest function alone.

## Main results

* `ContractIR.EraVM.legalize_lowers_returns` — every return is lowered for the context around it.
* `ContractIR.EraVM.Course.eq_nearestContext` — where the nearest function decides alone.
* `ContractIR.EraVM.nestedFunction_not_loweredFor` — elsewhere it does not.
-/

set_option autoImplicit false

namespace ContractIR.EraVM

variable {m s t n : Module} {become : OpId → List OpId} {o c f : OpId} {context : CodeContext}

/-! ## Places of returns -/

/-- An operation is in a function, or the nearest container around it is one that code is taken out
of. -/
def Lowerable (m : Module) (o : OpId) : Prop :=
  (∃ f ∈ m.ancestors o, (m.kind f).isFunction = true) ∨
    ∃ c, (m.ancestors o).find? (fun a => (m.kind a).isContainer) = some c ∧ Reached m c

/-- Where an operation is can be computed. -/
instance (m : Module) (o : OpId) : Decidable (Lowerable m o) :=
  decidable_of_iff ((∃ f ∈ m.ancestors o, (m.kind f).isFunction = true) ∨
    ((m.ancestors o).find? fun a => (m.kind a).isContainer).any
      (fun c => decide (Reached m c)) = true) <| by
    simp only [Lowerable, Option.any_eq_true, decide_eq_true_eq]

/-- The block in which a return from contract code ends up: the one that it stands in, or if it
stands in a container, the one where the function for the code of its context is entered. -/
def destination? (m n : Module) (context : CodeContext) (o : OpId) : Option BlockId :=
  if (m.parentOp? o).any fun c => (m.kind c).isContainer then
    (n.lookupTop? (routineName context)).bind n.entryBlock?
  else (m.op o).parent

/-- A return from contract code was lowered for a context: it is gone, and the block where it ends
up ends with new low-level operations of the tree that return from this context. -/
structure LoweredFor (m n : Module) (context : CodeContext) (o : OpId) : Prop where
  gone : n.isAttached o = false
  returns : ∃ offset length b front code, (m.op o).operands = [offset, length] ∧
    destination? m n context o = some b ∧ (n.block b).ops = front ++ code ∧
    (∀ p ∈ code, m.ops.size ≤ p.index ∧ n.isAttached p = true ∧ (n.kind p).dialect = .llvm) ∧
    Returns n context offset length code

/-- If the nearest container around an operation is one that code is taken out of, the operation is
taken out, or is in a function.

**Proof sketch.** Induction on the way up.  If the operation around is the container, the
operation is code of it or a function; otherwise the operation around is taken out or in a
function, by induction, and so is this one. -/
theorem isTakenOut_or_exists_function (hm : m.Linked) (ho : (m.kind o).isContainer = false)
    (hfind : (m.ancestors o).find? (fun a => (m.kind a).isContainer) = some c) (hc : Reached m c) :
    isTakenOut m o = true ∨ ∃ f ∈ o :: m.ancestors o, (m.kind f).isFunction = true := by
  induction o using hm.acyclic.induction with
  | _ o ih =>
    rw [hm.ancestors_eq] at hfind ⊢
    rw [isTakenOut_eq hm]
    cases hq : m.parentOp? o with
    | none =>
      rw [hq] at hfind
      cases hfind
    | some q =>
      simp only [hq] at hfind ⊢
      cases hkind : (m.kind q).isContainer with
      | true =>
        rw [List.find?_cons_of_pos (by exact hkind)] at hfind
        obtain rfl := Option.some.inj hfind
        cases hfunction : (m.kind o).isFunction with
        | true => exact .inr ⟨o, by simp, hfunction⟩
        | false => exact .inl (by simp [isCode, hfunction, ho, hc])
      | false =>
        rw [List.find?_cons_of_neg (by simp [hkind])] at hfind
        rcases ih q hq hkind hfind with hout | ⟨f, hf, hfunction⟩
        · exact .inl (by simp [hout])
        · exact .inr ⟨f, List.mem_cons_of_mem o hf, hfunction⟩

/-- The context by the nearest function around an operation alone: what the marker of this function
says, else what the name of the nearest container around the operation says, else that of deploy
code. -/
def nearestContext (m : Module) (o : OpId) : CodeContext :=
  ((((m.ancestors o).find? fun a => (m.kind a).isFunction).bind (marker? m)).or
    (containerContext? m o)).getD .deploy

/-- The nearest function around an operation has a marker, or is in no other function. -/
def DecidedByNearest (m : Module) (o : OpId) : Prop :=
  ∀ f, (m.ancestors o).find? (fun a => (m.kind a).isFunction) = some f → marker? m f = none →
    ∀ g ∈ m.ancestors f, (m.kind g).isFunction = false

/-! ## Returns on the way -/

namespace Course

/-- **A return is in a function** once code was taken out of the containers.

**Proof sketch.** By whether the return is taken out.  If so, it is in the function for the code;
if not, the operations around it are those of before, and a function is among them
(`isTakenOut_or_exists_function`). -/
theorem exists_function (h : Course m s t n become) (hfree : Unreserved m)
    (ho : o.index < m.ops.size) (hkind : m.kind o = .sol .ret) (hlies : Lowerable m o) :
    ∃ f, s.Inside o f ∧ (s.kind f).isFunction = true := by
  cases hout : isTakenOut m o with
  | true =>
    obtain ⟨f, hf, hfunction, -⟩ := h.exists_routine hfree ho hout
    exact ⟨f, hf, hfunction⟩
  | false =>
    have hfunction : ∃ f ∈ m.ancestors o, (m.kind f).isFunction = true := by
      rcases hlies with hfunction | ⟨c, hfind, hc⟩
      · exact hfunction
      · rcases isTakenOut_or_exists_function h.start (by rw [hkind]; rfl) hfind hc with
          hout' | ⟨f, hf, hfunction⟩
        · rw [hout] at hout'
          cases hout'
        · rcases List.mem_cons.1 hf with rfl | hf
          · rw [hkind] at hfunction
            cases hfunction
          · exact ⟨f, hf, hfunction⟩
    obtain ⟨f, hf, hfunction⟩ := hfunction
    have hlt := h.start.index_lt_of_mem_ancestorsWithin hf
    rw [← h.ancestors_eq hfree ho hout] at hf
    exact ⟨f, h.assigns.linked.mem_ancestors_iff.1 (List.mem_cons_of_mem o hf),
      by rw [h.assigns.kind_eq hlt, hfunction]⟩

/-- **A return in a function is replaced**, and the block that it stands in stays in the tree.

**Proof sketch.** Hoisting moves neither code nor what is in a function, so the return stands
where it stood, in a block of an operation that is in the function as well and stays attached;
there `Finishes.replaced` says that it is replaced. -/
theorem replaced (h : Course m s t n become) (ho : m.isAttached o = true)
    (hkind : m.kind o = .sol .ret) (hf : s.Inside o f) (hfunction : (s.kind f).isFunction = true) :
    (t.op o).parent = (s.op o).parent ∧ Replaced t n o (become o) ∧
      ∃ b, (s.op o).parent = some b ∧ n.BlockAttached b := by
  have hlt := Module.op_lt_of_isAttached ho
  have hskind : s.kind o = .sol .ret := by rw [h.assigns.kind_eq hlt, hkind]
  have hparent : (t.op o).parent = (s.op o).parent := by
    rcases h.finishes.lifts.parents o with hsame | ⟨hfunction, -⟩ | ⟨hcontainer, -⟩
    · exact hsame
    · rw [hskind] at hfunction
      cases hfunction
    · rw [hskind] at hcontainer
      cases hcontainer
  have hattached := (h.assigns.isAttached_iff h.start h.body hlt).2 ho
  -- The operation around the return is in the function as well, and stays.
  rcases hf.cases_head with rfl | ⟨q, hq, hqf⟩
  · rw [hskind] at hfunction
    cases hfunction
  obtain ⟨b, hb, howner⟩ := Module.up_iff_owner?.1 hq
  have hstays : n.BlockAttached b := by
    refine .inr ⟨q, by rw [h.finishes.owner?_eq (h.assigns.linked.block_lt hb), howner], ?_⟩
    exact h.finishes.isAttached (fun o r => h.kind_ne_of_up)
      (h.assigns.linked.isAttached_of_up hattached hq) (h.kind_ne_of_up hattached hq)
      (.inl ⟨f, hqf, hfunction⟩)
  refine ⟨hparent, ?_, b, hb, hstays⟩
  exact h.finishes.replaced (hparent.trans hb) (by rw [h.finishes.lifts.kind_eq, hskind]) hstays

/-- **The context of a return that is replaced** is that around it at the start. -/
theorem around?_eq (h : Course m s t n become) (hfree : Unreserved m) (ho : m.isAttached o = true)
    (hkind : m.kind o = .sol .ret) (hf : s.Inside o f) (hfunction : (s.kind f).isFunction = true)
    (hattached : t.isAttached o = true) :
    (classify s).around? t o = contextAround? m o := by
  have hplain : (m.kind o).isContainer = false := by
    rw [hkind]
    rfl
  have hown : ownContext? m o = none := by
    rw [ownContext?, hkind]
    rfl
  have hget := h.get?_classify hfree ho hplain
  have hfound := (h.findSome?_hoisted_eq hattached).trans
    (h.findSome?_get?_eq hfree ho (.inl ⟨f, hf, hfunction⟩))
  rwa [List.findSome?_cons, List.findSome?_cons, hget, hown] at hfound

/-- The function for code is where it was, and goes by its name in the body.

**Proof sketch.** The function stands in the body at the end, keeps its name and becomes
low-level; an accepted module has the name once (`lookupTop?_of_verify`).  Its regions and blocks
are not changed by the later stages. -/
theorem lookupTop?_eq (h : Course m s t n become) {x : String} {b : BlockId}
    (hplaced : Placed m s o c x f b) :
    n.lookupTop? (routineName (CodeContext.ofContainer x)) = some f ∧ n.entryBlock? f = some b := by
  have hlt := (h.assigns.linked.lt_of_owner? (hplaced.holds.owner?_eq h.assigns.linked)).2
  have hform := h.finishes.lowForm hlt (kind_ne_of_isSymbol hplaced.holds.symbol)
  have hstands := h.finishes.standsIn_body (fun o r => h.kind_ne_of_up) hplaced.isFunction
    (.inl hplaced.holds.stands)
  have hattached := h.finishes.linked.isAttached_iff.2 ⟨f, hstands, .refl⟩
  constructor
  · refine Module.lookupTop?_of_verify h.accepted hstands ?_ ?_
    · have hfunction : (t.kind f).isFunction = true := by
        rw [h.finishes.lifts.kind_eq, hplaced.isFunction]
      rw [Module.kind, hform.kind_of_isFunction hfunction (h.finishes.dialect_eq hattached)]
      rfl
    · have hattrs := hform.attrs AttrName.symName (by decide) (by decide)
      rw [Module.symName?, Module.attr?, hattrs]
      exact ((h.finishes.lifts.retains.ops f hlt).symName?_eq).trans hplaced.holds.name
  · rw [h.finishes.reworks.entryBlock?_eq h.finishes.lifts.linked hform.regions,
      h.finishes.lifts.retains.entryBlock?_eq h.assigns.linked hlt, hplaced.holds.entry]

/-- **Where a return ends up** is where it stands once code was taken out of the containers.

**Proof sketch.** By whether the return stands directly in a container.  If so, it was taken out
into the function of its context, whose entry block is the destination; if not, no stage before
the conversion moved it. -/
theorem destination?_eq (h : Course m s t n become) (hfree : Unreserved m)
    (ho : m.isAttached o = true) (hkind : m.kind o = .sol .ret) (hlies : Lowerable m o)
    (hcontext : contextAround? m o = some context) :
    destination? m n context o = (s.op o).parent := by
  obtain ⟨b, hb⟩ := Module.exists_parent_of_isAttached ho
  have hlt := Module.op_lt_of_parent hb
  have hcode : isCode m o = true := by
    rw [isCode, hkind]
    rfl
  rw [destination?]
  split
  · rename_i hin
    obtain ⟨c, hup, hc⟩ := (Option.any_eq_true _ _).1 hin
    have hancestors := h.start.ancestors_of_up hup
    have hreached : Reached m c := by
      rcases hlies with ⟨f, hf, hfunction⟩ | ⟨d, hd, hreached⟩
      · rw [hancestors] at hf
        rw [h.isFunction_eq_false hfree (h.start.isAttached_of_up ho hup) hc
          (h.start.mem_ancestors_iff.1 hf)] at hfunction
        cases hfunction
      · rw [hancestors, List.find?_cons_of_pos (by exact hc)] at hd
        rwa [Option.some.inj hd]
    rcases h.stays_or_placed hfree hlt with ⟨hsame, -⟩ | ⟨d, x, f, e, hplaced⟩
    · exact absurd hsame (h.parent_ne hfree hcode hup hreached)
    · obtain rfl := Module.rightUnique_up hup hplaced.up
      rw [contextAround?, hancestors, List.findSome?_cons,
        ownContext?_of_reached hreached hplaced.name] at hcontext
      obtain rfl := Option.some.inj hcontext
      obtain ⟨hlookup, hentry⟩ := h.lookupTop?_eq hplaced
      rw [hlookup, Option.bind_some, hentry, hplaced.parent]
  · rename_i hin
    rcases h.stays_or_placed hfree hlt with ⟨hsame, -⟩ | ⟨c, x, f, e, hplaced⟩
    · exact hsame.symm
    · exact absurd ((Option.any_eq_true _ _).2 ⟨c, hplaced.up, hplaced.reached.isContainer⟩) hin

/-- **A return from contract code is lowered for the context around it.**

**Proof sketch.** The return is replaced by code for the context that was looked up, which is the
one around it at the start (`around?_eq`).  The code ends with an operation that is never reached;
such an operation ends its block in any module that was accepted. -/
theorem exists_loweredFor (h : Course m s t n become) (hfree : Unreserved m)
    (ho : m.isAttached o = true) (hkind : m.kind o = .sol .ret) (hlies : Lowerable m o) :
    ∃ context, contextAround? m o = some context ∧ LoweredFor m n context o := by
  have hlt := Module.op_lt_of_isAttached ho
  obtain ⟨f, hf, hfunction⟩ := h.exists_function hfree hlt hkind hlies
  obtain ⟨hparent, hreplaced, b, hb, hblock⟩ := h.replaced ho hkind hf hfunction
  have hsame := h.sameOp hlt
  have htb := hparent.trans hb
  obtain ⟨hattached, context, offset, length, haround, hoperands, hreturns⟩ := h.returns o
    (Module.op_lt_of_parent htb) (by rw [hsame.kind_eq, hkind]) hreplaced
  rw [h.around?_eq hfree ho hkind hf hfunction hattached] at haround
  obtain ⟨front, back, hops⟩ := List.append_of_mem
    ((h.finishes.lifts.linked.op_parent o b).1 htb)
  have hlisted : (n.block b).ops = front.flatMap become ++ (become o ++ back.flatMap become) := by
    rw [h.finishes.reworks.listed, hops, List.flatMap_append, List.flatMap_cons]
  have hstands : ∀ p ∈ become o, n.isAttached p = true := fun p hp =>
    h.finishes.linked.isAttached_of_parent ((h.finishes.linked.op_parent p b).2 (by
      rw [hlisted]
      exact List.mem_append_right _ (List.mem_append_left _ hp))) hblock
  refine ⟨context, haround, hreplaced.isAttached_eq_false, offset, length, b,
    front.flatMap become, become o, ?_, ?_, ?_, fun p hp => ⟨?_, hstands p hp,
      h.finishes.dialect_eq (hstands p hp)⟩, hreturns⟩
  · obtain ⟨_, hop⟩ := hsame
    rw [hop] at hoperands
    exact hoperands
  · rw [h.destination?_eq hfree ho hkind hlies haround, hb]
  · obtain ⟨init, call, stop, hcode, -, hstop, -⟩ := hreturns
    have hstop' := hstands stop (by rw [hcode]; simp)
    rw [low_of_dialect (h.finishes.dialect_eq hstop')] at hstop
    have hend : (n.block b).ops =
        (front.flatMap become ++ init ++ [call]) ++ stop :: back.flatMap become := by
      rw [hlisted, hcode]
      simp
    rw [hlisted, Module.eq_nil_of_isTerminator h.accepted h.finishes.linked hstop'
      (by rw [hstop]; rfl) hend, List.append_nil]
  · exact Nat.le_trans (Nat.le_trans h.assigns.retains.size_ops
      (Nat.le_of_eq h.finishes.lifts.size_ops.symm)) (hreplaced.new p hp).1

/-- Where no function is around an operation, the nearest container decides.

**Proof sketch.** Induction on the way up.  A container decides by its name, in both readings;
anything else that is no function leaves it to what is around it. -/
theorem contextAround?_of_not_isFunction (h : Course m s t n become) (ho : m.isAttached o = true)
    (hnone : ∀ g ∈ m.ancestors o, (m.kind g).isFunction = false) :
    contextAround? m o = containerContext? m o := by
  induction o using h.start.acyclic.induction with
  | _ o ih =>
    cases hq : m.parentOp? o with
    | none =>
      rw [contextAround?, containerContext?, h.start.ancestors_eq, hq]
      rfl
    | some q =>
      have hup : m.Up o q := hq
      have hattached := h.start.isAttached_of_up ho hup
      have haround := h.start.ancestors_of_up hup
      rw [haround, List.forall_mem_cons] at hnone
      cases hkind : (m.kind q).isContainer with
      | true =>
        obtain ⟨x, hx⟩ := h.exists_symName? hattached hkind
        simp [contextAround?, containerContext?, haround, ownContext?, hkind, hx]
      | false =>
        rw [contextAround?_of_up h.start hup hnone.1 hkind,
          containerContext?_of_up h.start hup hkind]
        exact ih q hup hattached hnone.2

/-- Code that stands in a function has the context of the function, or that of the nearest container
if the function is in no other one.

**Proof sketch.** By the marker of the function.  If it has one, the function decides.  Without
one, no function is around it, so that only the containers around it can decide
(`contextAround?_of_not_isFunction`). -/
theorem context_of_isFunction (h : Course m s t n become) (ho : m.isAttached o = true)
    (hcontext : contextAround? m o = some context) (hup : m.Up o f)
    (hfunction : (m.kind f).isFunction = true)
    (hnearest : marker? m f = none → ∀ g ∈ m.ancestors f, (m.kind g).isFunction = false) :
    (marker? m f).or (containerContext? m f) = some context := by
  have hplain := OpKind.isContainer_of_isFunction hfunction
  rw [contextAround?, h.start.ancestors_of_up hup, List.findSome?_cons] at hcontext
  cases hmarker : marker? m f with
  | some marked =>
    have hown : ownContext? m f = some marked := by
      simp [ownContext?, hplain, hfunction, contextOf?_eq, hmarker]
    rw [hown] at hcontext
    exact hcontext
  | none =>
    have hown : ownContext? m f = none ∨ ownContext? m f = containerContext? m f := by
      rw [ownContext?, hplain, hfunction, contextOf?_eq, hmarker]
      cases isTakenOut m f <;> simp
    have hrest := h.contextAround?_of_not_isFunction (h.start.isAttached_of_up ho hup)
      (hnearest hmarker)
    rw [Option.none_or]
    rcases hown with hown | hown
    · rw [hown] at hcontext
      exact hrest.symm.trans hcontext
    · rw [hown, ← contextAround?, hrest] at hcontext
      cases hc : containerContext? m f <;> rw [hc] at hcontext <;> exact hcontext

/-- **Where the nearest function decides alone.**

**Proof sketch.** Induction along the way up.  Up to the nearest function or container nothing
decides.  A container is in no function.  A function without a marker is in no other one, so that
the nearest container decides, whether through the function or by itself. -/
theorem eq_nearestContext (h : Course m s t n become) (hfree : Unreserved m)
    (ho : m.isAttached o = true) (hcontext : contextAround? m o = some context)
    (hnearest : DecidedByNearest m o) : context = nearestContext m o := by
  induction o using h.start.acyclic.induction with
  | _ o ih =>
    cases hq : m.parentOp? o with
    | none =>
      rw [contextAround?, h.start.ancestors_eq, hq] at hcontext
      cases hcontext
    | some q =>
      have hup : m.Up o q := hq
      have hattached := h.start.isAttached_of_up ho hup
      have haround := h.start.ancestors_of_up hup
      cases hfunction : (m.kind q).isFunction with
      | true =>
        have hfind : (m.ancestors o).find? (fun a => (m.kind a).isFunction) = some q := by
          rw [haround, List.find?_cons_of_pos (by exact hfunction)]
        have hfound := h.context_of_isFunction ho hcontext hup hfunction (hnearest q hfind)
        rw [nearestContext, hfind, Option.bind_some, containerContext?_of_up h.start hup
          (OpKind.isContainer_of_isFunction hfunction), hfound]
        rfl
      | false =>
        cases hkind : (m.kind q).isContainer with
        | true =>
          have hnone : ∀ g ∈ m.ancestors o, (m.kind g).isFunction = false := fun g hg =>
            h.isFunction_eq_false hfree hattached hkind
              (h.start.mem_ancestors_iff.1 (haround ▸ hg))
          have hfind : (m.ancestors o).find? (fun a => (m.kind a).isFunction) = none :=
            List.find?_eq_none.2 fun g hg => Bool.eq_false_iff.1 (hnone g hg)
          rw [h.contextAround?_of_not_isFunction ho hnone] at hcontext
          rw [nearestContext, hfind, hcontext]
          rfl
        | false =>
          have hfind : (m.ancestors o).find? (fun a => (m.kind a).isFunction) =
              (m.ancestors q).find? fun a => (m.kind a).isFunction := by
            rw [haround, List.find?_cons_of_neg (by simp [hfunction])]
          rw [contextAround?_of_up h.start hup hfunction hkind] at hcontext
          rw [nearestContext, hfind, containerContext?_of_up h.start hup hkind]
          exact ih q hup hattached hcontext fun f hf => hnearest f (hfind.trans hf)

end Course

/-! ## All returns -/

/-- **Every return is lowered for the context around it.**  Let a module be accepted whose body
declares no name of the ABI, and let its legalization succeed.  A return from contract code that is
in a function, or in a container that code is taken out of, has a context, and is lowered for it.
The context is that of the nearest function or container which decides one; it is decided by the
nearest function alone where that has a marker, or is in no other function. -/
theorem legalize_lowers_returns (hm : m.Linked) (hverify : m.verify = .ok ()) (hfree : Unreserved m)
    {stats : Conversion.Stats} (h : legalize.run m = .ok stats n) (ho : m.isAttached o = true)
    (hkind : m.kind o = .sol .ret) (hlies : Lowerable m o) :
    ∃ context, contextAround? m o = some context ∧ LoweredFor m n context o ∧
      (DecidedByNearest m o → context = nearestContext m o) := by
  obtain ⟨s, t, become, hcourse⟩ := exists_course hm hverify h
  obtain ⟨context, hcontext, hlowered⟩ := hcourse.exists_loweredFor hfree ho hkind hlies
  exact ⟨context, hcontext, hlowered, hcourse.eq_nearestContext hfree ho hcontext⟩

/-- A contract with runtime code that returns, and with a function that is marked as deploy code and
returns as well. -/
def returningContract : Builder :=
  [Command.build (.container .contract "X_deployed"), .build (.toEnd ⟨1⟩),
    .build (.func "f" ⟨[], []⟩), .setAttr ⟨1⟩ AttrName.isRuntime (.bool false),
    .build (.constant 32 .word), .build (.solReturn ⟨0⟩ ⟨0⟩), .build (.toEnd ⟨2⟩),
    .build (.constant 64 .word), .build (.solReturn ⟨1⟩ ⟨1⟩)].foldl
    (fun b c => c.run b) (.new (.new .unknown))

/-- The code of the contract returns as runtime code, and the function as deploy code.

**Proof sketch.** That the conversion ends is computed, and `legalize_lowers_returns` is applied
to the two returns, whose contexts are computed as well. -/
theorem returningContract_lowered :
    ∃ stats n, legalize.run returningContract.ir = .ok stats n ∧
      LoweredFor returningContract.ir n .runtime ⟨3⟩ ∧
      LoweredFor returningContract.ir n .deploy ⟨5⟩ := by
  have hm : returningContract.ir.Linked :=
    ((Builder.Reachable.new .unknown).foldl (by decide +kernel)).sound.linked
  have hverify : returningContract.ir.verify = .ok () := by decide +kernel
  have hfree : Unreserved returningContract.ir := by decide +kernel
  have hends : Outcome.endsIn legalize returningContract.ir (fun _ => true) = true := by
    decide +kernel
  obtain ⟨stats, n, h, -⟩ := Outcome.exists_of_endsIn hends
  obtain ⟨code, hcode, hlowered, -⟩ := legalize_lowers_returns (o := ⟨3⟩) hm hverify hfree h
    (by decide +kernel) (by decide +kernel) (by decide +kernel)
  obtain ⟨function, hfunction, hlowered', -⟩ :=
    legalize_lowers_returns (o := ⟨5⟩) hm hverify hfree h
      (by decide +kernel) (by decide +kernel) (by decide +kernel)
  have hruntime : contextAround? returningContract.ir ⟨3⟩ = some .runtime := by decide +kernel
  have hdeploy : contextAround? returningContract.ir ⟨5⟩ = some .deploy := by decide +kernel
  obtain rfl := Option.some.inj (hcode.symm.trans hruntime)
  obtain rfl := Option.some.inj (hfunction.symm.trans hdeploy)
  exact ⟨stats, n, h, hlowered, hlowered'⟩

/-- A return was not lowered for deploy code if nothing in the block where it ends up writes to
memory. -/
theorem not_loweredFor_deploy {b : BlockId} (hb : destination? m n .deploy o = some b)
    (hplain : ((n.block b).ops.all fun p => decide ((n.kind p).low ≠ .llvm .store)) = true) :
    ¬LoweredFor m n .deploy o := by
  rintro ⟨-, offset, length, b', front, code, -, hb', hops, -, init, call, stop, rfl, -, -,
    hperform⟩
  obtain rfl := Option.some.inj (hb.symm.trans hb')
  obtain ⟨t, hrun⟩ := hperform (fun _ => some (.number 0)) _ _ rfl rfl
  obtain ⟨p, hp, hstore⟩ := exists_store_of_perform hrun (List.mem_cons_self ..)
  have hmem : p ∈ (n.block b).ops := by
    rw [List.mem_append, List.mem_singleton] at hp
    rw [hops]
    simp only [List.mem_append, List.mem_cons]
    tauto
  exact of_decide_eq_true (List.all_eq_true.1 hplain p hmem) hstore

/-- A function with a marker, and in it a function without one which returns. -/
def nestedFunction : Builder :=
  [Command.build (.container .contract "X_deployed"),
    .build (.llvmFunc "f" ⟨[], []⟩ "private" true), .setAttr ⟨1⟩ AttrName.isRuntime (.bool true),
    .build (.toEnd ⟨2⟩), .build (.llvmFunc "g" ⟨[], []⟩ "private" true), .build .llvmUnreachable,
    .build (.toEnd ⟨3⟩), .build (.constant 0 .word), .build (.constant 32 .word),
    .build (.solReturn ⟨0⟩ ⟨1⟩)].foldl
    (fun b c => c.run b) (.new (.new .unknown))

/-- The nearest function does not decide alone: by it the return would be one of deploy code, but it
is lowered as one of runtime code. -/
theorem nestedFunction_not_loweredFor :
    ∃ stats n, nestedFunction.ir.Linked ∧ nestedFunction.ir.verify = .ok () ∧
      Unreserved nestedFunction.ir ∧ legalize.run nestedFunction.ir = .ok stats n ∧
      nestedFunction.ir.isAttached ⟨6⟩ = true ∧ nestedFunction.ir.kind ⟨6⟩ = .sol .ret ∧
      Lowerable nestedFunction.ir ⟨6⟩ ∧ nearestContext nestedFunction.ir ⟨6⟩ = .deploy ∧
      ¬LoweredFor nestedFunction.ir n (nearestContext nestedFunction.ir ⟨6⟩) ⟨6⟩ := by
  have hm : nestedFunction.ir.Linked :=
    ((Builder.Reachable.new .unknown).foldl (by decide +kernel)).sound.linked
  have hends : Outcome.endsIn legalize nestedFunction.ir (fun n =>
      (n.block ⟨3⟩).ops.all fun o => decide ((n.kind o).low ≠ .llvm .store)) = true := by
    decide +kernel
  obtain ⟨stats, n, h, hplain⟩ := Outcome.exists_of_endsIn hends
  have hnearest : nearestContext nestedFunction.ir ⟨6⟩ = .deploy := by decide +kernel
  refine ⟨stats, n, hm, by decide +kernel, by decide +kernel, h, by decide +kernel,
    by decide +kernel, by decide +kernel, hnearest, fun hlowered => ?_⟩
  have hblock : destination? nestedFunction.ir n .deploy ⟨6⟩ = some ⟨3⟩ := by
    rw [destination?, if_neg (by decide +kernel)]
    decide +kernel
  exact not_loweredFor_deploy hblock hplain (hnearest ▸ hlowered)

end ContractIR.EraVM
