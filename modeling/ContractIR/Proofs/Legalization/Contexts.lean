import ContractIR.Proofs.Legalization.Finishing
import ContractIR.Proofs.Lowering.Calls
import Mathlib.Data.List.Find

/-!
# The context that a return is lowered for

Whether a return from contract code is one of deploy code or of runtime code is decided while the
tree changes: functions are classified when code was taken out of containers and before they are
hoisted, and a return looks for the nearest function around it that was classified when everything
has been moved.  Here the outcome is said of the tree that legalization starts from.  An operation
around the return decides: a container by its name, a function by its marker, and a function without
one by the name of the nearest container around it, if there is one and the function stays in it.
The nearest operation that decides is the one that counts.

## Main definitions

* `ContractIR.EraVM.isTakenOut` — an operation is inside code that is taken out of a container.
* `ContractIR.EraVM.ownContext?`, `contextAround?` — the context that an operation decides, and the
  context of an operation.
* `ContractIR.EraVM.Unreserved` — the body declares no name of the ABI.
* `ContractIR.EraVM.Placed` — code that went to the function for the code of its context.

## Main results

* `ContractIR.EraVM.Course.get?_classify` — functions are classified as they decide.
* `ContractIR.EraVM.Course.findSome?_get?_eq`, `Course.findSome?_hoisted_eq` — what is around an
  operation decides the same on the way.
-/

set_option autoImplicit false

namespace ContractIR.EraVM

variable {m s t n : Module} {become : OpId → List OpId} {o k c f : OpId}

/-! ## Contexts before legalization -/

/-- Which containers code is taken out of can be computed. -/
instance (m : Module) (c : OpId) : Decidable (Reached m c) :=
  decidable_of_iff (c ∈ topContainers m ∨ (m.kind c).isContainer = true ∧
    ∃ d ∈ topContainers m, m.parentOp? c = some d ∧
      (m.symName? d).any (fun x => !CodeContext.isRuntimeName x) = true) <| by
    simp [Reached, Module.Up, Option.any_eq_true]

/-- Whether an operation is inside code that is taken out of its container. -/
def isTakenOut (m : Module) (o : OpId) : Bool :=
  (o :: m.ancestors o).any fun k =>
    isCode m k && (m.parentOp? k).any fun c => decide (Reached m c)

/-- The context that the marker of a function says. -/
def marker? (m : Module) (f : OpId) : Option CodeContext :=
  ((m.attr? f AttrName.isRuntime).bind Attr.bool?).map CodeContext.ofMarker

/-- The context that the name of the nearest container around an operation says. -/
def containerContext? (m : Module) (o : OpId) : Option CodeContext :=
  (((m.ancestors o).find? fun a => (m.kind a).isContainer).bind m.symName?).map
    CodeContext.ofContainer

/-- The context that an operation decides for the code in it.  A container goes by its name.  A
function goes by its marker, else by the name of the nearest container around it, but not if it is
taken out of that container with the code around it.  Other operations decide nothing. -/
def ownContext? (m : Module) (a : OpId) : Option CodeContext :=
  if (m.kind a).isContainer then (m.symName? a).map CodeContext.ofContainer
  else if (m.kind a).isFunction then
    if isTakenOut m a then marker? m a else contextOf? m a
  else none

/-- The context of an operation: that of the nearest operation around it which decides one. -/
def contextAround? (m : Module) (o : OpId) : Option CodeContext :=
  (m.ancestors o).findSome? (ownContext? m)

/-- An operation is taken out as code, or with the operation around it. -/
theorem isTakenOut_eq (hm : m.Linked) (o : OpId) :
    isTakenOut m o =
      match m.parentOp? o with
      | some q => isCode m o && decide (Reached m q) || isTakenOut m q
      | none => false := by
  rw [isTakenOut, hm.ancestors_eq]
  cases hq : m.parentOp? o with
  | none => simp [hq]
  | some q =>
    rw [List.any_cons, hq]
    rfl

/-- An operation that is no container has the same nearest container around it as what is in it. -/
theorem containerContext?_of_up (hm : m.Linked) {q : OpId} (hup : m.Up o q)
    (hkind : (m.kind q).isContainer = false) : containerContext? m o = containerContext? m q := by
  rw [containerContext?, hm.ancestors_of_up hup, List.find?_cons_of_neg (by simp [hkind])]
  rfl

/-- An operation that is neither a function nor a container decides nothing. -/
theorem contextAround?_of_up (hm : m.Linked) {q : OpId} (hup : m.Up o q)
    (hfunction : (m.kind q).isFunction = false) (hkind : (m.kind q).isContainer = false) :
    contextAround? m o = contextAround? m q := by
  have hown : ownContext? m q = none := by
    rw [ownContext?, hkind, hfunction]
    rfl
  rw [contextAround?, hm.ancestors_of_up hup, List.findSome?_cons, hown]
  rfl

/-- Containers that code is taken out of go by their names. -/
theorem ownContext?_of_reached (hc : Reached m c) {x : String} (hx : m.symName? c = some x) :
    ownContext? m c = some (CodeContext.ofContainer x) := by
  rw [ownContext?, if_pos hc.isContainer, hx]
  rfl

/-! ## Classification -/

/-- Looking up a key among entries that are made from keys.

**Proof sketch.** Induction on the keys.  A key without an entry is passed over; the entry of a
key is found exactly by that key. -/
theorem find?_filterMap_key {g : OpId → Option (OpId × CodeContext)}
    (hg : ∀ p e, g p = some e → e.1 = p) (ids : List OpId) (o : OpId) :
    ((ids.filterMap g).find? fun e => decide (e.1 = o)).map Prod.snd =
      if o ∈ ids then (g o).map Prod.snd else none := by
  induction ids with
  | nil => rfl
  | cons p ids ih =>
    cases hp : g p with
    | none =>
      rw [List.filterMap_cons_none hp, ih]
      by_cases ho : o = p
      · subst ho
        simp [hp]
      · simp [ho]
    | some e =>
      rw [List.filterMap_cons_some hp]
      by_cases ho : o = p
      · subst ho
        simp [hg o e hp, hp]
      · have hne : e.1 ≠ o := by
          rw [hg p e hp]
          exact Ne.symm ho
        rw [List.find?_cons_of_neg (by simpa using hne), ih]
        simp [ho]

/-- The functions of the tree are classified, and nothing else is. -/
theorem get?_classify (hs : s.Linked) (o : OpId) :
    (classify s).get? o =
      if s.isAttached o = true ∧ (s.kind o).isFunction = true then contextOf? s o else none := by
  rw [Contexts.get?, classify, find?_filterMap_key]
  · by_cases ho : s.isAttached o = true
    · rw [if_pos (hs.mem_walk_iff.2 ho)]
      by_cases hf : (s.kind o).isFunction = true
      · simp [ho, hf, Function.comp_def]
      · simp [hf]
    · rw [if_neg fun hmem => ho (hs.mem_walk_iff.1 hmem), if_neg fun h => ho h.1]
  · intro p e he
    split at he
    · obtain ⟨_, -, rfl⟩ := Option.map_eq_some_iff.1 he
      rfl
    · cases he

/-- The context of a function is that of its marker, or of the name of the nearest container. -/
theorem contextOf?_eq (m : Module) (f : OpId) :
    contextOf? m f = (marker? m f).or (containerContext? m f) := rfl

/-- The context of a function depends on the function and on what is around it. -/
theorem contextOf?_congr (ho : m.SameOp s o) (haround : s.ancestors o = m.ancestors o)
    (hold : ∀ a ∈ m.ancestors o, m.SameOp s a) : contextOf? s o = contextOf? m o := by
  have hmarker : marker? s o = marker? m o := by
    rw [marker?, ho.attr?_eq]
    rfl
  have hfind : (m.ancestors o).find? (fun a => (s.kind a).isContainer) =
      (m.ancestors o).find? fun a => (m.kind a).isContainer :=
    List.find?_congr fun a ha => by rw [(hold a ha).kind_eq]
  have hname : ∀ a ∈ (m.ancestors o).find? (fun a => (m.kind a).isContainer),
      s.symName? a = m.symName? a := fun a ha => (hold a (List.mem_of_find?_eq_some ha)).symName?_eq
  rw [contextOf?_eq, contextOf?_eq, hmarker, containerContext?, haround, hfind,
    Option.bind_congr' rfl hname]
  rfl

/-- A function with containers around it has a context, if the containers have names.

**Proof sketch.** If there were none, the nearest container would have no name; there is a
nearest one, since `c` is around the function. -/
theorem contextOf?_ne_none (hm : m.Linked) (hfunction : (m.kind o).isFunction = true)
    (hc : m.Inside o c) (hkind : (m.kind c).isContainer = true)
    (hnamed : ∀ d, m.Inside o d → (m.kind d).isContainer = true → ∃ x, m.symName? d = some x) :
    contextOf? m o ≠ none := by
  intro hnone
  rw [contextOf?_eq, Option.or_eq_none_iff, containerContext?, Option.map_eq_none_iff,
    Option.bind_eq_none_iff] at hnone
  cases hfind : (m.ancestors o).find? fun a => (m.kind a).isContainer with
  | none =>
    have hmem : c ∈ m.ancestors o := by
      rcases List.mem_cons.1 (hm.mem_ancestors_iff.2 hc) with rfl | hmem
      · rw [OpKind.isContainer_of_isFunction hfunction] at hkind
        cases hkind
      · exact hmem
    exact List.find?_eq_none.1 hfind c hmem hkind
  | some d =>
    have hd := hm.mem_ancestors_iff.1 (List.mem_cons_of_mem o (List.mem_of_find?_eq_some hfind))
    obtain ⟨x, hx⟩ := hnamed d hd (by simpa using List.find?_some hfind)
    rw [hnone.2 d hfind] at hx
    cases hx

/-- A function for code has the context of the code. -/
theorem contextOf?_of_isRoutineFunction {name : String} {context : CodeContext}
    (h : IsRoutineFunction s name context f) : contextOf? s f = some context := by
  have hmarker : marker? s f = some context := by
    rw [marker?, Module.attr?, h.2, AttrDict.get?_set, if_pos rfl]
    cases context <;> rfl
  rw [contextOf?_eq, hmarker]
  rfl

/-! ## Code that was taken out -/

/-- No symbol of the body has a name that the ABI declares. -/
def Unreserved (m : Module) : Prop :=
  ∀ o, m.StandsIn o Module.body → ∀ x, m.symName? o = some x → isReserved x = false

/-- Whether the names of the body are free can be computed. -/
instance (m : Module) : Decidable (Unreserved m) :=
  decidable_of_iff (∀ b ∈ (m.region Module.body).blocks, ∀ o ∈ (m.block b).ops,
    (m.symName? o).all (fun x => !isReserved x) = true) <| by
    simp only [Unreserved, Module.StandsIn, Option.all_eq_true, Bool.not_eq_true']
    exact ⟨fun h o ⟨b, hb, ho⟩ => h b hb o ho, fun h b hb o ho => h o ⟨b, hb, ho⟩⟩

/-- The ABI declares the names of both functions for code. -/
theorem isReserved_routineName (context : CodeContext) :
    isReserved (routineName context) = true := by
  cases context <;> decide

/-- No container of the body goes by the name of a function for code if no symbol has a reserved
name. -/
theorem Unreserved.unclaimed (h : Unreserved m) : Unclaimed m := by
  intro c hc _ x hx hroutine
  have hreserved : isReserved x = true := by
    rcases hroutine with rfl | rfl
    · exact isReserved_routineName .deploy
    · exact isReserved_routineName .runtime
  rw [h c hc x hx] at hreserved
  cases hreserved

/-- An operation was code of a container, and stands in the function for the code of the container's
context. -/
structure Placed (m s : Module) (k c : OpId) (x : String) (f : OpId) (b : BlockId) : Prop where
  code : isCode m k = true
  up : m.Up k c
  reached : Reached m c
  name : m.symName? c = some x
  parent : (s.op k).parent = some b
  holds : HoldsCode s (CodeContext.ofContainer x) f b
  routine : IsRoutineFunction s (routineName (CodeContext.ofContainer x))
    (CodeContext.ofContainer x) f

namespace Placed

variable {x : String} {b : BlockId}

/-- The function that code was placed in is around it. -/
theorem up_routine (h : Placed m s k c x f b) (hs : s.Linked) : s.Up k f :=
  Module.up_iff_owner?.2 ⟨b, h.parent, h.holds.owner?_eq hs⟩

/-- Code is placed in a function. -/
theorem isFunction (h : Placed m s k c x f b) : (s.kind f).isFunction = true := by
  rw [h.routine.1]
  rfl

/-- The function for the code has the context of the container. -/
theorem get?_classify (h : Placed m s k c x f b) (hs : s.Linked) :
    (classify s).get? f = some (CodeContext.ofContainer x) := by
  have hattached := hs.isAttached_iff.2 ⟨f, h.holds.stands, .refl⟩
  rw [EraVM.get?_classify hs, if_pos ⟨hattached, h.isFunction⟩,
    contextOf?_of_isRoutineFunction h.routine]

end Placed

namespace Course

/-- The rule of containers holds for those of the tree. -/
theorem verifyContainer (h : Course m s t n become) (hc : m.isAttached c = true)
    (hkind : (m.kind c).isContainer = true) : m.verifyContainer c = .ok () :=
  Module.verifyContainer_of_verifyOp
    (Module.of_verify h.verified (h.start.mem_walk_iff.2 hc)).1 hkind

/-- Code does not stay in a container that it is taken out of.

**Proof sketch.** The container is one of the body or a runtime object, and splitting cleared its
entry block of code (`relocates_of_lowerContainers`).  Code that stayed would stand in it. -/
theorem parent_ne (h : Course m s t n become) (hfree : Unreserved m) (hcode : isCode m k = true)
    (hup : m.Up k c) (hc : Reached m c) : (s.op k).parent ≠ (m.op k).parent := by
  intro hsame
  obtain ⟨-, hemptied⟩ := relocates_of_lowerContainers ⟨h.start, h.body, hfree.unclaimed⟩ h.split
  have hentry : ∀ {o c}, m.Up o c → Reached m c → m.entryBlock? c = (m.op o).parent :=
    fun hup hc => Module.entryBlock?_of_verifyContainer
      (h.verifyContainer (hc.isAttached h.start h.body) hc.isContainer) h.start hup
  obtain ⟨b, hb, -⟩ := Module.up_iff_owner?.1 hup
  have hcb := (hentry hup hc).trans hb
  have hcleared : Cleared s b := by
    rcases hc with htop | ⟨hkind, d, hd, hcd, x, hx, hdeploy⟩
    · exact (hemptied c htop).own b hcb
    · obtain ⟨e, he, -⟩ := Module.up_iff_owner?.1 hcd
      exact (hemptied d hd).objects x hx hdeploy e ((hentry hcd (.inl hd)).trans he) c
        ((h.start.op_parent c e).1 he) hkind b hcb
  have hstays := hcleared k ((h.assigns.linked.op_parent k b).1 (hsame.trans hb))
  rw [h.assigns.shifts.isCode_eq (Module.op_lt_of_parent hb), hcode] at hstays
  cases hstays

/-- What stays in its block stays in the operation around it. -/
theorem parentOp?_eq (h : Course m s t n become) (hsame : (s.op o).parent = (m.op o).parent) :
    s.parentOp? o = m.parentOp? o :=
  Option.ext fun _ => h.assigns.shifts.up_iff h.start hsame

/-- **An operation stays where it was, or is taken out** as code of a container.

**Proof sketch.** An operation that was not assigned to a function keeps its place, and is then
no code of a container that is reached (`parent_ne`).  One that was assigned stands in a function
whose name is reserved, which is therefore new. -/
theorem stays_or_placed (h : Course m s t n become) (hfree : Unreserved m)
    (ho : o.index < m.ops.size) :
    ((s.op o).parent = (m.op o).parent ∧ ∀ q, m.Up o q → isTakenOut m o = isTakenOut m q) ∨
      ∃ c x f b, Placed m s o c x f b := by
  rcases h.assigns.parents o ho with
    hsame | ⟨hcode, c, x, context, f, b, hup, hc, hx, hb, hholds, hcx⟩
  · refine .inl ⟨hsame, fun q hq => ?_⟩
    rw [isTakenOut_eq h.start o, show m.parentOp? o = some q from hq]
    by_cases hout : isCode m o = true ∧ Reached m q
    · exact absurd hsame (h.parent_ne hfree hout.1 hq hout.2)
    · simp only [Bool.or_eq_right_iff_imp, Bool.and_eq_true, decide_eq_true_eq]
      exact fun hboth => absurd hboth hout
  · obtain rfl := hcx hfree.unclaimed
    refine .inr ⟨c, x, f, b, hcode, hup, hc, hx, hb, hholds, ?_⟩
    -- A function of this name is not old, as its name is reserved.
    have hnew : m.ops.size ≤ f.index := by
      by_contra hold
      have hlt := Nat.not_le.1 hold
      have hfree' := hfree f (h.assigns.standsIn_of_standsIn h.start hlt hholds.stands) _
        (by rw [← (h.assigns.retains.ops f hlt).symName?_eq, hholds.name])
      rw [isReserved_routineName] at hfree'
      cases hfree'
    exact h.assigns.routines f hnew (h.assigns.linked.lt_of_owner?
      (hholds.owner?_eq h.assigns.linked)).2 hholds.stands hholds.symbol _ hholds.name

/-- What is around an operation that is not taken out stays around it. -/
theorem ancestors_eq (h : Course m s t n become) (hfree : Unreserved m) (ho : o.index < m.ops.size)
    (hout : isTakenOut m o = false) : s.ancestors o = m.ancestors o := by
  induction o using h.start.acyclic.induction with
  | _ o ih =>
    rcases h.stays_or_placed hfree ho with ⟨hparent, hsame⟩ | ⟨c, x, f, b, hplaced⟩
    · rw [h.assigns.linked.ancestors_eq, h.start.ancestors_eq, h.parentOp?_eq hparent]
      split
      · rename_i q hq
        obtain ⟨_, -, howner⟩ := Module.up_iff_owner?.1 (show m.Up o q from hq)
        rw [ih q hq (h.start.lt_of_owner? howner).2 ((hsame q hq).symm.trans hout)]
      · rfl
    · rw [isTakenOut_eq h.start, show m.parentOp? o = some c from hplaced.up] at hout
      simp [hplaced.reached, hplaced.code] at hout

/-- **What is taken out is inside a function for code.** -/
theorem exists_routine (h : Course m s t n become) (hfree : Unreserved m)
    (ho : o.index < m.ops.size) (hout : isTakenOut m o = true) :
    ∃ f, s.Inside o f ∧ (s.kind f).isFunction = true ∧ s.StandsIn f Module.body := by
  induction o using h.start.acyclic.induction with
  | _ o ih =>
    rcases h.stays_or_placed hfree ho with ⟨hparent, hsame⟩ | ⟨c, x, f, b, hplaced⟩
    · cases hq : m.parentOp? o with
      | none =>
        rw [isTakenOut_eq h.start, hq] at hout
        cases hout
      | some q =>
        obtain ⟨_, -, howner⟩ := Module.up_iff_owner?.1 (show m.Up o q from hq)
        obtain ⟨f, hf⟩ := ih q hq (h.start.lt_of_owner? howner).2 ((hsame q hq).symm.trans hout)
        exact ⟨f, .head ((h.parentOp?_eq hparent).trans hq) hf.1, hf.2⟩
    · exact ⟨f, .single (hplaced.up_routine h.assigns.linked), hplaced.isFunction,
        hplaced.holds.stands⟩

/-- Nothing that is inside a function of the body is inside a container. -/
theorem isContainer_eq_false (h : Course m s t n become) (ho : s.isAttached o = true)
    (hf : s.Inside o f) (hfunction : (s.kind f).isFunction = true)
    (hstands : s.StandsIn f Module.body) {a : OpId} (ha : s.Inside o a) :
    (s.kind a).isContainer = false := by
  refine Bool.eq_false_iff.2 fun hkind => ?_
  rcases Relation.ReflTransGen.total_of_right_unique Module.rightUnique_up hf ha with hfa | haf
  · rcases hfa.cases_head with rfl | ⟨q, hq, -⟩
    · rw [OpKind.isContainer_of_isFunction hfunction] at hkind
      cases hkind
    · rw [Module.Up, h.assigns.linked.parentOp?_of_standsIn hstands, h.assigns.linked.body_parent]
        at hq
      cases hq
  · have hnone := (h.finishes.exists_topContainer (fun o r => h.kind_ne_of_up)
      (h.assigns.linked.isAttached_of_inside ho ha) hkind).2 f haf
    rw [hfunction] at hnone
    cases hnone

/-- Containers are in no function.

**Proof sketch.** What is around a container in the end is no function (`exists_topContainer`).
A container is not taken out, since it would be inside a function then; so the operations around
it are those of before. -/
theorem isFunction_eq_false (h : Course m s t n become) (hfree : Unreserved m)
    (hc : m.isAttached c = true) (hkind : (m.kind c).isContainer = true) (hf : m.Inside c f) :
    (m.kind f).isFunction = false := by
  have hlt := Module.op_lt_of_isAttached hc
  have hplain := (h.finishes.exists_topContainer (fun o r => h.kind_ne_of_up)
    ((h.assigns.isAttached_iff h.start h.body hlt).2 hc) (by rw [h.assigns.kind_eq hlt, hkind])).2
  cases hout : isTakenOut m c with
  | true =>
    obtain ⟨g, hg, hfunction, -⟩ := h.exists_routine hfree hlt hout
    rw [hplain g hg] at hfunction
    cases hfunction
  | false =>
    rcases List.mem_cons.1 (h.start.mem_ancestors_iff.2 hf) with rfl | hmem
    · refine Bool.eq_false_iff.2 fun hfunction => ?_
      rw [OpKind.isContainer_of_isFunction hfunction] at hkind
      cases hkind
    · have hflt := h.start.index_lt_of_mem_ancestorsWithin hmem
      rw [← h.ancestors_eq hfree hlt hout] at hmem
      rw [← h.assigns.kind_eq hflt]
      exact hplain f (h.assigns.linked.mem_ancestors_iff.1 (List.mem_cons_of_mem c hmem))

/-- **Functions are classified as they decide**, and nothing else that is no container decides.

**Proof sketch.** By whether the function was taken out.  If so, no container is around it
afterwards, and only its marker decides; if not, the operations around it are those of before,
with their names and kinds. -/
theorem get?_classify (h : Course m s t n become) (hfree : Unreserved m)
    (ho : m.isAttached o = true) (hkind : (m.kind o).isContainer = false) :
    (classify s).get? o = ownContext? m o := by
  have hlt := Module.op_lt_of_isAttached ho
  have hattached := (h.assigns.isAttached_iff h.start h.body hlt).2 ho
  rw [EraVM.get?_classify h.assigns.linked, h.assigns.kind_eq hlt, ownContext?, hkind]
  simp only [hattached, true_and, Bool.false_eq_true, if_false]
  split
  · split
    · -- Around a function that was taken out there is no container.
      rename_i hout
      obtain ⟨f, hf, hfunction, hstands⟩ := h.exists_routine hfree hlt hout
      have hnone : (s.ancestors o).find? (fun a => (s.kind a).isContainer) = none :=
        List.find?_eq_none.2 fun a ha => Bool.eq_false_iff.1 (h.isContainer_eq_false hattached hf
          hfunction hstands (h.assigns.linked.mem_ancestors_iff.1 (List.mem_cons_of_mem o ha)))
      rw [contextOf?_eq, containerContext?, hnone, marker?,
        (h.assigns.retains.ops o hlt).attr?_eq, Option.bind_none, Option.map_none, Option.or_none]
      rfl
    · rename_i hout
      exact contextOf?_congr (h.assigns.retains.ops o hlt)
        (h.ancestors_eq hfree hlt (Bool.eq_false_iff.2 hout)) fun a ha =>
          h.assigns.retains.ops a (h.start.index_lt_of_mem_ancestorsWithin ha)
  · rfl

/-- Containers of the tree have names. -/
theorem exists_symName? (h : Course m s t n become) (hc : m.isAttached c = true)
    (hkind : (m.kind c).isContainer = true) : ∃ x, m.symName? c = some x :=
  Module.exists_symName?_of_verifyContainer (h.verifyContainer hc hkind)

/-- A function around which there is a container, and which is not taken out, decides a context. -/
theorem ownContext?_ne_none (h : Course m s t n become) (ho : m.isAttached o = true)
    (hfunction : (m.kind o).isFunction = true) (hout : isTakenOut m o = false)
    (hc : m.Inside o c) (hkind : (m.kind c).isContainer = true) : ownContext? m o ≠ none := by
  rw [ownContext?, OpKind.isContainer_of_isFunction hfunction, hfunction, hout, if_neg nofun,
    if_pos rfl, if_neg nofun]
  exact contextOf?_ne_none h.start hfunction hc hkind fun d hd hkind =>
    h.exists_symName? (h.start.isAttached_of_inside ho hd) hkind

/-- What is around an operation decides one context before and after code is taken out, if a
function is around the operation afterwards, or no container before.

**Proof sketch.** Induction along the way up.  Code that is taken out goes from a container to a
function that decides what the container does.  A function that decides nothing is taken out, or is
in no container; in both cases the search goes on as before. -/
theorem findSome?_get?_eq (h : Course m s t n become) (hfree : Unreserved m)
    (ho : m.isAttached o = true)
    (haround : (∃ f, s.Inside o f ∧ (s.kind f).isFunction = true) ∨
      ∀ c, m.Inside o c → (m.kind c).isContainer = false) :
    (o :: s.ancestors o).findSome? (classify s).get? =
      (o :: m.ancestors o).findSome? (ownContext? m) := by
  induction o using h.start.acyclic.induction with
  | _ o ih =>
    obtain ⟨b, hb⟩ := Module.exists_parent_of_isAttached ho
    have hlt := Module.op_lt_of_parent hb
    have hattached := (h.assigns.isAttached_iff h.start h.body hlt).2 ho
    have hkind : (m.kind o).isContainer = false := by
      rcases haround with ⟨f, hf, hfunction⟩ | hnone
      · refine Bool.eq_false_iff.2 fun hkind => ?_
        rw [← h.assigns.kind_eq hlt] at hkind
        have hplain := (h.finishes.exists_topContainer (fun o r => h.kind_ne_of_up) hattached
          hkind).2 f hf
        rw [hfunction] at hplain
        cases hplain
      · exact hnone o .refl
    rw [List.findSome?_cons, List.findSome?_cons, h.get?_classify hfree ho hkind]
    cases hown : ownContext? m o with
    | some context => rfl
    | none =>
      rw [h.assigns.linked.ancestors_eq, h.start.ancestors_eq]
      rcases h.stays_or_placed hfree hlt with ⟨hparent, hsame⟩ | ⟨c, x, f, b, hplaced⟩
      · rw [h.parentOp?_eq hparent]
        cases hq : m.parentOp? o with
        | none => rfl
        | some q =>
          refine ih q hq (h.start.isAttached_of_up ho hq) ?_
          rcases haround with ⟨f, hf, hfunction⟩ | hnone
          · rcases hf.cases_head with rfl | ⟨q', hq', hf⟩
            · rw [h.assigns.kind_eq hlt] at hfunction
              cases hout : isTakenOut m o with
              | true =>
                obtain ⟨_, -, howner⟩ := Module.up_iff_owner?.1 (show m.Up o q from hq)
                obtain ⟨g, hg, hfunction, -⟩ := h.exists_routine hfree
                  (h.start.lt_of_owner? howner).2 ((hsame q hq).symm.trans hout)
                exact .inl ⟨g, hg, hfunction⟩
              | false =>
                refine .inr fun c hc => Bool.eq_false_iff.2 fun hkind => ?_
                exact h.ownContext?_ne_none ho hfunction hout (.head hq hc) hkind hown
            · obtain rfl := Module.rightUnique_up ((h.parentOp?_eq hparent).trans hq) hq'
              exact .inl ⟨f, hf, hfunction⟩
          · exact .inr fun c hc => hnone c (.head hq hc)
      · have hc := ownContext?_of_reached hplaced.reached hplaced.name
        have hf := hplaced.get?_classify h.assigns.linked
        rw [show s.parentOp? o = some f from hplaced.up_routine h.assigns.linked,
          show m.parentOp? o = some c from hplaced.up]
        simp only [List.findSome?_cons, hc, hf]

/-- Functions of containers are classified. -/
theorem get?_classify_ne_none (h : Course m s t n become) (hfunction : (s.kind o).isFunction = true)
    (hc : c ∈ topContainers s) (hin : s.Inside o c) : (classify s).get? o ≠ none := by
  have hattached := h.assigns.linked.isAttached_iff.2
    ⟨c, standsIn_of_mem_topContainers h.finishes.body hc, hin⟩
  rw [EraVM.get?_classify h.assigns.linked, if_pos ⟨hattached, hfunction⟩]
  refine contextOf?_ne_none h.assigns.linked hfunction hin (mem_topContainers.1 hc).2
    fun d hd hkind => ?_
  have hdattached := h.assigns.linked.isAttached_of_inside hattached hd
  have hlt := h.assigns.lt_of_isContainer (Module.op_lt_of_isAttached hdattached) hkind
  rw [(h.assigns.retains.ops d hlt).symName?_eq]
  exact h.exists_symName? ((h.assigns.isAttached_iff h.start h.body hlt).1 hdattached)
    (by rw [← h.assigns.kind_eq hlt]; exact hkind)

/-- What is around an operation of the tree decides one context before and after functions are
hoisted.

**Proof sketch.** Induction along the way up after hoisting.  The way ends early where a function
was hoisted, but such a function decides. -/
theorem findSome?_hoisted_eq (h : Course m s t n become) (ho : t.isAttached o = true) :
    (o :: t.ancestors o).findSome? (classify s).get? =
      (o :: s.ancestors o).findSome? (classify s).get? := by
  have hlifts := h.finishes.lifts
  induction o using hlifts.linked.acyclic.induction with
  | _ o ih =>
    rw [List.findSome?_cons, List.findSome?_cons]
    cases hown : (classify s).get? o with
    | some context => rfl
    | none =>
      rw [hlifts.linked.ancestors_eq, h.assigns.linked.ancestors_eq]
      cases hq : t.parentOp? o with
      | some q =>
        rw [show s.parentOp? o = some q from hlifts.up_of_up h.assigns.linked h.finishes.body hq]
        exact ih q hq (hlifts.linked.isAttached_of_up ho hq)
      | none =>
        suffices hnone : s.parentOp? o = none by rw [hnone]
        obtain ⟨b, hb, hmem⟩ := hlifts.linked.standsIn_body ho hq
        have hparent := (hlifts.linked.op_parent o b).2 hmem
        rw [hlifts.retains.region_body h.assigns.linked] at hb
        rcases hlifts.parents o with hsame | ⟨hfunction, hmoved⟩ | ⟨-, -, hdropped⟩
        · rw [Module.parentOp?_eq_owner? (hsame.symm.trans hparent),
            h.assigns.linked.owner?_of_mem_body hb]
        · have hlisted := (hlifts.linked.op_parent o _).1 hmoved
          rw [h.finishes.listed, List.mem_flatMap] at hlisted
          obtain ⟨c, hc, hlisted⟩ := hlisted
          split at hlisted
          · rename_i hkind
            exact absurd hown (h.get?_classify_ne_none hfunction (mem_topContainers.2 ⟨hc, hkind⟩)
              ((mem_functionsIn h.assigns.linked).1 hlisted).1)
          · rw [List.mem_singleton] at hlisted
            rw [hlisted, Module.parentOp?_eq_owner? ((h.assigns.linked.op_parent c _).2 hc),
              h.assigns.linked.owner?_bodyBlock h.finishes.body]
        · rw [hparent] at hdropped
          cases hdropped

end Course

end ContractIR.EraVM
