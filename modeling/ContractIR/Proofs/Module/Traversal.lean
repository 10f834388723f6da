import ContractIR.Proofs.Print.Rows

/-!
# Traversals without a bound

The walk, the ancestors, the question whether an operation belongs to the tree and the search for a
symbol are computed with a bound on the depth of nesting.  Nothing but the links decides when they
could stop: a walk goes down until nothing is nested any more, and the way up goes on until nothing
is around.  Here each traversal is a relation between where it starts and what it ends with, which
holds of nothing if the traversal goes on for ever.  In a module whose links agree all of them end,
with what is computed under the bound.

## Main definitions

* `ContractIR.Module.Climbs`, `Settles`, `Resolves` — the ways up: for all ancestors, for the body,
  for a symbol.
* `ContractIR.Module.Lists` — the way down.

## Main results

* `ContractIR.Module.Climbs.not_transGen_self` — there is no end of the ancestors of an operation
  that is nested in itself.
* `ContractIR.Module.Linked.climbs`, `settles`, `resolves`, `lists` — what the traversals end with.
-/

set_option autoImplicit false

namespace ContractIR

namespace Module

/-! ## Traversals -/

/-- Going up from an operation ends after it met the operations of a list, nearest first. -/
inductive Climbs (m : Module) : OpId → List OpId → Prop where
  | top {o : OpId} (hnone : m.parentOp? o = none) : Climbs m o []
  | up {o p : OpId} {chain : List OpId} (hup : m.parentOp? o = some p) (hp : Climbs m p chain) :
    Climbs m o (p :: chain)

/-- Going up from an operation ends with the answer whether the body was met. -/
inductive Settles (m : Module) : OpId → Bool → Prop where
  | detached {o : OpId} (hnone : (m.op o).parent = none) : Settles m o false
  | body {o : OpId} {b : BlockId} (hb : (m.op o).parent = some b)
    (hbody : (m.block b).parent = body) : Settles m o true
  | unowned {o : OpId} {b : BlockId} (hb : (m.op o).parent = some b)
    (hbody : (m.block b).parent ≠ body) (hnone : (m.region (m.block b).parent).parent = none) :
    Settles m o false
  | up {o p : OpId} {b : BlockId} {answer : Bool} (hb : (m.op o).parent = some b)
    (hbody : (m.block b).parent ≠ body) (howner : (m.region (m.block b).parent).parent = some p)
    (hp : Settles m p answer) : Settles m o answer

/-- What a name means in the regions of an operation. -/
def symbolInside? (m : Module) (o : OpId) (name : String) : Option OpId :=
  if (m.kind o).isSymbolTable then (m.op o).regions.findSome? fun r => m.symbolIn? r name else none

/-- Searching a name from an operation outwards, or in the body if there is none, ends with a symbol
or without one. -/
inductive Resolves (m : Module) (name : String) : Option OpId → Option OpId → Prop where
  | top : Resolves m name none (m.lookupTop? name)
  | found {o f : OpId} (hfound : m.symbolInside? o name = some f) :
      Resolves m name (some o) (some f)
  | up {o : OpId} {answer : Option OpId} (hnone : m.symbolInside? o name = none)
    (hup : Resolves m name (m.parentOp? o) answer) : Resolves m name (some o) answer

/-- The operations directly inside an operation, in order. -/
def directlyInside (m : Module) (o : OpId) : List OpId :=
  (m.op o).regions.flatMap fun r => (m.region r).blocks.flatMap fun b => (m.block b).ops

/-- Walking down through some operations, one after the other, ends after it met the operations of a
list, each of them before those nested in it. -/
inductive Lists (m : Module) : List OpId → List OpId → Prop where
  | nil : Lists m [] []
  | cons {o : OpId} {rest below behind : List OpId} (hbelow : Lists m (m.directlyInside o) below)
    (hbehind : Lists m rest behind) : Lists m (o :: rest) (o :: (below ++ behind))

variable {m : Module}

/-! ## The ways up -/

/-- **An operation that is nested in itself has no last ancestor**: going up from it does not
end. -/
theorem Climbs.not_transGen_self {o : OpId} {chain : List OpId} (h : m.Climbs o chain) :
    ¬Relation.TransGen m.Up o o := by
  induction h with
  | top hnone =>
    intro hcycle
    obtain ⟨p, hup, -⟩ := Relation.TransGen.head'_iff.1 hcycle
    cases hnone.symm.trans hup
  | @up o p chain hup _ ih =>
    intro hcycle
    obtain ⟨q, hq, hqo⟩ := Relation.TransGen.head'_iff.1 hcycle
    obtain rfl : p = q := rightUnique_up hup hq
    exact ih (.tail' hqo hup)

/-! ## Walks -/

/-- Walks through two lists of operations make up the walk through both. -/
theorem Lists.append {ops ops' met met' : List OpId} (h : m.Lists ops met)
    (h' : m.Lists ops' met') : m.Lists (ops ++ ops') (met ++ met') := by
  induction h with
  | nil => exact h'
  | cons hbelow _ _ ih =>
    rw [List.cons_append, List.cons_append, List.append_assoc]
    exact .cons hbelow ih

/-- Walks through some operations make up the walk through all of them. -/
theorem Lists.flatMap {walk : OpId → List OpId} {ops : List OpId}
    (h : ∀ o ∈ ops, m.Lists [o] (walk o)) : m.Lists ops (ops.flatMap walk) := by
  induction ops with
  | nil => exact .nil
  | cons o ops ih =>
    obtain ⟨ho, hops⟩ := List.forall_mem_cons.1 h
    exact ho.append (ih hops)

/-- A walk of a region depends on the depth only as far as the walks below do. -/
theorem walkRegion_succ_congr {k l : Nat} {r : RegionId}
    (h : ∀ o, m.StandsIn o r → ∀ s ∈ (m.op o).regions, m.walkRegion k s = m.walkRegion l s) :
    m.walkRegion (k + 1) r = m.walkRegion (l + 1) r :=
  List.flatMap_congr fun b hb => List.flatMap_congr fun o ho =>
    congrArg (o :: ·) (List.flatMap_congr (h o ⟨b, hb, ho⟩))

namespace Linked

/-- What holds of an operation if it holds of the operation around it holds of all. -/
theorem around_induction (h : m.Linked) {P : OpId → Prop}
    (hP : ∀ o, (∀ p, m.Up o p → P p) → P o) (o : OpId) : P o :=
  h.acyclic.induction o hP

/-- **The way up ends**, and has met the ancestors. -/
theorem climbs (h : m.Linked) (o : OpId) : m.Climbs o (m.ancestors o) := by
  induction o using h.around_induction with
  | hP o ih =>
    rw [h.ancestors_eq]
    cases hup : m.parentOp? o with
    | none => exact .top hup
    | some p => exact .up hup (ih p hup)

/-- An operation belongs to the tree exactly if the one around it does. -/
theorem isAttached_eq_of_up (h : m.Linked) {o p : OpId} (hup : m.Up o p) :
    m.isAttached o = m.isAttached p := by
  rw [Bool.eq_iff_iff]
  refine ⟨fun ho => h.isAttached_of_up ho hup, fun hp => ?_⟩
  obtain ⟨q, hq, hpq⟩ := h.isAttached_iff.1 hp
  exact h.isAttached_iff.2 ⟨q, hq, hpq.head hup⟩

/-- **The way up to the body ends** with the answer whether the operation belongs to the tree.

**Proof sketch.** Induction from the outside inwards.  The climb stops where there is no block,
at the body, or at a region that no operation owns; otherwise it goes on from the operation
around, which settles with the same answer (`isAttached_eq_of_up`). -/
theorem settles (h : m.Linked) (o : OpId) : m.Settles o (m.isAttached o) := by
  induction o using h.around_induction with
  | hP o ih =>
    cases hb : (m.op o).parent with
    | none =>
      have hout : m.isAttached o = false := by
        rw [isAttached, depthBound, isAttachedWithin, hb]
      rw [hout]
      exact .detached hb
    | some b =>
      by_cases hbody : (m.block b).parent = body
      · have hin : m.isAttached o = true := by
          simp only [isAttached, depthBound, isAttachedWithin, hb, hbody, ↓reduceIte]
        rw [hin]
        exact .body hb hbody
      · cases howner : (m.region (m.block b).parent).parent with
        | none =>
          have hout : m.isAttached o = false := by
            simp only [isAttached, depthBound, isAttachedWithin, hb, hbody, howner, ↓reduceIte]
          rw [hout]
          exact .unowned hb hbody howner
        | some p =>
          have hup : m.Up o p := up_iff.2 ⟨b, hb, howner⟩
          rw [h.isAttached_eq_of_up hup]
          exact .up hb hbody howner (ih p hup)

/-- What a name means at an operation is what it means inside the operation around it, or at that
operation. -/
theorem lookup?_eq_of_up (h : m.Linked) {o p : OpId} (hup : m.Up o p) (name : String) :
    m.lookup? o name = (m.symbolInside? p name).or (m.lookup? p name) := by
  rw [lookup?, lookup?, h.ancestors_of_up hup, symbolInside?, List.filter_cons]
  by_cases htable : (m.kind p).isSymbolTable = true
  · rw [if_pos htable, if_pos htable, List.findSome?_cons]
    cases (m.op p).regions.findSome? fun r => m.symbolIn? r name <;> rfl
  · rw [if_neg htable, if_neg htable, Option.none_or]

/-- **The search for a name ends** with what it means at the operation. -/
theorem resolves (h : m.Linked) (o : OpId) (name : String) :
    m.Resolves name (m.parentOp? o) (m.lookup? o name) := by
  induction o using h.around_induction with
  | hP o ih =>
    cases hup : m.parentOp? o with
    | none =>
      have hnone : m.ancestors o = [] := by rw [h.ancestors_eq, hup]
      rw [lookup?_eq_lookupTop? (by simp [hnone])]
      exact .top
    | some p =>
      rw [h.lookup?_eq_of_up hup]
      cases hfound : m.symbolInside? p name with
      | none => exact .up hfound (ih p hup)
      | some f => exact .found hfound

/-! ## The way down -/

/-- What is directly inside an operation is in it. -/
theorem up_of_mem_directlyInside (h : m.Linked) {o p : OpId} (ho : o ∈ m.directlyInside p) :
    m.Up o p := by
  obtain ⟨r, hr, ho⟩ := List.mem_flatMap.1 ho
  obtain ⟨b, hb, ho⟩ := List.mem_flatMap.1 ho
  exact h.up_of_standsIn ⟨b, hb, ho⟩ hr

/-- **The walk of an operation** lists it, and then the walks of the operations directly inside. -/
theorem walkOp_eq (h : m.Linked) (o : OpId) :
    m.walkOp o = o :: (m.directlyInside o).flatMap m.walkOp := by
  rw [walkOp, directlyInside, List.flatMap_assoc]
  refine congrArg (o :: ·) (List.flatMap_congr fun r hr => ?_)
  have hdeeper : m.walkRegion m.depthBound r = m.walkRegion (m.depthBound + 1) r :=
    h.eq_of_depth (F := m.walkRegion) walkRegion_succ_congr hr (size_le_of_le le_rfl)
      (size_le_of_le (Nat.le_succ _))
  rw [hdeeper, List.flatMap_assoc]
  rfl

/-- **The walk of an operation ends.** -/
theorem lists (h : m.Linked) (o : OpId) : m.Lists [o] (m.walkOp o) := by
  induction o using h.inside_induction with
  | hP o ih =>
    have hbelow := Lists.flatMap fun p hp => ih p (h.up_of_mem_directlyInside hp)
    rw [h.walkOp_eq, ← List.append_nil ((m.directlyInside o).flatMap m.walkOp)]
    exact .cons hbelow .nil

end Linked

end Module

end ContractIR
