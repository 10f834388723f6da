import ContractIR.Proofs.Legalization.Relocating
import ContractIR.Proofs.Typing.Moves

/-!
# Where hoisting puts functions

Hoisting moves every function that is nested in a container of the body, at any depth, to the place
of the container, in the order of a walk, and then drops the container.  Nothing else moves.  This
holds of every module whose links agree.

## Main definitions

* `ContractIR.EraVM.functionsIn` — the functions in an operation, in the order of a walk.
* `ContractIR.EraVM.Lifts` — functions moved to the body, and containers of the body were dropped.

## Main results

* `ContractIR.Module.Linked.walkOp_congr` — a walk depends on what is inside.
* `ContractIR.EraVM.lifts_of_hoistFunctions` — the functions of one container.
* `ContractIR.EraVM.lifts_of_hoist` — where functions stand after hoisting, and in which order.
-/

set_option autoImplicit false

namespace ContractIR

namespace Module

variable {m n : Module}

/-! ## Walks -/

/-- **A walk depends on what is inside**: it stays the same where the blocks inside an operation
list what they listed. -/
theorem Linked.walkOp_congr (h : m.Linked) (hsize : n.ops.size = m.ops.size)
    (hregion : ∀ r, n.region r = m.region r)
    (hregions : ∀ o, (n.op o).regions = (m.op o).regions) {k : OpId}
    (hblocks : ∀ b p, m.owner? b = some p → m.Inside p k →
      (n.block b).ops = (m.block b).ops) : n.walkOp k = m.walkOp k := by
  have hdepth : n.depthBound = m.depthBound := congrArg (· + 1) hsize
  rw [walkOp, walkOp, hregions, hdepth]
  refine congrArg (k :: ·) (List.flatMap_congr fun r hr => ?_)
  refine walkRegion_congr (S := fun r => m.RegionInside r k) (fun r hr => ?_) _
    ⟨k, (h.region_parent r k).2 hr, .refl⟩
  obtain ⟨p, hp, hpk⟩ := hr
  refine ⟨hregion r, fun b hb => ?_⟩
  have howner : m.owner? b = some p := by
    rw [owner?, (h.block_parent b r (h.blocks_lt r b hb)).2 hb, hp]
  refine ⟨hblocks b p howner hpk, fun o ho => ⟨hregions o, fun s hs => ?_⟩⟩
  have hup : m.Up o p := up_iff_owner?.2 ⟨b, (h.op_parent o b).2 ho, howner⟩
  exact ⟨o, (h.region_parent s o).2 hs, .head hup hpk⟩

end Module

namespace EraVM

open ContractIR.Module (Retains)

variable {m n p : Module}

/-- The functions in an operation, in the order of a walk. -/
def functionsIn (m : Module) (k : OpId) : List OpId :=
  (m.walkOp k).filter fun o => (m.kind o).isFunction

/-! ## Functions that move and containers that are dropped -/

/-- A block outside of the body's first one that holds no functions. -/
def FunctionFree (m : Module) (b : BlockId) : Prop :=
  b ≠ m.bodyBlock ∧ ∀ o ∈ (m.block b).ops, (m.kind o).isFunction = false

/-- Operations stand where they stood, but for functions, which may have moved to the body, and for
containers of the body, which may have been dropped.  What stays in a block stays in order. -/
structure Lifts (m n : Module) : Prop where
  linked : n.Linked
  retains : Retains (FunctionFree m) m n
  size_ops : n.ops.size = m.ops.size
  parents : ∀ o : OpId, (n.op o).parent = (m.op o).parent ∨
    (m.kind o).isFunction = true ∧ (n.op o).parent = some m.bodyBlock ∨
    (m.kind o).isContainer = true ∧ (m.op o).parent = some m.bodyBlock ∧ (n.op o).parent = none
  thinned : ∀ b, b ≠ m.bodyBlock → (n.block b).ops.Sublist (m.block b).ops

namespace Lifts

/-- Nothing moves. -/
theorem refl (hm : m.Linked) : Lifts m m where
  linked := hm
  retains := .refl _ _
  size_ops := rfl
  parents _ := .inl rfl
  thinned _ _ := .refl _

/-- Lifting keeps the block of the body. -/
theorem bodyBlock_eq (h : Lifts m n) (hm : m.Linked) : n.bodyBlock = m.bodyBlock :=
  h.retains.bodyBlock_eq hm

/-- Lifting keeps the kinds of operations. -/
theorem kind_eq (h : Lifts m n) (o : OpId) : n.kind o = m.kind o := by
  by_cases ho : o.index < m.ops.size
  · exact (h.retains.ops o ho).kind_eq
  · rw [Module.kind, Module.kind, Module.op_of_le (Nat.not_lt.1 ho),
      Module.op_of_le (h.size_ops ▸ Nat.not_lt.1 ho)]

/-- Lifting keeps what operations own. -/
theorem regions_eq (h : Lifts m n) (o : OpId) : (n.op o).regions = (m.op o).regions := by
  by_cases ho : o.index < m.ops.size
  · exact (h.retains.ops o ho).regions_eq
  · rw [Module.op_of_le (Nat.not_lt.1 ho), Module.op_of_le (h.size_ops ▸ Nat.not_lt.1 ho)]

/-- Blocks without functions stay so. -/
theorem functionFree (h : Lifts m n) (hm : m.Linked) {b : BlockId} (hb : b.index < m.blocks.size)
    (hfree : FunctionFree m b) : FunctionFree n b := by
  refine ⟨by rw [h.bodyBlock_eq hm]; exact hfree.1, fun o ho => ?_⟩
  rw [h.retains.listed b hb hfree] at ho
  rw [h.kind_eq]
  exact hfree.2 o ho

/-- **Some functions move, and then some more.**

**Proof sketch.** Field by field.  An operation keeps its place in the second move and has that
of the first, or is a function that moved to the body, or a container that was dropped from it. -/
theorem trans (h : Lifts m n) (k : Lifts n p) (hm : m.Linked) : Lifts m p where
  linked := k.linked
  retains := h.retains.trans_of k.retains fun b hb hfree => h.functionFree hm hb hfree
  size_ops := k.size_ops.trans h.size_ops
  parents o := by
    have hbody := h.bodyBlock_eq hm
    have hkind := h.kind_eq o
    rcases k.parents o with hsame | ⟨hfunction, hmoved⟩ | ⟨hcontainer, hat, hdropped⟩
    · rw [hsame]
      exact h.parents o
    · rw [hkind] at hfunction
      rw [hbody] at hmoved
      exact .inr (.inl ⟨hfunction, hmoved⟩)
    · rw [hkind] at hcontainer
      rw [hbody] at hat
      refine .inr (.inr ⟨hcontainer, ?_, hdropped⟩)
      rcases h.parents o with hsame | ⟨hfunction, -⟩ | ⟨-, hat', -⟩
      · exact hsame ▸ hat
      · rw [OpKind.isContainer_of_isFunction hfunction] at hcontainer
        cases hcontainer
      · exact hat'
  thinned b hb := (k.thinned b (by rwa [h.bodyBlock_eq hm])).trans (h.thinned b hb)

/-- Ways up only get shorter. -/
theorem up_of_up (h : Lifts m n) (hm : m.Linked) (hbody : m.hasBody = true) {o q : OpId}
    (hup : n.Up o q) : m.Up o q := by
  obtain ⟨b, hb, howner⟩ := Module.up_iff_owner?.1 hup
  have hlt : b.index < m.blocks.size → n.owner? b = m.owner? b := h.retains.owner?_eq hm
  rcases h.parents o with hsame | ⟨-, hmoved⟩ | ⟨-, -, hdropped⟩
  · rw [hsame] at hb
    rw [hlt (hm.block_lt hb)] at howner
    exact Module.up_iff_owner?.2 ⟨b, hb, howner⟩
  · rw [hmoved] at hb
    cases hb
    rw [hlt (hm.bodyBlock_lt hbody), hm.owner?_bodyBlock hbody] at howner
    cases howner
  · rw [hdropped] at hb
    cases hb

/-- What is inside an operation was inside it. -/
theorem inside_of_inside (h : Lifts m n) (hm : m.Linked) (hbody : m.hasBody = true) {o q : OpId}
    (hin : n.Inside o q) : m.Inside o q :=
  Relation.ReflTransGen.mono (fun _ _ => h.up_of_up hm hbody) _ _ hin

/-- Lifting keeps the body. -/
theorem hasBody (h : Lifts m n) (hm : m.Linked) (hbody : m.hasBody = true) :
    n.hasBody = true := (h.retains.hasBody_eq hm).trans hbody

end Lifts

section Steps

variable {x k : OpId} {front back : List OpId} {a : Unit}

/-- A function moves to the place before a container of the body.

**Proof sketch.** The container is found behind `front`, so the function is put there, and only
its place changes.  The walk over an operation that the function is not inside of meets the same
blocks with the same lists (`walkOp_congr`). -/
theorem lifts_of_moveBefore (hm : m.Linked) (hbody : m.hasBody = true)
    (hops : (m.block m.bodyBlock).ops = front ++ k :: back)
    (hx : (m.kind x).isFunction = true) {b : BlockId} (hb : (m.op x).parent = some b)
    (hne : b ≠ m.bodyBlock) (h : (Module.moveBefore x k).run m = .ok a n) :
    Lifts m n ∧ (n.block m.bodyBlock).ops = front ++ x :: k :: back ∧
      (∀ o, o ≠ x → n.op o = m.op o) ∧
      ∀ k', ¬m.Inside x k' → n.walkOp k' = m.walkOp k' := by
  have hk : (m.op k).parent = some m.bodyBlock := (hm.op_parent k _).2 (by simp [hops])
  have hlt := hm.bodyBlock_lt hbody
  have hxlt := Module.op_lt_of_parent hb
  have hrest : (m.detachOp x).block m.bodyBlock = m.block m.bodyBlock := by
    rw [Module.block_detachOp, if_neg]
    rw [hb]
    exact fun hc => hne (Option.some.inj hc.1)
  have hindex : (m.detachOp x).indexOf? k = some front.length :=
    (hm.detachOp x).indexOf?_eq (b := m.bodyBlock) (by rw [hrest, hops])
  obtain ⟨b', hb', hn⟩ := Module.eq_of_moveBefore h
  obtain rfl := Option.some.inj (hk.symm.trans hb')
  rw [hindex] at hn
  have howner := hm.owner?_bodyBlock hbody
  have houtside : ¬m.RegionInside (m.block m.bodyBlock).parent x := by
    rintro ⟨o, ho, -⟩
    rw [Module.owner?, ho] at howner
    cases howner
  have hlinked : n.Linked := by
    rw [hn]
    exact hm.move hxlt hlt houtside _
  have hop : ∀ o, o ≠ x → n.op o = m.op o := by
    intro o ho
    rw [hn, Module.op_insertOp, if_neg fun hc => ho hc.1, Module.op_detachOp, if_neg ho]
  have hself : (n.op x).parent = some m.bodyBlock := by
    rw [hn, Module.op_insertOp, if_pos ⟨rfl, by rw [Module.size_ops_detachOp]; exact hxlt⟩]
  have hretains : Retains (fun y => y ≠ m.bodyBlock ∧ x ∉ (m.block y).ops) m n := by
    rw [hn]
    exact .of_move (fun y hy hc => hc.2 ((hm.op_parent x y).1 hy)) (fun hc => hc.1 rfl) _
  have hsize : n.ops.size = m.ops.size := by
    rw [hn, Module.size_ops_insertOp, Module.size_ops_detachOp]
  have hlifts : Lifts m n := by
    refine ⟨hlinked, hretains.weaken fun y hy => ⟨hy.1, fun hmem => ?_⟩, hsize, fun o => ?_,
      fun y hy => ?_⟩
    · rw [hy.2 x hmem] at hx
      cases hx
    · by_cases ho : o = x
      · rw [ho]
        exact .inr (.inl ⟨hx, hself⟩)
      · exact .inl (by rw [hop o ho])
    · rw [hn, Module.block_insertOp, if_neg fun hc => hy hc.1]
      exact Module.detachOp_sublist y
  refine ⟨hlifts, ?_, hop, fun k' hk' => ?_⟩
  · rw [hn, Module.block_insertOp, if_pos ⟨rfl, by rw [Module.size_blocks_detachOp]; exact hlt⟩,
      hrest]
    simp only [hops]
    exact Module.placeAt_append x (.inl rfl)
  · refine hm.walkOp_congr hsize
      (fun r => by rw [hn, Module.region_insertOp, Module.region_detachOp])
      hlifts.regions_eq fun y q hy hq =>
        hretains.listed y (hm.lt_of_owner? hy).1 ⟨?_, fun hmem => ?_⟩
    · rintro rfl
      rw [howner] at hy
      cases hy
    · exact hk' (.head (Module.up_iff_owner?.2 ⟨y, (hm.op_parent x y).2 hmem, hy⟩) hq)

/-- A container of the body is dropped.

**Proof sketch.** Erasing detaches: the container leaves the list of the body and its own place,
and nothing else changes.  The walk over an operation that the container is not inside of meets
the same blocks (`walkOp_congr`). -/
theorem lifts_of_eraseOp (hm : m.Linked) (hbody : m.hasBody = true)
    (hops : (m.block m.bodyBlock).ops = front ++ k :: back)
    (hk : (m.kind k).isContainer = true) (h : (Module.eraseOp k).run m = .ok a n) :
    Lifts m n ∧ (n.block m.bodyBlock).ops = front ++ back ∧ (∀ o, o ≠ k → n.op o = m.op o) ∧
      ∀ k', ¬m.Inside k k' → n.walkOp k' = m.walkOp k' := by
  obtain rfl := Module.eq_of_eraseOp h
  have hparent : (m.op k).parent = some m.bodyBlock := (hm.op_parent k _).2 (by simp [hops])
  have hretains : Retains (· ≠ m.bodyBlock) m (m.detachOp k) := by
    refine .of_detachOp fun b hb hne => hne ?_
    rw [hparent] at hb
    exact (Option.some.inj hb).symm
  have hlifts : Lifts m (m.detachOp k) := by
    refine ⟨hm.detachOp k, hretains.weaken fun _ => And.left, Module.size_ops_detachOp ..,
      fun o => ?_, fun y _ => Module.detachOp_sublist y⟩
    rw [Module.op_detachOp]
    split
    · rename_i ho
      rw [ho]
      exact .inr (.inr ⟨hk, hparent, rfl⟩)
    · exact .inl rfl
  refine ⟨hlifts, ?_, fun o ho => by rw [Module.op_detachOp, if_neg ho], fun k' hk' => ?_⟩
  · have hnodup := hm.ops_nodup m.bodyBlock
    rw [hops, List.nodup_middle, List.nodup_cons, List.mem_append, not_or] at hnodup
    rw [Module.block_detachOp, if_pos ⟨hparent, hm.bodyBlock_lt hbody⟩]
    simp only [hops, List.filter_append, List.filter_cons, ne_eq, not_true_eq_false, decide_false,
      Bool.false_eq_true, if_false]
    rw [filter_ne_eq hnodup.1.1, filter_ne_eq hnodup.1.2]
  · refine hm.walkOp_congr (Module.size_ops_detachOp ..) (Module.region_detachOp m k)
      hlifts.regions_eq fun y q hy hq => hretains.listed y (hm.lt_of_owner? hy).1 ?_
    rintro rfl
    rw [hm.owner?_bodyBlock hbody] at hy
    cases hy

/-- **Functions move to the place before a container**, in order.

**Proof sketch.** Induction along the functions.  Each is put between those that moved before and
the container.  Moving a function to the body puts nothing into an operation, so what was not inside
one is not inside it later on. -/
theorem lifts_of_hoistFunctions (hm : m.Linked) (hbody : m.hasBody = true)
    (hops : (m.block m.bodyBlock).ops = front ++ k :: back) {ids : List OpId}
    (hids : ∀ o ∈ ids, (m.kind o).isFunction = true ∧ ∃ q, m.Up o q) (hnodup : ids.Nodup)
    {count : Nat} (h : (hoistFunctions k ids).run m = .ok count n) :
    Lifts m n ∧ (n.block m.bodyBlock).ops = front ++ ids ++ k :: back ∧
      (∀ o, o ∉ ids → n.op o = m.op o) ∧
      ∀ k', (∀ o ∈ ids, ¬m.Inside o k') → n.walkOp k' = m.walkOp k' := by
  induction ids generalizing m front count with
  | nil =>
    cases h
    exact ⟨.refl hm, by simpa using hops, fun _ _ => rfl, fun _ _ => rfl⟩
  | cons x ids ih =>
    obtain ⟨hx, q, hup⟩ := hids x (by simp)
    obtain ⟨b, hb, howner⟩ := Module.up_iff_owner?.1 hup
    have hne : b ≠ m.bodyBlock := by
      rintro rfl
      rw [hm.owner?_bodyBlock hbody] at howner
      cases howner
    obtain ⟨-, p, rest, hmove, hrest⟩ := steps_of_hoistFunctions h
    obtain ⟨hmp, hlisted, hothers, hwalks⟩ :=
      lifts_of_moveBefore hm hbody hops hx hb hne hmove
    have hpbody := hmp.bodyBlock_eq hm
    have hids' : ∀ o ∈ ids, (p.kind o).isFunction = true ∧ ∃ q, p.Up o q := by
      intro o ho
      obtain ⟨hfunction, q', hq'⟩ := hids o (by simp [ho])
      have hox : o ≠ x := by
        rintro rfl
        exact (List.nodup_cons.1 hnodup).1 ho
      obtain ⟨y, hy, hyq⟩ := Module.up_iff_owner?.1 hq'
      refine ⟨by rw [hmp.kind_eq]; exact hfunction, q', Module.up_iff_owner?.2 ⟨y, ?_, ?_⟩⟩
      · rw [hothers o hox]
        exact hy
      · rw [hmp.retains.owner?_eq hm (hm.block_lt hy), hyq]
    have hplisted : (p.block p.bodyBlock).ops = (front ++ [x]) ++ k :: back := by
      rw [hpbody, hlisted]
      simp
    obtain ⟨hpn, hlisted', hothers', hwalks'⟩ := ih hmp.linked (hmp.hasBody hm hbody) hplisted hids'
      (List.nodup_cons.1 hnodup).2 hrest
    refine ⟨hmp.trans hpn hm, ?_, fun o ho => ?_, fun k' hk' => ?_⟩
    · rw [← hpbody, hlisted']
      simp
    · rw [List.mem_cons, not_or] at ho
      rw [hothers' o ho.2, hothers o ho.1]
    · rw [hwalks' k' fun o ho hin => hk' o (by simp [ho]) (hmp.inside_of_inside hm hbody hin),
        hwalks k' (hk' x (by simp))]

/-- The functions in an operation are inside it. -/
theorem mem_functionsIn (hm : m.Linked) {o : OpId} :
    o ∈ functionsIn m k ↔ m.Inside o k ∧ (m.kind o).isFunction = true := by
  rw [functionsIn, List.mem_filter, hm.mem_walkOp_iff]

/-- What is inside an operation of the body is not inside another one. -/
theorem not_inside_of_top (hm : m.Linked) {k' o : OpId} (hk : k ∈ (m.block m.bodyBlock).ops)
    (hk' : k' ∈ (m.block m.bodyBlock).ops) (hne : k' ≠ k) (hin : m.Inside o k) :
    ¬m.Inside o k' := by
  intro hin'
  refine hne (hm.root_unique hin' hin ?_)
  rw [Module.parentOp?_eq_owner? ((hm.op_parent k _).2 hk),
    Module.parentOp?_eq_owner? ((hm.op_parent k' _).2 hk')]

/-- Replacing members of a list, one of which was replaced before.

**Proof sketch.** Part by part: in front and behind, `k` does not occur, so the two conditions
agree; what `k` was replaced by are no containers and stay. -/
theorem flatMap_ite_cons {containers : List OpId} {f g : OpId → List OpId}
    (hfront : k ∉ front) (hback : k ∉ back) (hfg : ∀ o ∈ containers, g o = f o)
    (hk : ∀ o ∈ f k, o ∉ containers) :
    ((front ++ f k ++ back).flatMap fun o => if o ∈ containers then g o else [o]) =
      (front ++ k :: back).flatMap fun o => if o ∈ k :: containers then f o else [o] := by
  have hrest : ∀ ids : List OpId, k ∉ ids →
      (ids.flatMap fun o => if o ∈ containers then g o else [o]) =
        ids.flatMap fun o => if o ∈ k :: containers then f o else [o] := by
    intro ids hids
    refine List.flatMap_congr fun o ho => ?_
    have hok : o ≠ k := by
      rintro rfl
      exact hids ho
    by_cases hoc : o ∈ containers
    · rw [if_pos hoc, if_pos (by simp [hoc]), hfg o hoc]
    · rw [if_neg hoc, if_neg (by simp [hoc, hok])]
  have hmoved : ((f k).flatMap fun o => if o ∈ containers then g o else [o]) = f k := by
    rw [List.flatMap_congr fun o ho => if_neg (hk o ho)]
    exact List.flatMap_singleton' _
  rw [List.flatMap_append, List.flatMap_append, List.flatMap_append, List.flatMap_cons, hmoved,
    hrest front hfront, hrest back hback, if_pos (by simp), List.append_assoc]

/-- **Functions move out of containers of the body**, each to the place of its container.

**Proof sketch.** Induction along the containers.  Two of them have nothing in common, as both stand
in the body; so what moves out of one of them leaves the walk over the others. -/
theorem lifts_of_hoistFrom (hm : m.Linked) (hbody : m.hasBody = true) {containers : List OpId}
    (hcontainers : ∀ k ∈ containers, k ∈ (m.block m.bodyBlock).ops ∧ (m.kind k).isContainer = true)
    (hnodup : containers.Nodup) {count : Nat} (h : (hoistFrom containers).run m = .ok count n) :
    Lifts m n ∧ (n.block m.bodyBlock).ops = (m.block m.bodyBlock).ops.flatMap fun o =>
      if o ∈ containers then functionsIn m o else [o] := by
  induction containers generalizing m count with
  | nil =>
    cases h
    exact ⟨.refl hm, by simp⟩
  | cons k containers ih =>
    obtain ⟨hmem, hk⟩ := hcontainers k (by simp)
    obtain ⟨hkfresh, hrestNodup⟩ := List.nodup_cons.1 hnodup
    obtain ⟨front, back, hops⟩ := List.append_of_mem hmem
    obtain ⟨moved, p, q, rest, hhoist, herase, hrest⟩ := steps_of_hoistFrom h
    have hids : ∀ o ∈ functionsIn m k, (m.kind o).isFunction = true ∧ ∃ q, m.Up o q := by
      intro o ho
      obtain ⟨hin, hfunction⟩ := (mem_functionsIn hm).1 ho
      refine ⟨hfunction, ?_⟩
      rcases Relation.ReflTransGen.cases_head hin with rfl | ⟨r, hr, -⟩
      · rw [OpKind.isContainer_of_isFunction hfunction] at hk
        cases hk
      · exact ⟨r, hr⟩
    obtain ⟨hmp, hplisted, -, hpwalks⟩ := lifts_of_hoistFunctions hm hbody hops hids
      ((hm.nodup_walkOp k).filter _) hhoist
    have hpbody := hmp.bodyBlock_eq hm
    obtain ⟨hpq, hqlisted, -, hqwalks⟩ := lifts_of_eraseOp hmp.linked (hmp.hasBody hm hbody)
      (by rw [hpbody]; exact hplisted) (by rw [hmp.kind_eq]; exact hk) herase
    have hmq := hmp.trans hpq hm
    have hqbody := hmq.bodyBlock_eq hm
    rw [hpbody] at hqlisted
    -- The other containers still stand in the body, and have inside what they had.
    have hother : ∀ k' ∈ containers, k' ≠ k := by
      rintro k' hk' rfl
      exact hkfresh hk'
    have hapart : ∀ k' ∈ containers, ∀ o, m.Inside o k → ¬m.Inside o k' := fun k' hk' _ =>
      not_inside_of_top hm hmem (hcontainers k' (by simp [hk'])).1 (hother k' hk')
    have hfunctions : ∀ k' ∈ containers, functionsIn q k' = functionsIn m k' := by
      intro k' hk'
      have hwalk : q.walkOp k' = m.walkOp k' := by
        rw [hqwalks k' fun hin => hapart k' hk' k .refl (hmp.inside_of_inside hm hbody hin),
          hpwalks k' fun o ho => hapart k' hk' o ((mem_functionsIn hm).1 ho).1]
      rw [functionsIn, hwalk, functionsIn]
      exact List.filter_congr fun o _ => by rw [hmq.kind_eq]
    have hstill : ∀ k' ∈ containers,
        k' ∈ (q.block q.bodyBlock).ops ∧ (q.kind k').isContainer = true := by
      intro k' hk'
      obtain ⟨hmem', hkind'⟩ := hcontainers k' (by simp [hk'])
      rw [hops, List.mem_append, List.mem_cons] at hmem'
      have hne := hother k' hk'
      refine ⟨?_, by rw [hmq.kind_eq]; exact hkind'⟩
      rw [hqbody, hqlisted, List.mem_append, List.mem_append]
      tauto
    obtain ⟨hqn, hlisted⟩ := ih hmq.linked (hmq.hasBody hm hbody) hstill hrestNodup hrest
    refine ⟨hmq.trans hqn hm, ?_⟩
    have hkonce := hm.ops_nodup m.bodyBlock
    rw [hops, List.nodup_middle, List.nodup_cons, List.mem_append, not_or] at hkonce
    rw [hqbody, hqlisted] at hlisted
    rw [hlisted, hops]
    refine flatMap_ite_cons hkonce.1.1 hkonce.1.2 hfunctions fun o ho hoc => ?_
    have hcontainer := (hcontainers o (by simp [hoc])).2
    rw [OpKind.isContainer_of_isFunction ((mem_functionsIn hm).1 ho).2] at hcontainer
    cases hcontainer

/-- **Where hoisting puts functions**: in the body, those of each container at its place, in the
order of a walk.  The containers are dropped. -/
theorem lifts_of_hoist (hm : m.Linked) {count : Nat} (h : hoist.run m = .ok count n) :
    Lifts m n ∧ (n.block m.bodyBlock).ops = (m.block m.bodyBlock).ops.flatMap fun o =>
      if (m.kind o).isContainer then functionsIn m o else [o] := by
  obtain ⟨hbody, hfrom⟩ := steps_of_hoist h
  obtain ⟨hlifts, hlisted⟩ := lifts_of_hoistFrom hm hbody (fun k hk => List.mem_filter.1 hk)
    ((hm.ops_nodup _).filter _) hfrom
  refine ⟨hlifts, hlisted.trans (List.flatMap_congr fun o ho => ?_)⟩
  exact if_congr ⟨fun hk => (List.mem_filter.1 hk).2, fun hk => List.mem_filter.2 ⟨ho, hk⟩⟩ rfl rfl

end Steps

/-! ## The steps of legalization -/

/-- **Legalization that succeeds**, step by step. -/
theorem steps_of_legalize {stats : Conversion.Stats} (h : legalize.run m = .ok stats n) :
    ∃ p q count, lowerContainers.run m = .ok () p ∧ hoist.run p = .ok count q ∧
      (Conversion.convert lowLevelTarget (patterns (classify p))).run q = .ok stats n ∧
      n.verify = .ok () := by
  rw [legalize] at h
  obtain ⟨⟨⟩, p, hlower, h⟩ := Outcome.run_bind_eq_ok.1 h
  rw [Outcome.run_get_bind] at h
  obtain ⟨count, q, hhoist, h⟩ := Outcome.run_bind_eq_ok.1 h
  obtain ⟨stats', r, hconvert, h⟩ := Outcome.run_bind_eq_ok.1 h
  obtain ⟨_, r', hverified, hpure⟩ := Outcome.run_bind_eq_ok.1 h
  cases hpure
  rw [run_verified] at hverified
  split at hverified
  · rename_i hverify
    cases hverified
    exact ⟨p, q, count, hlower, hhoist, hconvert, hverify⟩
  · cases hverified

end EraVM

end ContractIR
