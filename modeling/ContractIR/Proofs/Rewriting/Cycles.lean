import ContractIR.Proofs.Module.Traversal
import ContractIR.Proofs.Rewriting.Moving

/-!
# Edits and cycles

What creates, places, moves and erases operations and blocks does not look whether something is put
into itself.  Each edit redirects some steps outwards: those of the operations that it moves, and
all of them to the owner of one region, or to nothing.  So an edit creates a cycle if and only if it
moves an operation around that region, and as long as no edit does so, no operation is nested in
itself.

## Main definitions

* `ContractIR.Module.Edit`, `Edit.Leads` — edits, and what a successful one leads to.
* `ContractIR.Module.Edit.moved`, `Edit.target` — what an edit moves, and to where.
* `ContractIR.Module.Edit.IntoItself` — something is moved into itself.
* `ContractIR.Module.Edited` — what edits lead to.

## Main results

* `ContractIR.Module.Redirects.exists_cycle` — when redirected steps form a cycle.
* `ContractIR.Module.Edit.Leads.redirects`, `linked` — what an edit changes, and what it keeps.
* `ContractIR.Module.no_cycle_unless_intoItself` — nesting does not become cyclic unless an edit
  puts something into itself, and then it does.
-/

set_option autoImplicit false

namespace ContractIR

namespace Module

variable {m n : Module}

/-! ## Redirected steps -/

/-- The steps outwards of some operations lead to the owner of a region now, if there is one, and
all other operations step out to where they did. -/
structure Redirects (m n : Module) (moved : List OpId) (target : Option RegionId) : Prop where
  up_moved : ∀ o ∈ moved, ∀ p, n.Up o p ↔ ∃ r ∈ target, (m.region r).parent = some p
  up_other : ∀ o, o ∉ moved → ∀ p, n.Up o p ↔ m.Up o p

namespace Redirects

variable {moved : List OpId} {target : Option RegionId}

/-- Operations are put into a block, or taken out of theirs. -/
theorem of_parent {b : Option BlockId} (hmoved : ∀ o ∈ moved, (n.op o).parent = b)
    (hother : ∀ o, o ∉ moved → (n.op o).parent = (m.op o).parent)
    (hblock : ∀ x, (n.block x).parent = (m.block x).parent)
    (hregion : ∀ r, (n.region r).parent = (m.region r).parent) :
    m.Redirects n moved (b.map fun x => (m.block x).parent) where
  up_moved o ho p := by
    rw [up_iff, hmoved o ho]
    simp only [hblock, hregion, Option.mem_def, Option.map_eq_some_iff, exists_exists_and_eq_and]
  up_other o ho p := by
    rw [up_iff, up_iff, hother o ho]
    simp only [hblock, hregion]

/-- If steps stay as they were, nothing is redirected. -/
theorem of_up_iff (h : ∀ o p, n.Up o p ↔ m.Up o p) : m.Redirects n [] none where
  up_moved _ ho := absurd ho List.not_mem_nil
  up_other o _ p := h o p

/-- Two redirections to the same region, one after the other. -/
theorem append {k : Module} {moved' : List OpId} (h : m.Redirects n moved target)
    (h' : n.Redirects k moved' target)
    (howner : ∀ r, (n.region r).parent = (m.region r).parent) :
    m.Redirects k (moved ++ moved') target where
  up_moved o ho p := by
    by_cases ho' : o ∈ moved'
    · rw [h'.up_moved o ho']
      simp only [howner]
    · rw [h'.up_other o ho', h.up_moved o ((List.mem_append.1 ho).resolve_right ho')]
  up_other o ho p := by
    obtain ⟨hfirst, hsecond⟩ := not_or.1 fun hor => ho (List.mem_append.2 hor)
    rw [h'.up_other o hsecond, h.up_other o hfirst]

/-- On the way out to an operation that is moved, the first one that is moved is reached after the
redirection, too. -/
theorem exists_reached (h : m.Redirects n moved target) {o p : OpId} (hop : m.Inside o p)
    (hp : p ∈ moved) : ∃ q ∈ moved, n.Inside o q := by
  induction hop using Relation.ReflTransGen.head_induction_on with
  | refl => exact ⟨p, hp, .refl⟩
  | @head x y hxy _ ih =>
    by_cases hx : x ∈ moved
    · exact ⟨x, hx, .refl⟩
    · obtain ⟨q, hq, hyq⟩ := ih
      exact ⟨q, hq, .head ((h.up_other x hx y).2 hxy) hyq⟩

/-- **Moving an operation into itself closes a cycle.** -/
theorem exists_cycle (h : m.Redirects n moved target) {o : OpId} (ho : o ∈ moved) {r : RegionId}
    (hr : r ∈ target) (hinside : m.RegionInside r o) : ∃ p, Relation.TransGen n.Up p p := by
  obtain ⟨c, hc, hco⟩ := hinside
  obtain ⟨q, hq, hcq⟩ := h.exists_reached hco ho
  exact ⟨c, .tail' hcq ((h.up_moved q hq c).2 ⟨r, hr, hc⟩)⟩

end Redirects

/-! ## Edits -/

/-- What creates, places, moves and erases operations and blocks. -/
inductive Edit where
  | createOp (spec : OpSpec) (location : Location)
  | appendBlock (region : RegionId) (argTypes : List Ty)
  | insertOp (block : BlockId) (index : Option Nat) (id : OpId)
  | detachOp (id : OpId)
  | takeBlocks (source target : RegionId)
  | eraseOp (id : OpId)
  | replaceOp (id : OpId) (values : List ValueId)
  | moveToEnd (id : OpId) (block : BlockId)
  | moveBefore (id anchor : OpId)
  | moveWhere (source target : BlockId) (test : Module → OpId → Bool)

namespace Edit

/-- The step of an edit. -/
def step : Edit → Rewrite Unit
  | .createOp spec location => modify fun m => (m.createOp spec location).2
  | .appendBlock region argTypes => modify fun m => (m.appendBlock region argTypes).2
  | .insertOp block index id => placeOp block index id
  | .detachOp id => modify fun m => m.detachOp id
  | .takeBlocks source target => modify fun m => m.takeBlocks source target
  | .eraseOp id => Module.eraseOp id
  | .replaceOp id values => Module.replaceOp id values
  | .moveToEnd id block => modify fun m => m.moveToEnd id block
  | .moveBefore id anchor => Module.moveBefore id anchor
  | .moveWhere source target test => modify fun m => (m.moveWhere source target test).2

/-- What an edit names exists. -/
def Named (m : Module) : Edit → Prop
  | .createOp spec _ => ∀ v ∈ spec.operands, m.HasValue v
  | .appendBlock region _ => m.HasRegion region
  | .insertOp block _ id | .moveToEnd id block => m.HasOp id ∧ m.HasBlock block
  | .detachOp id | .eraseOp id => m.HasOp id
  | .takeBlocks source target => m.HasRegion source ∧ m.HasRegion target
  | .replaceOp id values => m.HasOp id ∧ ∀ v ∈ values, m.HasValue v
  | .moveBefore id anchor => m.HasOp id ∧ m.HasOp anchor
  | .moveWhere source target _ => m.HasBlock source ∧ m.HasBlock target

instance (m : Module) (e : Edit) : Decidable (e.Named m) :=
  match e with
  | .createOp _ _ => inferInstanceAs (Decidable (∀ v ∈ _, _))
  | .appendBlock _ _ | .detachOp _ | .eraseOp _ => inferInstanceAs (Decidable (_ < _))
  | .insertOp _ _ _ | .moveToEnd _ _ | .takeBlocks _ _ | .moveBefore _ _ | .moveWhere _ _ _ =>
    inferInstanceAs (Decidable (_ ∧ _))
  | .replaceOp _ _ => inferInstanceAs (Decidable (_ ∧ ∀ v ∈ _, _))

/-- An edit that names what exists succeeds, and leads to another module. -/
structure Leads (m : Module) (e : Edit) (n : Module) : Prop where
  named : e.Named m
  run : e.step.run m = .ok () n

/-- The operations that an edit moves. -/
def moved (m : Module) : Edit → List OpId
  | .createOp _ _ | .appendBlock _ _ => []
  | .insertOp _ _ id | .detachOp id | .eraseOp id | .replaceOp id _ | .moveToEnd id _
  | .moveBefore id _ => [id]
  | .takeBlocks source _ => (m.region source).blocks.flatMap fun b => (m.block b).ops
  | .moveWhere source _ test => (m.block source).ops.filter (test m)

/-- The region that an edit moves operations to. -/
def target (m : Module) : Edit → Option RegionId
  | .createOp _ _ | .appendBlock _ _ | .detachOp _ | .eraseOp _ | .replaceOp _ _ => none
  | .insertOp block _ _ | .moveToEnd _ block | .moveWhere _ block _ => some (m.block block).parent
  | .takeBlocks _ region => some region
  | .moveBefore _ anchor => (m.op anchor).parent.map fun b => (m.block b).parent

/-- An edit moves an operation into itself: to a region inside the operation. -/
def IntoItself (m : Module) (e : Edit) : Prop :=
  ∃ o ∈ e.moved m, ∃ r ∈ e.target m, m.RegionInside r o

end Edit

/-- What edits lead to, starting with the smallest module, if each of them is allowed in the module
in which it is made. -/
inductive Edited (allowed : Module → Edit → Prop) : Module → Prop where
  | new (location : Location) : Edited allowed (Module.new location)
  | step {m n : Module} {e : Edit} (hm : Edited allowed m) (hallowed : allowed m e)
    (h : e.Leads m n) : Edited allowed n

/-! ## What edits do -/

/-- An operation that is replaced is taken out of its block after its results were renamed. -/
theorem eq_of_replaceOp {id : OpId} {values : List ValueId}
    (h : (replaceOp id values).run m = .ok () n) :
    n = (m.rewire ((m.op id).results.zip values)).detachOp id := by
  rw [run_replaceOp] at h
  split at h
  · exact eq_of_eraseOp h
  · cases h

section Redirected

variable {id : OpId}

/-- Taking an operation out of its block redirects it to nothing. -/
theorem redirects_detachOp (m : Module) (id : OpId) : m.Redirects (m.detachOp id) [id] none := by
  refine Redirects.of_parent (b := none) (fun o ho => ?_) (fun o ho => ?_) parent_block_detachOp
    fun r => ?_
  · rw [op_detachOp, if_pos (List.mem_singleton.1 ho)]
  · rw [op_detachOp_of_ne fun heq => ho (List.mem_singleton.2 heq)]
  · rw [region_detachOp]

/-- It is the same if other values were read before. -/
theorem redirects_detachOp_of_rewired (h : m.Rewired n) (id : OpId) :
    m.Redirects (n.detachOp id) [id] none where
  up_moved o ho p := by
    rw [(redirects_detachOp n id).up_moved o ho]
    simp
  up_other o ho p := by
    rw [(redirects_detachOp n id).up_other o ho, Up, Up, h.parentOp?]

/-- Putting an operation into a block redirects it to the region of the block. -/
theorem redirects_insertOp (hid : m.HasOp id) (b : BlockId) (index : Option Nat) :
    m.Redirects (m.insertOp b index id) [id] (some (m.block b).parent) := by
  refine Redirects.of_parent (b := some b) (fun o ho => ?_) (fun o ho => ?_) (fun x => ?_)
    fun _ => rfl
  · rw [op_insertOp, if_pos ⟨List.mem_singleton.1 ho, hid⟩]
  · rw [op_insertOp, if_neg fun hand => ho (List.mem_singleton.2 hand.1)]
  · rw [block_insertOp]
    split <;> rfl

/-- So does taking it out of its block first. -/
theorem redirects_move (hid : m.HasOp id) (b : BlockId) (index : Option Nat) :
    m.Redirects ((m.detachOp id).insertOp b index id) [id] (some (m.block b).parent) := by
  have hput := redirects_insertOp (m := m.detachOp id) (by simpa [HasOp] using hid) b index
  rw [parent_block_detachOp] at hput
  refine ⟨fun o ho p => ?_, fun o ho p => ?_⟩
  · rw [hput.up_moved o ho]
    simp only [region_detachOp]
  · rw [hput.up_other o ho, (redirects_detachOp m id).up_other o ho]

/-- Moving operations to the end of a block, one after the other, redirects all of them. -/
theorem redirects_foldl_moveToEnd (b : BlockId) (ids : List OpId) (hids : ∀ o ∈ ids, m.HasOp o) :
    m.Redirects (ids.foldl (fun k o => k.moveToEnd o b) m) ids (some (m.block b).parent) := by
  induction ids generalizing m with
  | nil => exact ⟨fun _ ho => absurd ho List.not_mem_nil, fun _ _ _ => .rfl⟩
  | cons id ids ih =>
    obtain ⟨hid, hids⟩ := List.forall_mem_cons.1 hids
    have hrest := ih (m := m.moveToEnd id b) fun o ho => by
      simpa [HasOp, moveToEnd] using hids o ho
    have hparent : ((m.moveToEnd id b).block b).parent = (m.block b).parent := by
      rw [moveToEnd, block_insertOp, apply_ite Block.parent, parent_block_detachOp, ite_self]
    rw [hparent] at hrest
    exact (redirects_move hid b none).append hrest fun r => by rw [region_insertOp, region_detachOp]

end Redirected

/-- Moving the blocks of a region redirects all operations in them to the other region. -/
theorem redirects_takeBlocks (hm : m.Linked) {source target : RegionId}
    (hsource : m.HasRegion source) (htarget : m.HasRegion target) :
    m.Redirects (m.takeBlocks source target)
      ((m.region source).blocks.flatMap fun b => (m.block b).ops) (some target) := by
  have howner : ∀ r, ((m.takeBlocks source target).region r).parent = (m.region r).parent :=
    fun r => by rw [region_takeBlocks m source target hsource htarget]
  refine ⟨fun o ho p => ?_, fun o ho p => ?_⟩
  · obtain ⟨b, hb, hmem⟩ := List.mem_flatMap.1 ho
    have hparent := (hm.op_parent o b).2 hmem
    rw [up_iff, op_takeBlocks, hparent]
    simp only [Option.some.injEq, exists_eq_left', block_takeBlocks, hb, hm.block_lt hparent,
      and_self, ↓reduceIte, howner, Option.mem_def]
  · rw [up_iff, up_iff, op_takeBlocks]
    refine exists_congr fun b => and_congr_right fun hparent => ?_
    have hb : b ∉ (m.region source).blocks := fun hb =>
      ho (List.mem_flatMap.2 ⟨b, hb, (hm.op_parent o b).1 hparent⟩)
    rw [block_takeBlocks, if_neg fun hand => hb hand.1, howner]

/-- A new operation is in no block, and nothing is in it. -/
theorem redirects_createOp (hm : m.Linked) (spec : OpSpec) (location : Location) :
    m.Redirects (m.createOp spec location).2 [] none := by
  refine .of_up_iff fun o p => ?_
  rw [up_iff, up_iff, parent_createOp]
  refine exists_congr fun b => and_congr_right fun hparent => ?_
  rw [block_createOp, region_createOp_of_lt _ _ _ (hm.parent_lt (hm.block_lt hparent))]

/-- Nothing is in a new block. -/
theorem redirects_appendBlock (hm : m.Linked) (r : RegionId) (argTypes : List Ty) :
    m.Redirects (m.appendBlock r argTypes).2 [] none := by
  refine .of_up_iff fun o p => ?_
  rw [up_iff, up_iff, op_appendBlock]
  refine exists_congr fun b => and_congr_right fun hparent => ?_
  have hne : b ≠ ⟨m.blocks.size⟩ := by
    rintro rfl
    exact Nat.lt_irrefl _ (hm.block_lt hparent)
  rw [block_appendBlock, if_neg hne, parent_region_appendBlock]

/-- Whether an edit moves something into itself is seen from what is around the region. -/
theorem Edit.not_intoItself_iff (hm : m.Linked) {e : Edit} :
    ¬e.IntoItself m ↔ ∀ o ∈ e.moved m, ∀ r ∈ e.target m, o ∉ m.around r := by
  simp only [IntoItself, hm.mem_around_iff, not_exists, not_and]

namespace Edit.Leads

variable {e : Edit}

/-- **What an edit does to nesting.**

**Proof sketch.** One case for each edit.  A successful run gives the module afterwards
(`eq_of_placeOp`, `eq_of_eraseOp` and the like), and the lemma about the command says which
operations it moves and where to. -/
theorem redirects (hm : m.Linked) (h : e.Leads m n) : m.Redirects n (e.moved m) (e.target m) := by
  obtain ⟨hnamed, hrun⟩ := h
  cases e with
  | createOp spec location =>
    cases hrun
    exact redirects_createOp hm spec location
  | appendBlock region argTypes =>
    cases hrun
    exact redirects_appendBlock hm region argTypes
  | insertOp block index id =>
    obtain ⟨-, rfl⟩ := eq_of_placeOp hrun
    exact redirects_insertOp hnamed.1 block index
  | detachOp id =>
    cases hrun
    exact redirects_detachOp m id
  | takeBlocks source target =>
    cases hrun
    exact redirects_takeBlocks hm hnamed.1 hnamed.2
  | eraseOp id =>
    rw [eq_of_eraseOp hrun]
    exact redirects_detachOp m id
  | replaceOp id values =>
    rw [eq_of_replaceOp hrun]
    exact redirects_detachOp_of_rewired (m.rewired_rewire ((m.op id).results.zip values)) id
  | moveToEnd id block =>
    cases hrun
    exact redirects_move hnamed.1 block none
  | moveBefore id anchor =>
    obtain ⟨b, hb, rfl⟩ := eq_of_moveBefore hrun
    rw [target, hb]
    exact redirects_move hnamed.1 b _
  | moveWhere source target test =>
    cases hrun
    exact redirects_foldl_moveToEnd target _ fun o ho => hm.ops_lt (List.mem_filter.1 ho).1

/-- **An edit that moves nothing into itself keeps the links.**

**Proof sketch.** One case for each edit, by the lemma that its command keeps the links.  The
placing commands ask that their target is not inside what they place, which is what `hinto` says
(`hout`). -/
theorem linked (hm : m.Linked) (h : e.Leads m n) (hinto : ¬e.IntoItself m) : n.Linked := by
  obtain ⟨hnamed, hrun⟩ := h
  have hout : ∀ o ∈ e.moved m, ∀ r ∈ e.target m, ¬m.RegionInside r o :=
    fun o ho r hr hin => hinto ⟨o, ho, r, hr, hin⟩
  cases e with
  | createOp spec location =>
    cases hrun
    exact hm.createOp spec location hnamed
  | appendBlock region argTypes =>
    cases hrun
    exact hm.appendBlock hnamed argTypes
  | insertOp block index id =>
    obtain ⟨hdetached, rfl⟩ := eq_of_placeOp hrun
    exact hm.insertOp hnamed.2 index hnamed.1 hdetached (hout id (.head _) _ rfl)
  | detachOp id =>
    cases hrun
    exact hm.detachOp id
  | takeBlocks source target =>
    cases hrun
    exact hm.takeBlocks hnamed.1 hnamed.2 fun b hb o ho =>
      hout o (List.mem_flatMap.2 ⟨b, hb, ho⟩) target rfl
  | eraseOp id =>
    rw [eq_of_eraseOp hrun]
    exact hm.detachOp id
  | replaceOp id values =>
    have hkept := preserves_replaceOp id hnamed.2 m ⟨hm, Nat.le_refl m.blocks.size, Nat.le_refl _⟩
    rw [leave, show (Module.replaceOp id values).run m = .ok () n from hrun] at hkept
    exact hkept.linked
  | moveToEnd id block =>
    cases hrun
    exact hm.move hnamed.1 hnamed.2 (hout id (.head _) _ rfl) none
  | moveBefore id anchor =>
    obtain ⟨b, hb, rfl⟩ := eq_of_moveBefore hrun
    exact hm.move hnamed.1 (hm.block_lt hb) (hout id (.head _) _ (by rw [target, hb]; rfl)) _
  | moveWhere source target test =>
    cases hrun
    exact hm.foldl_moveToEnd hnamed.2 _ (fun o ho => hm.ops_lt (List.mem_filter.1 ho).1) fun o ho =>
      hout o ho _ rfl

/-- **An edit makes nesting cyclic if and only if it moves something into itself.** -/
theorem exists_cycle_iff (hm : m.Linked) (h : e.Leads m n) :
    (∃ o, Relation.TransGen n.Up o o) ↔ e.IntoItself m := by
  constructor
  · rintro ⟨o, hcycle⟩
    exact Classical.byContradiction fun hinto => (h.linked hm hinto).not_transGen_self o hcycle
  · rintro ⟨o, ho, r, hr, hin⟩
    exact (h.redirects hm).exists_cycle ho hr hin

end Edit.Leads

/-! ## Sequences of edits -/

/-- Sequences of edits keep the links if none of them moves anything into itself. -/
theorem Edited.linked (h : Edited (fun m e => ¬e.IntoItself m) m) : m.Linked := by
  induction h with
  | new location => exact .new location
  | step _ hinto h ih => exact h.linked ih hinto

/-- **Nesting does not become cyclic unless an edit moves something into itself.**  In every module
to which edits lead that move no operation into itself, no operation is nested in itself.  So from
every operation the ways up, for its ancestors, for the body and for a symbol, and its walk end,
with what is computed under the bound.  The condition cannot be dropped for any edit: one that
succeeds after such edits leads to a module in which some operation is nested in itself exactly if
it moves an operation into itself.

**Proof sketch.** An edit redirects the steps outwards of the operations that it moves to the owner
of one region (`Edit.Leads.redirects`).  If none of them is around this region, the links stay as
they should be (`Edit.Leads.linked`), and nesting is well founded, so that the traversals end
(`Linked.climbs` and what follows it).  If some of them are, the way out from the region is the same
as before up to the first of them, which now steps out to where the way began
(`Redirects.exists_cycle`). -/
theorem no_cycle_unless_intoItself (h : Edited (fun m e => ¬e.IntoItself m) m) :
    (∀ o, ¬Relation.TransGen m.Up o o ∧ m.Climbs o (m.ancestors o) ∧ m.Settles o (m.isAttached o) ∧
      (∀ name, m.Resolves name (m.parentOp? o) (m.lookup? o name)) ∧ m.Lists [o] (m.walkOp o)) ∧
    ∀ (e : Edit) (n : Module), e.Leads m n →
      ((∃ o, Relation.TransGen n.Up o o) ↔ e.IntoItself m) := by
  have hm := h.linked
  exact ⟨fun o => ⟨hm.not_transGen_self o, hm.climbs o, hm.settles o, hm.resolves o, hm.lists o⟩,
    fun _ _ hleads => hleads.exists_cycle_iff hm⟩

/-- A contract in the body, with one empty block. -/
def contractShell : Module :=
  (((Module.new .unknown).createOp { kind := .sol .contract, regions := 1 } .unknown).2.appendBlock
    ⟨1⟩ []).2.insertOp ⟨0⟩ none ⟨0⟩

/-- The traversals of the contract end, and they would not end any more only if the contract was
moved into itself.

**Proof sketch.** The shell is built by three edits, none of which moves something into itself,
so `no_cycle_unless_intoItself` applies to it; what its traversals list is computed. -/
theorem contractShell_acyclic :
    Edited (fun m e => ¬e.IntoItself m) contractShell ∧
      contractShell.Climbs ⟨0⟩ [] ∧ contractShell.Settles ⟨0⟩ true ∧
      contractShell.Lists [⟨0⟩] [⟨0⟩] ∧
      ∀ (e : Edit) (n : Module), e.Leads contractShell n →
        ((∃ o, Relation.TransGen n.Up o o) ↔ e.IntoItself contractShell) := by
  have hnew : Edited (fun m e => ¬e.IntoItself m) (Module.new .unknown) := .new .unknown
  have hcreated := hnew.step (e := .createOp { kind := .sol .contract, regions := 1 } .unknown)
    ((Edit.not_intoItself_iff hnew.linked).2 (by decide +kernel)) ⟨by decide +kernel, rfl⟩
  have happended := hcreated.step (e := .appendBlock ⟨1⟩ [])
    ((Edit.not_intoItself_iff hcreated.linked).2 (by decide +kernel)) ⟨by decide +kernel, rfl⟩
  have hedited : Edited (fun m e => ¬e.IntoItself m) contractShell :=
    happended.step (e := .insertOp ⟨0⟩ none ⟨0⟩)
      ((Edit.not_intoItself_iff happended.linked).2 (by decide +kernel)) ⟨by decide +kernel, rfl⟩
  obtain ⟨hends, hsharp⟩ := no_cycle_unless_intoItself hedited
  obtain ⟨-, hclimbs, hsettles, -, hlists⟩ := hends ⟨0⟩
  have hancestors : contractShell.ancestors ⟨0⟩ = [] := by decide +kernel
  have hattached : contractShell.isAttached ⟨0⟩ = true := by decide +kernel
  have hwalk : contractShell.walkOp ⟨0⟩ = [⟨0⟩] := by decide +kernel
  rw [hancestors] at hclimbs
  rw [hattached] at hsettles
  rw [hwalk] at hlists
  exact ⟨hedited, hclimbs, hsettles, hlists, hsharp⟩

/-- A contract that stands in its own block. -/
def selfNested : Module :=
  (((Module.new .unknown).createOp { kind := .sol .contract, regions := 1 } .unknown).2.appendBlock
    ⟨1⟩ []).2.insertOp ⟨1⟩ none ⟨0⟩

/-- The contract can be put there: it is nested in itself then, and the way up from it does not
end. -/
theorem selfNested_cycle :
    Edited (fun _ _ => True) selfNested ∧ selfNested.HasOp ⟨0⟩ ∧
      Relation.TransGen selfNested.Up ⟨0⟩ ⟨0⟩ ∧ ¬∃ chain, selfNested.Climbs ⟨0⟩ chain := by
  have hnew : Edited (fun _ _ => True) (Module.new .unknown) := .new .unknown
  have hcreated :=
    hnew.step (e := .createOp { kind := .sol .contract, regions := 1 } .unknown) trivial
      ⟨by decide +kernel, rfl⟩
  have happended := hcreated.step (e := .appendBlock ⟨1⟩ []) trivial ⟨by decide +kernel, rfl⟩
  have hedited : Edited (fun _ _ => True) selfNested :=
    happended.step (e := .insertOp ⟨1⟩ none ⟨0⟩) trivial ⟨by decide +kernel, rfl⟩
  have hcycle : Relation.TransGen selfNested.Up ⟨0⟩ ⟨0⟩ :=
    .single (show selfNested.parentOp? ⟨0⟩ = some ⟨0⟩ by decide +kernel)
  exact ⟨hedited, by decide +kernel, hcycle, fun ⟨_, hclimbs⟩ => hclimbs.not_transGen_self hcycle⟩

end Module

end ContractIR
