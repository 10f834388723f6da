import ContractIR.Proofs.Legalization.Declaring
import ContractIR.Proofs.Legalization.Generating

/-!
# Where code moves

While the containers of a module are split, symbols join its body, and code moves out of containers
into functions of the body.  Nothing else moves: an operation stands where it stood, or it is code
that stood in a container and stands now in an operation of the body which is no container.

## Main definitions

* `ContractIR.EraVM.Shifts` — operations stand where they stood, but for code of containers.
* `ContractIR.EraVM.Relocates` — where the operations of a module stand afterwards.
* `ContractIR.EraVM.Cleared` — a block holds no code.
* `ContractIR.EraVM.MovesCode` — the code of a block moved to the end of another one.

## Main results

* `ContractIR.EraVM.Relocates.trans`, `of_extends` — moves follow each other, and modules may grow.
* `ContractIR.EraVM.relocates_of_moveCode` — moving the code of a container.
-/

set_option autoImplicit false

namespace ContractIR

namespace Module

variable {X : BlockId → Prop} {m n : Module}

/-- A block belongs to the operation that it belonged to. -/
theorem Retains.owner?_eq (h : Retains X m n) (hm : m.Linked) {b : BlockId}
    (hb : b.index < m.blocks.size) : n.owner? b = m.owner? b := by
  rw [owner?, h.parent b hb, h.regions _ (hm.parent_lt hb)]
  rfl

/-- A block that belongs to an operation exists, and so does the operation. -/
theorem Linked.lt_of_owner? (h : m.Linked) {b : BlockId} {f : OpId} (hf : m.owner? b = some f) :
    b.index < m.blocks.size ∧ f.index < m.ops.size := by
  refine ⟨?_, h.owner_lt hf⟩
  by_contra hlt
  rw [owner?, block_of_le (Nat.not_lt.1 hlt)] at hf
  have hbody : (m.region body).parent = some f := hf
  rw [h.body_parent] at hbody
  cases hbody

/-- When a module grows, its operations get no new blocks. -/
theorem Extends.owner?_of_owner? {B : BlockId → Prop} (h : Extends B m n) (hm : m.Linked)
    (hn : n.Linked) {b : BlockId} {o : OpId} (hb : n.owner? b = some o)
    (ho : o.index < m.ops.size) : m.owner? b = some o := by
  have hregion : (n.block b).parent ∈ (m.op o).regions := by
    rw [← h.ops o ho]
    exact (hn.region_parent _ o).1 hb
  have hmem : b ∈ (m.region (n.block b).parent).blocks := by
    rw [← h.regions _ (hm.regions_lt hregion)]
    exact (hn.block_parent b _ (hn.lt_of_owner? hb).1).1 rfl
  have hlt := hm.blocks_lt _ b hmem
  rw [← hb, owner?, owner?, (h.grown b hlt).2.1, h.regions _ (hm.parent_lt hlt)]

/-- A step outwards leads to the owner of the block. -/
theorem up_iff_owner? {o p : OpId} :
    m.Up o p ↔ ∃ b, (m.op o).parent = some b ∧ m.owner? b = some p := up_iff

/-- The first block of the body is one of its blocks. -/
theorem bodyBlock_mem (hbody : m.hasBody = true) : m.bodyBlock ∈ (m.region body).blocks := by
  rw [hasBody] at hbody
  cases hblocks : (m.region body).blocks with
  | nil => simp [hblocks] at hbody
  | cons b bs => simp [bodyBlock, hblocks]

/-- The first block of the body exists. -/
theorem Linked.bodyBlock_lt (h : m.Linked) (hbody : m.hasBody = true) :
    m.bodyBlock.index < m.blocks.size := h.blocks_lt _ _ (bodyBlock_mem hbody)

/-- Blocks of the body belong to no operation. -/
theorem Linked.owner?_of_mem_body (h : m.Linked) {b : BlockId} (hb : b ∈ (m.region body).blocks) :
    m.owner? b = none := by
  rw [owner?, (h.block_parent _ _ (h.blocks_lt _ _ hb)).2 hb, h.body_parent]

/-- The first block of the body belongs to no operation. -/
theorem Linked.owner?_bodyBlock (h : m.Linked) (hbody : m.hasBody = true) :
    m.owner? m.bodyBlock = none := h.owner?_of_mem_body (bodyBlock_mem hbody)

/-- A block belongs to the body, or to an operation of the tree. -/
def BlockAttached (m : Module) (b : BlockId) : Prop :=
  b ∈ (m.region body).blocks ∨ ∃ f, m.owner? b = some f ∧ m.isAttached f = true

/-- What stands in a block of the tree belongs to the tree. -/
theorem Linked.isAttached_of_parent (h : m.Linked) {o : OpId} {b : BlockId}
    (ho : (m.op o).parent = some b) (hb : m.BlockAttached b) : m.isAttached o = true := by
  rcases hb with hb | ⟨f, hf, hattached⟩
  · exact h.isAttached_iff.2 ⟨o, ⟨b, hb, (h.op_parent o b).1 ho⟩, .refl⟩
  · obtain ⟨q, hq, hfq⟩ := h.isAttached_iff.1 hattached
    exact h.isAttached_iff.2 ⟨q, hq, .head (up_iff_owner?.2 ⟨b, ho, hf⟩) hfq⟩

/-- What belongs to the tree stands in a block of the tree. -/
theorem Linked.exists_blockAttached (h : m.Linked) {o : OpId} (ho : m.isAttached o = true) :
    ∃ b, (m.op o).parent = some b ∧ m.BlockAttached b := by
  obtain ⟨b, hb⟩ := exists_parent_of_isAttached ho
  refine ⟨b, hb, ?_⟩
  cases hf : m.owner? b with
  | some f => exact .inr ⟨f, hf, h.isAttached_of_up ho (up_iff_owner?.2 ⟨b, hb, hf⟩)⟩
  | none =>
    obtain ⟨x, hx, hox⟩ := h.standsIn_body ho (by rw [parentOp?_eq_owner? hb, hf])
    obtain rfl := Option.some.inj (hb.symm.trans ((h.op_parent o x).2 hox))
    exact .inl hx

/-- What a name means in the body stands there and has the name. -/
theorem standsIn_of_lookupTop? {name : String} {f : OpId} (h : m.lookupTop? name = some f) :
    m.StandsIn f body ∧ (m.kind f).isSymbol = true ∧ m.symName? f = some name :=
  standsIn_of_symbolIn? h

section MoveToEnd

variable {b : BlockId} {ids : List OpId}

/-- Operations that were moved to a block name that block, and the others are what they were.

**Proof sketch.** Induction on the operations that are moved; moving one changes its place and no
other operation. -/
theorem op_foldl_moveToEnd (hids : ∀ o ∈ ids, o.index < m.ops.size) (o : OpId) :
    (ids.foldl (fun n o => n.moveToEnd o b) m).op o =
      if o ∈ ids then { m.op o with parent := some b } else m.op o := by
  induction ids generalizing m with
  | nil => simp
  | cons id ids ih =>
    have hid : id.index < (m.detachOp id).ops.size := by
      rw [size_ops_detachOp]
      exact hids id (by simp)
    have hop : (m.moveToEnd id b).op o =
        if o = id then { m.op o with parent := some b } else m.op o := by
      rw [moveToEnd, op_insertOp, op_detachOp]
      split
      · rename_i ho
        rw [if_pos ho.1, if_pos ho.1]
      · rename_i ho
        have hne : o ≠ id := fun h => ho ⟨h, hid⟩
        rw [if_neg hne, if_neg hne]
    rw [List.foldl_cons, ih fun o ho => by simpa [moveToEnd] using hids o (by simp [ho]), hop]
    by_cases ho : o ∈ ids
    · have hmem : o ∈ id :: ids := by simp [ho]
      rw [if_pos ho, if_pos hmem]
      split <;> rfl
    · rw [if_neg ho]
      exact if_congr (by simp [ho]) rfl rfl

/-- Moving operations creates none. -/
theorem size_ops_foldl_moveToEnd (b : BlockId) (ids : List OpId) :
    (ids.foldl (fun n o => n.moveToEnd o b) m).ops.size = m.ops.size := by
  induction ids generalizing m with
  | nil => rfl
  | cons id ids ih =>
    rw [List.foldl_cons, ih]
    simp [moveToEnd]

/-- Moving operations from blocks outside of `X` to another such block leaves the blocks of `X`. -/
theorem retains_foldl_moveToEnd (hb : ¬X b)
    (hids : ∀ o ∈ ids, ∀ x, (m.op o).parent = some x → ¬X x) :
    Retains X m (ids.foldl (fun n o => n.moveToEnd o b) m) := by
  induction ids generalizing m with
  | nil => exact .refl X m
  | cons id ids ih =>
    have hstep : Retains X m (m.moveToEnd id b) := .of_move (hids id (by simp)) hb none
    refine hstep.trans (ih fun o ho x hx => ?_)
    rw [moveToEnd, op_insertOp, op_detachOp] at hx
    split at hx
    · cases hx
      exact hb
    · split at hx
      · cases hx
      · exact hids o (by simp [ho]) x hx

/-- What does not move stays in order. -/
theorem sublist_foldl_moveToEnd {kept : List OpId} (hkept : ∀ o ∈ ids, o ∉ kept) {x : BlockId}
    (h : kept.Sublist (m.block x).ops) :
    kept.Sublist ((ids.foldl (fun n o => n.moveToEnd o b) m).block x).ops := by
  induction ids generalizing m with
  | nil => exact h
  | cons id ids ih =>
    exact ih (fun o ho => hkept o (by simp [ho]))
      (sublist_insertOp (sublist_detachOp h (hkept id (by simp))))

end MoveToEnd

end Module

namespace EraVM

open ContractIR.Module (Extends Retains)

variable {m n p : Module}

/-! ## Where operations stand -/

/-- Operations stand where they stood, but for code of containers. -/
structure Shifts (m n : Module) : Prop where
  linked : n.Linked
  retains : Retains (fun _ => False) m n
  parents : ∀ o : OpId, o.index < m.ops.size → (n.op o).parent = (m.op o).parent ∨
    isCode m o = true ∧ ∃ c, m.Up o c ∧ (m.kind c).isContainer = true

namespace Shifts

/-- Shifting code keeps the kinds of operations. -/
theorem kind_eq (h : Shifts m n) {o : OpId} (ho : o.index < m.ops.size) : n.kind o = m.kind o :=
  (h.retains.ops o ho).kind_eq

/-- Shifting code keeps what is code. -/
theorem isCode_eq (h : Shifts m n) {o : OpId} (ho : o.index < m.ops.size) :
    isCode n o = isCode m o := by
  rw [isCode, h.kind_eq ho]
  rfl

/-- Functions and containers stay. -/
theorem parent_eq (h : Shifts m n) {o : OpId} (ho : o.index < m.ops.size)
    (hcode : isCode m o = false) : (n.op o).parent = (m.op o).parent := by
  rcases h.parents o ho with hsame | ⟨hmoved, -⟩
  · exact hsame
  · rw [hcode] at hmoved
    cases hmoved

/-- What stands directly in the body stays. -/
theorem parent_eq_of_standsIn (h : Shifts m n) (hm : m.Linked) {o : OpId}
    (ho : m.StandsIn o Module.body) : (n.op o).parent = (m.op o).parent := by
  obtain ⟨b, hb, hmem⟩ := ho
  rcases h.parents o (hm.ops_lt hmem) with hsame | ⟨-, c, hup, -⟩
  · exact hsame
  · rw [Module.Up, hm.parentOp?_of_standsIn ⟨b, hb, hmem⟩, hm.body_parent] at hup
    cases hup

/-- Operations of the body go on to stand there. -/
theorem standsIn_body (h : Shifts m n) (hm : m.Linked) {o : OpId}
    (ho : m.StandsIn o Module.body) : n.StandsIn o Module.body := by
  have hparent := h.parent_eq_of_standsIn hm ho
  obtain ⟨b, hb, hmem⟩ := ho
  refine ⟨b, by rw [h.retains.region_body hm]; exact hb, (h.linked.op_parent o b).1 ?_⟩
  rw [hparent]
  exact (hm.op_parent o b).2 hmem

/-- A step outwards from what stays leads where it led. -/
theorem up_iff (h : Shifts m n) (hm : m.Linked) {o c : OpId}
    (hparent : (n.op o).parent = (m.op o).parent) : n.Up o c ↔ m.Up o c := by
  rw [Module.up_iff_owner?, Module.up_iff_owner?, hparent]
  refine exists_congr fun b => and_congr_right fun hb => ?_
  rw [h.retains.owner?_eq hm (hm.block_lt hb)]

end Shifts

/-- A block belongs to a symbol of the body that is no container. -/
def Sheltered (m : Module) (b : BlockId) : Prop :=
  ∃ f, m.owner? b = some f ∧ (m.kind f).isContainer = false ∧ (m.kind f).isSymbol = true ∧
    m.StandsIn f Module.body

/-- Operations stand where they stood, but for code of containers, which may have moved into
operations of the body.  What is new is no container, and stands in none. -/
structure Relocates (m n : Module) : Prop where
  linked : n.Linked
  retains : Retains (fun _ => False) m n
  parents : ∀ o : OpId, o.index < m.ops.size → (n.op o).parent = (m.op o).parent ∨
    isCode m o = true ∧ (∃ c, m.Up o c ∧ (m.kind c).isContainer = true) ∧
      ∃ b, (n.op o).parent = some b ∧ Sheltered n b
  new : ∀ o : OpId, m.ops.size ≤ o.index → o.index < n.ops.size →
    (n.kind o).isContainer = false ∧ ∀ c, n.Up o c → (n.kind c).isContainer = false

namespace Relocates

/-- Nothing moves. -/
theorem refl (hm : m.Linked) : Relocates m m where
  linked := hm
  retains := .refl _ _
  parents _ _ := .inl rfl
  new _ hle hlt := absurd hlt (Nat.not_lt.2 hle)

/-- Relocating code moves nothing but code of containers. -/
theorem shifts (h : Relocates m n) : Shifts m n where
  linked := h.linked
  retains := h.retains
  parents o ho := (h.parents o ho).imp_right fun hmoved => ⟨hmoved.1, hmoved.2.1⟩

/-- Relocating code keeps the kinds of operations. -/
theorem kind_eq (h : Relocates m n) {o : OpId} (ho : o.index < m.ops.size) :
    n.kind o = m.kind o := h.shifts.kind_eq ho

/-- Relocating code keeps what is code. -/
theorem isCode_eq (h : Relocates m n) {o : OpId} (ho : o.index < m.ops.size) :
    isCode n o = isCode m o := h.shifts.isCode_eq ho

/-- What stands directly in the body stays. -/
theorem parent_eq_of_standsIn (h : Relocates m n) (hm : m.Linked) {o : OpId}
    (ho : m.StandsIn o Module.body) : (n.op o).parent = (m.op o).parent :=
  h.shifts.parent_eq_of_standsIn hm ho

/-- Operations of the body go on to stand there. -/
theorem standsIn_body (h : Relocates m n) (hm : m.Linked) {o : OpId}
    (ho : m.StandsIn o Module.body) : n.StandsIn o Module.body := h.shifts.standsIn_body hm ho

/-- A step outwards from what stays leads where it led. -/
theorem up_iff (h : Relocates m n) (hm : m.Linked) {o c : OpId}
    (hparent : (n.op o).parent = (m.op o).parent) : n.Up o c ↔ m.Up o c :=
  h.shifts.up_iff hm hparent

/-- Blocks of operations of the body stay so. -/
theorem sheltered (h : Relocates m n) (hm : m.Linked) {b : BlockId} (hb : Sheltered m b) :
    Sheltered n b := by
  obtain ⟨f, hf, hkind, hsymbol, hstands⟩ := hb
  obtain ⟨hlt, hflt⟩ := hm.lt_of_owner? hf
  rw [← h.kind_eq hflt] at hkind hsymbol
  exact ⟨f, by rw [h.retains.owner?_eq hm hlt, hf], hkind, hsymbol, h.standsIn_body hm hstands⟩

/-- **Some code moves, and then some more.**

**Proof sketch.** By where the operation went in the two moves.  If it stayed in one of them, the
other decides; if it moved in both, it stands in the last block, under the container it came from.
What is new after either is no container and under none. -/
theorem trans (h : Relocates m n) (k : Relocates n p) (hm : m.Linked) : Relocates m p where
  linked := k.linked
  retains := h.retains.trans k.retains
  parents o ho := by
    have hon := Nat.lt_of_lt_of_le ho h.retains.size_ops
    rcases k.parents o hon with hsame | ⟨hcode, ⟨c, hup, hc⟩, hmoved⟩
    · rcases h.parents o ho with hold | ⟨hcode, hup, b, hb, hshelter⟩
      · exact .inl (hsame.trans hold)
      · exact .inr ⟨hcode, hup, b, hsame.trans hb, k.sheltered h.linked hshelter⟩
    · rcases h.parents o ho with hold | ⟨hcode', hup', -⟩
      · have hup' := (h.up_iff hm hold).1 hup
        obtain ⟨b, -, hb⟩ := Module.up_iff_owner?.1 hup'
        refine .inr ⟨by rw [← h.isCode_eq ho]; exact hcode, ⟨c, hup', ?_⟩, hmoved⟩
        rw [← h.kind_eq (hm.lt_of_owner? hb).2]
        exact hc
      · exact .inr ⟨hcode', hup', hmoved⟩
  new o hle hlt := by
    by_cases hon : o.index < n.ops.size
    · obtain ⟨hkind, hup⟩ := h.new o hle hon
      refine ⟨by rw [k.kind_eq hon]; exact hkind, fun c hc => ?_⟩
      rcases k.parents o hon with hsame | ⟨-, -, b, hb, f, hf, hfkind, -⟩
      · have hc' := (k.up_iff h.linked hsame).1 hc
        obtain ⟨b, -, hb⟩ := Module.up_iff_owner?.1 hc'
        rw [k.kind_eq (h.linked.lt_of_owner? hb).2]
        exact hup c hc'
      · obtain ⟨b', hb', hc'⟩ := Module.up_iff_owner?.1 hc
        rw [hb] at hb'
        cases hb'
        rw [hf] at hc'
        cases hc'
        exact hfkind
    · exact k.new o (Nat.not_lt.1 hon) hlt

/-- A module that grows, but not in containers, and by no containers.

**Proof sketch.** Old operations keep their places.  A new operation under an old container would
stand in a block that grew, and no such block belongs to a container. -/
theorem of_extends {B : BlockId → Prop} (hm : m.Linked) (hn : n.Linked) (hext : Extends B m n)
    (hB : ∀ b, B b → ∀ c, m.owner? b = some c → (m.kind c).isContainer = false)
    (hnew : ∀ o : OpId, m.ops.size ≤ o.index → o.index < n.ops.size →
      (n.kind o).isContainer = false) : Relocates m n where
  linked := hn
  retains := .of_extends hext fun _ hb => hb.elim
  parents o ho := .inl (by rw [hext.ops o ho])
  new o hle hlt := by
    refine ⟨hnew o hle hlt, fun c hc => ?_⟩
    obtain ⟨b, hb, howner⟩ := Module.up_iff_owner?.1 hc
    have hclt := (hn.lt_of_owner? howner).2
    by_cases hcnew : m.ops.size ≤ c.index
    · exact hnew c hcnew hclt
    -- An old operation has no new blocks.
    · have hcold := Nat.not_le.1 hcnew
      have howner' := hext.owner?_of_owner? hm hn howner hcold
      have hbB : B b := (hext.new_parents o hle b hb).resolve_right
        (Nat.not_le.2 (hm.lt_of_owner? howner').1)
      rw [Module.kind, hext.ops c hcold]
      exact hB b hbB c howner'

end Relocates

/-! ## Moving code -/

/-- A block holds no code. -/
def Cleared (m : Module) (b : BlockId) : Prop := ∀ o ∈ (m.block b).ops, isCode m o = false

/-- A block of a container that holds no code gets none.

**Proof sketch.** What stands in the block afterwards was there, or was moved there, or is new.
Code is moved to no container, and nothing new stands in one. -/
theorem Relocates.cleared (h : Relocates m n) (hm : m.Linked) {b : BlockId} {c : OpId}
    (hc : m.owner? b = some c) (hkind : (m.kind c).isContainer = true) (hb : Cleared m b) :
    Cleared n b := by
  intro o ho
  obtain ⟨hblt, hclt⟩ := hm.lt_of_owner? hc
  have hparent := (h.linked.op_parent o b).2 ho
  have hc' : n.owner? b = some c := by rw [h.retains.owner?_eq hm hblt, hc]
  by_cases holt : o.index < m.ops.size
  · rw [h.isCode_eq holt]
    rcases h.parents o holt with hsame | ⟨-, -, b', hb', f, hf, hfkind, -⟩
    · exact hb o ((hm.op_parent o b).1 (hsame ▸ hparent))
    · rw [hparent] at hb'
      cases hb'
      rw [hc'] at hf
      cases hf
      rw [h.kind_eq hclt, hkind] at hfkind
      cases hfkind
  · have hup := (h.new o (Nat.not_lt.1 holt) (h.linked.ops_lt ho)).2 c
      (Module.up_iff_owner?.2 ⟨b, hparent, hc'⟩)
    rw [h.kind_eq hclt, hkind] at hup
    cases hup

/-- The code of a block moved to the end of another one, and nothing else did. -/
structure MovesCode (m n : Module) (source target : BlockId) : Prop where
  linked : n.Linked
  retains : Retains (fun _ => False) m n
  size_ops : n.ops.size = m.ops.size
  op : ∀ o, n.op o = if o ∈ (m.block source).ops.filter (isCode m) then
    { m.op o with parent := some target } else m.op o
  ordered : ∀ b, b ≠ source → (m.block b).ops.Sublist (n.block b).ops

namespace MovesCode

variable {source target : BlockId}

/-- Moving the code of a block keeps the kinds of operations. -/
theorem kind_eq (h : MovesCode m n source target) (o : OpId) : n.kind o = m.kind o := by
  rw [Module.kind, h.op]
  split <;> rfl

/-- What is not code of the block stays. -/
theorem op_eq (h : MovesCode m n source target) {o : OpId}
    (ho : (m.op o).parent = some source → isCode m o = false) (hm : m.Linked) :
    n.op o = m.op o := by
  rw [h.op, if_neg]
  intro hmem
  obtain ⟨hmem, hcode⟩ := List.mem_filter.1 hmem
  rw [ho ((hm.op_parent o source).2 hmem)] at hcode
  cases hcode

/-- What stands directly in the body stays there. -/
theorem standsIn_body (h : MovesCode m n source target) (hm : m.Linked) {c o : OpId}
    (hsource : m.owner? source = some c) (ho : m.StandsIn o Module.body) :
    n.StandsIn o Module.body := by
  have hsame : n.op o = m.op o := by
    refine h.op_eq (fun hparent => ?_) hm
    have hup : m.Up o c := Module.up_iff_owner?.2 ⟨source, hparent, hsource⟩
    rw [Module.Up, hm.parentOp?_of_standsIn ho, hm.body_parent] at hup
    cases hup
  obtain ⟨b, hb, hmem⟩ := ho
  refine ⟨b, by rw [h.retains.region_body hm]; exact hb, (h.linked.op_parent o b).1 ?_⟩
  rw [hsame]
  exact (hm.op_parent o b).2 hmem

end MovesCode

/-- **Moving the code of an operation** into one of the body.

**Proof sketch.** The run is a fold of `moveToEnd` over the code listed in the block.  The target
is not inside what is moved, because its function stands in the body and nothing is around it, so
the links stay (`foldl_moveToEnd`). -/
theorem movesCode_of_run (hm : m.Linked) {source target : BlockId} {c f : OpId}
    (hsource : m.owner? source = some c) (hf : m.owner? target = some f)
    (hfbody : m.StandsIn f Module.body) {location : Location} {a : Unit}
    (h : (moveCode source target location).run m = .ok a n) : MovesCode m n source target := by
  obtain rfl := run_moveCode_eq_ok h
  let ids := (m.block source).ops.filter (isCode m)
  have hparents : ∀ o ∈ ids, (m.op o).parent = some source := fun o ho =>
    (hm.op_parent o source).2 (List.mem_filter.1 ho).1
  have hlt : ∀ o ∈ ids, o.index < m.ops.size := fun o ho => Module.op_lt_of_parent (hparents o ho)
  have hftop : m.parentOp? f = none := by
    rw [hm.parentOp?_of_standsIn hfbody, hm.body_parent]
  -- The function is not inside what is moved: it is inside itself only.
  have hinside : ∀ o ∈ ids, ¬m.RegionInside (m.block target).parent o := by
    rintro o ho ⟨f', hf', hin⟩
    obtain rfl : f = f' := Option.some.inj (hf.symm.trans hf')
    rcases Relation.ReflTransGen.cases_head hin with rfl | ⟨q, hq, -⟩
    · have hup : m.Up f c := Module.up_iff_owner?.2 ⟨source, hparents f ho, hsource⟩
      rw [Module.Up, hftop] at hup
      cases hup
    · rw [Module.Up, hftop] at hq
      cases hq
  refine ⟨hm.foldl_moveToEnd (hm.lt_of_owner? hf).1 ids hlt hinside,
    Module.retains_foldl_moveToEnd id fun _ _ _ _ => id, Module.size_ops_foldl_moveToEnd target ids,
    Module.op_foldl_moveToEnd hlt, fun b hb =>
      Module.sublist_foldl_moveToEnd (fun o ho hmem => hb ?_) (.refl _)⟩
  exact Option.some.inj (((hm.op_parent o b).2 hmem).symm.trans (hparents o ho))

/-- **The code of a container moves** into an operation of the body.

**Proof sketch.** `movesCode_of_run` says which operations go to the target, all of them code of
the container; the target stays sheltered, and no code is left in the container's block. -/
theorem relocates_of_moveCode (hm : m.Linked) {source target : BlockId} {c : OpId}
    (hsource : m.owner? source = some c) (hc : (m.kind c).isContainer = true)
    (htarget : Sheltered m target) {location : Location} {a : Unit}
    (h : (moveCode source target location).run m = .ok a n) :
    Relocates m n ∧ Cleared n source := by
  obtain ⟨f, hf, hfkind, hfsymbol, hfbody⟩ := htarget
  have hmoves := movesCode_of_run hm hsource hf hfbody h
  have hshelter : Sheltered n target :=
    ⟨f, by rw [hmoves.retains.owner?_eq hm (hm.lt_of_owner? hf).1, hf],
      by rw [hmoves.kind_eq, hfkind], by rw [hmoves.kind_eq, hfsymbol],
      hmoves.standsIn_body hm hsource hfbody⟩
  refine ⟨⟨hmoves.linked, hmoves.retains, fun o _ => ?_, fun o hle hlt => ?_⟩, fun o ho => ?_⟩
  · rw [hmoves.op]
    split
    · rename_i ho
      obtain ⟨hmem, hcode⟩ := List.mem_filter.1 ho
      have hup : m.Up o c :=
        Module.up_iff_owner?.2 ⟨source, (hm.op_parent o source).2 hmem, hsource⟩
      exact .inr ⟨hcode, ⟨c, hup, hc⟩, target, rfl, hshelter⟩
    · exact .inl rfl
  · exact absurd hlt (Nat.not_lt.2 (hmoves.size_ops ▸ hle))
  · have hparent := (hmoves.linked.op_parent o source).2 ho
    rw [hmoves.op] at hparent
    split at hparent
    · -- What was moved does not stand in the container any more.
      cases hparent
      obtain rfl : f = c := Option.some.inj (hf.symm.trans hsource)
      rw [hc] at hfkind
      cases hfkind
    · rename_i hids
      have hmem := (hm.op_parent o source).1 hparent
      have hcode : isCode n o = isCode m o := by
        rw [isCode, hmoves.kind_eq]
        rfl
      refine hcode.trans (Bool.eq_false_iff.2 fun hcode => hids ?_)
      exact List.mem_filter.2 ⟨hmem, hcode⟩

end EraVM

end ContractIR
