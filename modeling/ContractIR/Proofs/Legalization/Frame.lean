import ContractIR.Proofs.Legalization.Finishing
import ContractIR.Proofs.Legalization.Firing
import Mathlib.Data.List.Flatten

/-!
# What legalization leaves

Legalization moves operations, changes kinds, sets attributes, changes types of values, writes new
operations and drops others.  What belongs to the tree before and afterwards keeps everything but
what its low-level form asks for: a new kind, the linkage of a function, and the element type and
the address of a stack slot.  In the blocks of a function, it also keeps its place among the others.

## Main definitions

* `ContractIR.EraVM.counterparts` — the low-level operation for each operation that has one.
* `ContractIR.EraVM.InPlace` — an operation stays, or gets its low-level form where it stands.
* `ContractIR.EraVM.Framed`, `Frames` — what is left of one operation, and of a module.

## Main results

* `ContractIR.EraVM.inPlace_of_convert` — conversion rewrites in place, and leaves arguments of
  blocks.
* `ContractIR.EraVM.Course.framed`, `ordered` — one operation, and the order of two.
* `ContractIR.EraVM.legalize_frames` — what legalization leaves of a module.
-/

set_option autoImplicit false

namespace ContractIR.EraVM

open Conversion

variable {contexts : Contexts} {m s t n : Module} {become : OpId → List OpId} {o p x : OpId}
  {b : BlockId} {f : OpId} {name : String}

/-! ## Low-level counterparts -/

/-- The low-level operations that patterns make of other operations. -/
def counterparts : List (OpKind × LlvmOp) :=
  (.func .func, .func) :: (.memref .alloca, .alloca) :: renames.map Prod.snd

/-- What has a low-level form has a counterpart. -/
theorem exists_counterpart {k : OpKind} (high : k.dialect ≠ .llvm) (low : k.low.dialect = .llvm) :
    ∃ l, counterparts.lookup k = some l ∧ k.low = .llvm l := by
  rcases k with k | k | k | k | k <;> cases k <;>
    first
    | exact ⟨_, by decide, rfl⟩
    | exact absurd rfl high
    | exact absurd low (by decide)

/-! ## Conversion in place -/

namespace FiresAt

/-- Values that are no results of what is rewritten keep their types. -/
theorem typeOf_eq (h : FiresAt contexts m n x name) {v : ValueId} (hv : v.index < m.values.size)
    (hx : v ∉ (m.op x).results) : n.typeOf v = m.typeOf v := by
  cases h with
  | lowers h => rw [h.types, loweredType_of_notMem hx]
  | replaces context code h => exact h.types v hv

/-- Other operations stay as they are. -/
theorem op_eq (h : FiresAt contexts m n x name) (ho : o.index < m.ops.size) (hne : o ≠ x) :
    n.op o = m.op o := by
  cases h with
  | lowers h => rw [h.op, if_neg hne]
  | replaces context code h => exact h.op o hne ho

end FiresAt

/-- An operation stays as it is, or it gets its low-level form where it stands. -/
inductive InPlace (m n : Module) (o : OpId) : Prop
  | stays (op : n.op o = m.op o) (types : ∀ v ∈ (m.op o).results, n.typeOf v = m.typeOf v)
  | lowers (high : (m.kind o).dialect ≠ .llvm) (low : (m.kind o).low.dialect = .llvm)
      (op : n.op o = lowered m o)
      (types : ∀ v ∈ (m.op o).results, n.typeOf v = loweredType m o v)

namespace InPlace

/-- An operation is in its place. -/
theorem refl (m : Module) (o : OpId) : InPlace m m o := .stays rfl fun _ _ => rfl

/-- An operation in its place gives the results that it gave. -/
theorem results_eq (h : InPlace m n o) : (n.op o).results = (m.op o).results := by
  cases h with
  | stays op => rw [op]
  | lowers _ _ op => rw [op, lowered]

/-- No return comes out of anything else. -/
theorem ne_return (h : InPlace m n o) (ho : m.kind o ≠ .sol .ret) : n.kind o ≠ .sol .ret := by
  cases h with
  | stays op => rwa [Module.kind, op]
  | lowers _ low op =>
    intro hkind
    rw [Module.kind, op, lowered] at hkind
    rw [show (m.kind o).low = .sol .ret from hkind] at low
    cases low

/-- Another operation is rewritten. -/
theorem step_other (h : InPlace m s o) (hs : s.Linked) (ho : o.index < s.ops.size) (hne : o ≠ x)
    (hfires : FiresAt contexts s n x name) : InPlace m n o := by
  have hop := hfires.op_eq ho hne
  have htypes : ∀ v ∈ (m.op o).results, n.typeOf v = s.typeOf v := by
    intro v hv
    rw [← h.results_eq] at hv
    exact hfires.typeOf_eq (hs.results_lt o v hv) fun hx => hne (hs.eq_of_mem_results hv hx)
  cases h with
  | stays op types => exact .stays (hop.trans op) fun v hv => (htypes v hv).trans (types v hv)
  | lowers high low op types =>
    exact .lowers high low (hop.trans op) fun v hv => (htypes v hv).trans (types v hv)

/-- The operation itself is rewritten: it was as before, since its low-level form is none that a
pattern takes. -/
theorem step_self (h : InPlace m s x) (hlow : LowersAt s n x) : InPlace m n x := by
  cases h with
  | stays op types =>
    have hkind : s.kind x = m.kind x := congrArg Op.kind op
    refine .lowers (hkind ▸ hlow.high) (hkind ▸ hlow.low) ?_ fun v hv => ?_
    · rw [hlow.op, if_pos rfl, lowered_congr op types]
    · rw [hlow.types, loweredType_congr op (types v hv)]
  | lowers high low op types =>
    have hkind : s.kind x = (m.kind x).low := congrArg Op.kind op
    exact absurd (hkind ▸ low) hlow.high

/-- **A rewrite keeps it so**, but for the returns from contract code. -/
theorem step (h : InPlace m s o) (hs : s.Linked) (ho : o.index < s.ops.size)
    (hkind : m.kind o ≠ .sol .ret) (hfires : FiresAt contexts s n x name) : InPlace m n o := by
  by_cases hne : o = x
  · subst hne
    cases hfires with
    | lowers hlow => exact h.step_self hlow
    | replaces context code hreplaces => exact absurd hreplaces.kind (h.ne_return hkind)
  · exact h.step_other hs ho hne hfires

end InPlace

/-- What the sweeps keep: the module was converted from the first one, operations other than returns
in place, and the arguments of blocks have the types that they had. -/
structure ConvertedFrom (contexts : Contexts) (m n : Module) : Prop where
  reworked : ReworkedFrom contexts m n
  ops : ∀ o : OpId, o.index < m.ops.size → m.kind o ≠ .sol .ret → InPlace m n o
  args : ∀ b, ∀ v ∈ (m.block b).args, n.typeOf v = m.typeOf v

/-- Every pattern keeps it.

**Proof sketch.** A pattern that declines changes nothing.  One that rewrites is one more step of
the frame for code (`InPlace.step`), and arguments of blocks are no results, so that their types
stay. -/
theorem maintains_convertedFrom (hm : m.Linked) (contexts : Contexts) :
    ∀ p ∈ patterns contexts, Maintains (ConvertedFrom contexts m) p := by
  intro p hp q n x a hq hattached hkind hrun
  obtain ⟨hlinked, become, hreworks, -⟩ := hq.reworked
  obtain ⟨hn, hdeclined⟩ :=
    maintains_patterns hm contexts p hp q n x a hq.reworked hattached hkind hrun
  refine ⟨?_, hdeclined⟩
  rcases fires_of_rewrite hp hlinked hattached hkind hrun with ⟨-, rfl, -, -⟩ | ⟨-, hfires⟩
  · exact hq
  · refine ⟨hn, fun o ho hplain => ?_, fun b v hv => ?_⟩
    · exact (hq.ops o ho hplain).step hlinked (Nat.lt_of_lt_of_le ho hreworks.size_ops) hplain
        hfires
    · have hv' : v ∈ (q.block b).args := by
        rw [hreworks.args]
        exact hv
      rw [hfires.typeOf_eq (hlinked.args_lt b v hv') fun hx =>
        hlinked.notMem_args_of_mem_results hx b hv', hq.args b v hv]

/-- **Conversion rewrites in place**, and leaves the arguments of blocks. -/
theorem inPlace_of_convert (hm : m.Linked) {stats : Stats}
    (h : (convert lowLevelTarget (patterns contexts)).run m = .ok stats n) :
    (∀ o : OpId, o.index < m.ops.size → m.kind o ≠ .sol .ret → InPlace m n o) ∧
      ∀ b, ∀ v ∈ (m.block b).args, n.typeOf v = m.typeOf v := by
  have hconverted := (maintained_of_convert (maintains_convertedFrom hm contexts)
    ⟨⟨hm, _, .refl m, .of_same m m⟩, fun o _ _ => .refl m o, fun _ _ _ => rfl⟩ h).1
  exact ⟨hconverted.ops, hconverted.args⟩

/-! ## One operation -/

/-- What is left of an operation that belongs to the tree before and afterwards. -/
structure Framed (m n : Module) (o : OpId) : Prop where
  operands : (n.op o).operands = (m.op o).operands
  results : (n.op o).results = (m.op o).results
  regions : (n.op o).regions = (m.op o).regions
  successors : (n.op o).successors = (m.op o).successors
  location : (n.op o).location = (m.op o).location
  kind : (m.kind o).dialect = .llvm ∧ n.kind o = m.kind o ∨
    (m.kind o).dialect ≠ .llvm ∧ ∃ k, counterparts.lookup (m.kind o) = some k ∧ n.kind o = .llvm k
  function : m.kind o = .func .func → (n.op o).attrs =
    if (m.attr? o AttrName.linkage).isNone then
      (m.op o).attrs.set AttrName.linkage (.str "external")
    else (m.op o).attrs
  cell : m.kind o = .memref .alloca → ∃ v elem, (m.op o).results = [v] ∧ m.typeOf v = .memref elem ∧
    (n.op o).attrs = (m.op o).attrs.set AttrName.elemType (.type elem) ∧
    n.typeOf v = AddressSpace.stack.ptr
  attrs : m.kind o ≠ .func .func → m.kind o ≠ .memref .alloca → (n.op o).attrs = (m.op o).attrs
  types : m.kind o ≠ .memref .alloca → ∀ v ∈ (m.op o).results, n.typeOf v = m.typeOf v

/-- What is rewritten in place, and is low-level afterwards, keeps everything else.

**Proof sketch.** By whether the operation was low-level.  If it was, nothing has changed, and
the cases of functions and cells do not arise; if not, it is `lowered`, which changes kind and
attributes only, and for a cell the type of its value. -/
theorem InPlace.framed (h : InPlace m n o) (hlow : (n.kind o).dialect = .llvm)
    (hcell : m.kind o = .memref .alloca →
      ∃ v elem, (m.op o).results = [v] ∧ m.typeOf v = .memref elem) : Framed m n o := by
  cases h with
  | stays op types =>
    have hkind : n.kind o = m.kind o := congrArg Op.kind op
    rw [hkind] at hlow
    exact
      { operands := by rw [op]
        results := by rw [op]
        regions := by rw [op]
        successors := by rw [op]
        location := by rw [op]
        kind := .inl ⟨hlow, hkind⟩
        function := fun hc => by
          rw [hc] at hlow
          cases hlow
        cell := fun hc => by
          rw [hc] at hlow
          cases hlow
        attrs := fun _ _ => by rw [op]
        types := fun _ => types }
  | lowers high low op types =>
    obtain ⟨k, hk, hkind⟩ := exists_counterpart high low
    have hattrs : (n.op o).attrs = loweredAttrs m o := congrArg Op.attrs op
    exact
      { operands := by rw [op, lowered]
        results := by rw [op, lowered]
        regions := by rw [op, lowered]
        successors := by rw [op, lowered]
        location := by rw [op, lowered]
        kind := .inr ⟨high, k, hk, by rw [Module.kind, op, lowered, hkind]⟩
        function := fun hc => by rw [hattrs, loweredAttrs, hc]
        cell := fun hc => by
          obtain ⟨v, elem, hresults, htype⟩ := hcell hc
          have hv : m.result? o 0 = some v := by rw [Module.result?, hresults]; rfl
          have helem : cell? m o = some (v, elem) := cell?_eq_some.2 ⟨hv, by rw [htype]; rfl⟩
          refine ⟨v, elem, hresults, htype, by rw [hattrs, loweredAttrs_of_cell hc helem], ?_⟩
          rw [types v (by simp [hresults]), loweredType, if_pos ⟨hc, hv⟩]
        attrs := fun hfunc hcell => by rw [hattrs, loweredAttrs_of_ne hfunc hcell]
        types := fun hcell v hv => by rw [types v hv, loweredType_of_ne hcell] }

/-- It does not matter where the operation stood.

**Proof sketch.** Field by field: only the place of the operation may differ, and no field speaks
of it. -/
theorem Framed.of_sameOp (h : Framed t n o) (hsame : m.SameOp t o)
    (htypes : ∀ v ∈ (m.op o).results, t.typeOf v = m.typeOf v) : Framed m n o := by
  have hkind := hsame.kind_eq
  have hattr := hsame.attr?_eq AttrName.linkage
  obtain ⟨b, hb⟩ := hsame
  exact
    { operands := by rw [h.operands, hb]
      results := by rw [h.results, hb]
      regions := by rw [h.regions, hb]
      successors := by rw [h.successors, hb]
      location := by rw [h.location, hb]
      kind := by
        rw [← hkind]
        exact h.kind
      function := fun hc => by
        rw [h.function (hkind.trans hc), hattr, hb]
      cell := fun hc => by
        obtain ⟨v, elem, hresults, htype, hattrs, hslot⟩ := h.cell (hkind.trans hc)
        have hresults' : (m.op o).results = [v] := by rw [← hresults, hb]
        exact ⟨v, elem, hresults', by rw [← htypes v (by simp [hresults']), htype],
          by rw [hattrs, hb], hslot⟩
      attrs := fun hfunc hcell => by rw [h.attrs (hkind ▸ hfunc) (hkind ▸ hcell), hb]
      types := fun hcell v hv => by
        rw [h.types (hkind ▸ hcell) v (by rw [hb]; exact hv), htypes v hv] }

namespace Course

/-- Splitting and hoisting leave types. -/
theorem typeOf_eq (h : Course m s t n become) {v : ValueId} (hv : v.index < m.values.size) :
    t.typeOf v = m.typeOf v := by
  rw [Module.typeOf, h.finishes.lifts.retains.values v
    (Nat.lt_of_lt_of_le hv h.assigns.retains.size_values), h.assigns.retains.values v hv]
  rfl

/-- What stays in the tree is no return from contract code. -/
theorem kind_ne_return (h : Course m s t n become) (ho : o.index < m.ops.size)
    (ho' : n.isAttached o = true) : m.kind o ≠ .sol .ret := by
  intro hkind
  have hret :=
    (h.finishes.reworks.returns o (h.lt_hoisted ho) ((h.sameOp ho).kind_eq.trans hkind)).1
  have hdialect := h.finishes.dialect_eq ho'
  rw [hret] at hdialect
  cases hdialect

/-- **What is left of an operation.**

**Proof sketch.** Splitting and hoisting change nothing but where it stands, and conversion rewrites
it in place.  It is low-level afterwards, since nothing else is left in the tree. -/
theorem framed (h : Course m s t n become) (ho : m.isAttached o = true)
    (ho' : n.isAttached o = true) : Framed m n o := by
  have hlt := Module.op_lt_of_isAttached ho
  have hsame := h.sameOp hlt
  have htypes : ∀ v ∈ (m.op o).results, t.typeOf v = m.typeOf v := fun v hv =>
    h.typeOf_eq (h.start.results_lt o v hv)
  obtain ⟨stats, hconvert⟩ := h.converts
  have hplace := (inPlace_of_convert h.finishes.lifts.linked hconvert).1 o (h.lt_hoisted hlt)
    (hsame.kind_eq ▸ h.kind_ne_return hlt ho')
  refine (hplace.framed (h.finishes.dialect_eq ho') fun hcell => ?_).of_sameOp hsame htypes
  obtain ⟨v, elem, hresults, htype⟩ := Module.exists_cell_of_verifyOp
    (Module.of_verify h.verified (h.start.mem_walk_iff.2 ho)).1 (hsame.kind_eq ▸ hcell)
  obtain ⟨b, hb⟩ := hsame
  exact ⟨v, elem, by rw [hb, hresults], by rw [htypes v (by simp [hresults]), htype]⟩

/-- **The arguments of blocks are left.** -/
theorem args_eq (h : Course m s t n become) (hb : b.index < m.blocks.size) :
    (n.block b).args = (m.block b).args ∧ ∀ v ∈ (m.block b).args, n.typeOf v = m.typeOf v := by
  have hargs : (t.block b).args = (m.block b).args := by
    rw [h.finishes.lifts.retains.args b (Nat.lt_of_lt_of_le hb h.assigns.retains.size_blocks),
      h.assigns.retains.args b hb]
  obtain ⟨stats, hconvert⟩ := h.converts
  refine ⟨(h.finishes.reworks.args b).trans hargs, fun v hv => ?_⟩
  rw [(inPlace_of_convert h.finishes.lifts.linked hconvert).2 b v (hargs ▸ hv),
    h.typeOf_eq (h.start.args_lt b v hv)]

end Course

/-! ## The order of operations -/

/-- Members of a part of a list stand in the same order in all of it. -/
theorem pair_sublist_iff {part all : List OpId} (hpart : part.Sublist all) (hnodup : all.Nodup)
    (ho : o ∈ part) (hp : p ∈ part) : [o, p].Sublist all ↔ [o, p].Sublist part := by
  refine ⟨fun hall => ?_, fun h => h.trans hpart⟩
  -- The part is what is left of the list when all else is taken out.
  have hsub : part.Sublist (all.filter (· ∈ part)) := by
    have hkept : part.filter (· ∈ part) = part := by simp
    have hfiltered := hpart.filter (· ∈ part)
    rwa [hkept] at hfiltered
  have hle : (all.filter (· ∈ part)).length ≤ part.length :=
    ((hnodup.filter _).subperm fun q hq => by simpa using (List.mem_filter.1 hq).2).length_le
  rw [hsub.eq_of_length_le hle]
  simpa [ho, hp] using hall.filter (· ∈ part)

/-- An operation of a block, other than a function, that belongs to the tree afterwards. -/
structure Lasts (m n : Module) (b : BlockId) (o : OpId) : Prop where
  member : o ∈ (m.block b).ops
  plain : (m.kind o).isFunction = false
  attached : n.isAttached o = true

/-- **Code of functions stays in its block, in its order.**

**Proof sketch.** Splitting only puts operations into the block, hoisting only takes functions out,
and conversion replaces each return at its place.  So what the block held before and after hoisting
and is no return is a part of the block in between, and of the block of the result. -/
theorem Course.ordered (h : Course m s t n become) (hf : m.owner? b = some f)
    (hfunction : (m.kind f).isFunction = true) (ho : Lasts m n b o) (hp : Lasts m n b p) :
    o ∈ (n.block b).ops ∧ p ∈ (n.block b).ops ∧
      ([o, p].Sublist (m.block b).ops ↔ [o, p].Sublist (n.block b).ops) := by
  obtain ⟨hblt, hflt⟩ := h.start.lt_of_owner? hf
  have hsplit := h.assigns.ordered b f hf (OpKind.isContainer_of_isFunction hfunction)
  have hne : b ≠ s.bodyBlock := by
    rintro rfl
    have howner := h.finishes.start.owner?_bodyBlock h.finishes.body
    rw [h.assigns.retains.owner?_eq h.start hblt, hf] at howner
    cases howner
  let kept := (t.block b).ops.filter fun q => decide (t.kind q ≠ .sol .ret)
  have hthin : kept.Sublist (s.block b).ops :=
    List.filter_sublist.trans (h.finishes.lifts.thinned b hne)
  have hlow : kept.Sublist (n.block b).ops := by
    have hsame : kept.flatMap become = kept := h.finishes.reworks.flatMap_later fun q hq => by
      obtain ⟨hq, hplain⟩ := List.mem_filter.1 hq
      exact ⟨h.finishes.lifts.linked.ops_lt hq, of_decide_eq_true hplain⟩
    rw [h.finishes.reworks.listed, ← hsame]
    exact List.filter_sublist.flatMap become
  have hmem : ∀ q, Lasts m n b q → q ∈ kept := by
    intro q hq
    have hlt := h.start.ops_lt hq.member
    have hs : (s.op q).parent = some b :=
      (h.finishes.start.op_parent q b).2 (hsplit.subset hq.member)
    have ht : (t.op q).parent = some b := by
      rcases h.finishes.lifts.parents q with hsame | ⟨hmoves, -⟩ | ⟨-, htop, -⟩
      · exact hsame.trans hs
      · rw [h.assigns.kind_eq hlt, hq.plain] at hmoves
        cases hmoves
      · exact absurd (Option.some.inj (hs.symm.trans htop)) hne
    refine List.mem_filter.2 ⟨(h.finishes.lifts.linked.op_parent q b).1 ht, decide_eq_true ?_⟩
    rw [(h.sameOp hlt).kind_eq]
    exact h.kind_ne_return hlt hq.attached
  have hnodup := h.finishes.start.ops_nodup b
  refine ⟨hlow.subset (hmem o ho), hlow.subset (hmem p hp), ?_⟩
  calc [o, p].Sublist (m.block b).ops
      ↔ [o, p].Sublist (s.block b).ops := (pair_sublist_iff hsplit hnodup ho.member hp.member).symm
    _ ↔ [o, p].Sublist kept := pair_sublist_iff hthin hnodup (hmem o ho) (hmem p hp)
    _ ↔ [o, p].Sublist (n.block b).ops :=
        (pair_sublist_iff hlow (h.finishes.linked.ops_nodup b) (hmem o ho) (hmem p hp)).symm

/-! ## Modules -/

/-- What is left of a module. -/
structure Frames (m n : Module) : Prop where
  ops : ∀ o, m.isAttached o = true → n.isAttached o = true → Framed m n o
  args : ∀ b : BlockId, b.index < m.blocks.size →
    (n.block b).args = (m.block b).args ∧ ∀ v ∈ (m.block b).args, n.typeOf v = m.typeOf v
  order : ∀ b f, m.owner? b = some f → (m.kind f).isFunction = true →
    ∀ o p, Lasts m n b o → Lasts m n b p → o ∈ (n.block b).ops ∧ p ∈ (n.block b).ops ∧
      ([o, p].Sublist (m.block b).ops ↔ [o, p].Sublist (n.block b).ops)

/-- **The frame of legalization.**  An operation that belongs to the tree before and afterwards
keeps its operands, results, regions, successors and location, and all of its kind, attributes and
types of results that its low-level form does not change.  The arguments of blocks are what they
were, and code of functions stays in its block, in its order. -/
theorem legalize_frames (hm : m.Linked) (hverify : m.verify = .ok ()) {stats : Stats}
    (h : legalize.run m = .ok stats n) : Frames m n := by
  obtain ⟨s, t, become, hcourse⟩ := exists_course hm hverify h
  exact ⟨fun _ => hcourse.framed, fun _ => hcourse.args_eq,
    fun _ _ hf hfunction _ _ => hcourse.ordered hf hfunction⟩

/-- A contract with a function that keeps its parameter in a cell. -/
def keepingFunction : Builder :=
  [Command.build (.container .contract "X_deployed"), .build (.toEnd ⟨1⟩),
    .build (.func "f" ⟨[.word], [.word]⟩), .build (.toEnd ⟨2⟩), .build (.allocaCell .word),
    .build (.storeCell ⟨0⟩ ⟨1⟩), .build (.loadCell ⟨1⟩), .build (.funcReturn [⟨2⟩])].foldl
    (fun b c => c.run b) (.new (.new .unknown))

/-- The cell stays before its use, and nothing but its low-level form is new. -/
theorem keepingFunction_framed :
    ∃ stats n, legalize.run keepingFunction.ir = .ok stats n ∧ Frames keepingFunction.ir n ∧
      n.isAttached ⟨2⟩ = true ∧ n.isAttached ⟨3⟩ = true := by
  have hm : keepingFunction.ir.Linked :=
    ((Builder.Reachable.new .unknown).foldl (by decide +kernel)).sound.linked
  have hends : Outcome.endsIn legalize keepingFunction.ir
      (fun n => n.isAttached ⟨2⟩ && n.isAttached ⟨3⟩) = true := by
    decide +kernel
  obtain ⟨stats, n, h, hattached⟩ := Outcome.exists_of_endsIn hends
  rw [Bool.and_eq_true] at hattached
  exact ⟨stats, n, h, legalize_frames hm (by decide +kernel) h, hattached⟩

end ContractIR.EraVM
