import ContractIR.Proofs.Legalization.Conversion
import ContractIR.Proofs.Legalization.Hoisting
import ContractIR.Proofs.Legalization.Returning

/-!
# Patterns succeed

When no container is left, every operation that may not stay has a pattern, and the pattern
rewrites it.  All patterns but one leave every other operation as it is.  A return from contract
code becomes new operations of its block, some of which may not stay either; but none of them is
such a return.

## Main definitions

* `ContractIR.EraVM.Pending` — an operation of the tree may not stay.
* `ContractIR.EraVM.Converts` — rewriting keeps the invariant, and what it leaves to do.

## Main results

* `ContractIR.EraVM.exists_rename`, `exists_lowerFuncOp`, `exists_lowerAllocaOp`,
  `exists_lowerReturnOp` — each pattern rewrites.
* `ContractIR.EraVM.exists_rewrite` — whatever may not stay is rewritten.
-/

set_option autoImplicit false

namespace ContractIR

/-! ## Types of cells and returns -/

namespace OpKind.HasType

variable {env : Env} {kind : OpKind} {attrs : AttrDict} {ins outs : List Ty}

/-- A return from contract code takes two words. -/
theorem of_solReturn (h : kind.HasType env attrs ins outs) (hkind : kind = .sol .ret) :
    ins = [Ty.word, Ty.word] ∧ outs = [] := by
  cases h with
  | solReturn => exact ⟨rfl, rfl⟩
  | cell hk | slot hk => cases hk.symm.trans hkind
  | constant hk | binary hk | icmp hk | extend hk | load hk | store hk | addressOf hk | gep hk
  | ptrToInt hk | intToPtr hk | call hk | ret hk | unreachable hk | condBr hk =>
    rw [hkind] at hk
    cases hk

/-- A memory cell holds an integer.

**Proof sketch.** One case for each way to be typed.  Only that of a cell has this kind. -/
theorem of_alloca (h : kind.HasType env attrs ins outs) (hkind : kind = .memref .alloca) :
    ins = [] ∧ ∃ w, outs = [.memref (.int w)] := by
  cases h with
  | cell => exact ⟨rfl, _, rfl⟩
  | slot hk | solReturn hk => cases hk.symm.trans hkind
  | @binary k w hk hbinary =>
    rw [hkind] at hk
    cases OpKind.llvm.inj hk
    cases hbinary
  | @extend k v w hk hextension =>
    rw [hkind] at hk
    cases OpKind.llvm.inj hk
    cases hextension
  | constant hk | icmp hk | load hk | store hk | addressOf hk | gep hk | ptrToInt hk | intToPtr hk
  | call hk | ret hk | unreachable hk | condBr hk =>
    rw [hkind] at hk
    cases hk

end OpKind.HasType

namespace EraVM

open Conversion

variable {env : Env} {contexts : Contexts} {m n p : Module} {x : OpId}

/-! ## What may not stay -/

/-- An operation of the tree may not stay. -/
def Pending (m : Module) (o : OpId) : Prop :=
  m.isAttached o = true ∧ (m.kind o).dialect ≠ .llvm

/-- The low-level dialect alone may stay. -/
theorem isLegal_iff (k : OpKind) : lowLevelTarget.isLegal k = true ↔ k.dialect = .llvm := by
  simp [lowLevelTarget, Target.isLegal, Target.allowDialect]

/-- Nothing is illegal where a walk finds low-level operations only. -/
theorem illegalOps_eq_nil_iff {m : Module} :
    lowLevelTarget.illegalOps m = [] ↔ ∀ o ∈ m.walk, (m.kind o).dialect = .llvm := by
  refine List.filter_eq_nil_iff.trans (forall₂_congr fun o _ => ?_)
  rw [Bool.not_eq_true, Bool.not_eq_false', isLegal_iff]

/-- No container belongs to the tree. -/
theorem Sealed.isContainer_eq (h : Sealed env contexts [] [] m) {o : OpId}
    (ho : m.isAttached o = true) : (m.kind o).isContainer = false := by
  cases hcontainer : (m.kind o).isContainer with
  | false => rfl
  | true =>
    obtain ⟨b, hb⟩ := Module.exists_parent_of_isAttached ho
    have hnone := (h.typed.typed o b hb).parentOp?_of_isContainer hcontainer
    obtain ⟨b, hb, hob⟩ := h.typed.toLinked.standsIn_body ho hnone
    rw [h.top.body, List.mem_singleton] at hb
    have hmem : o ∈ (m.block ⟨0⟩).ops.filter fun o => (m.kind o).isContainer :=
      List.mem_filter.2 ⟨hb ▸ hob, hcontainer⟩
    rw [h.containers] at hmem
    cases hmem

/-- Rewriting keeps the invariant and what the body provides.  What may not stay afterwards could
not stay before, or is new; new ones come from returns from contract code, and are none. -/
structure Converts (env : Env) (contexts : Contexts) (m n : Module) : Prop where
  sealed : Sealed env contexts [] [] n
  size : m.ops.size ≤ n.ops.size
  pending : ∀ o, Pending n o → Pending m o ∧ n.kind o = m.kind o ∨
    m.ops.size ≤ o.index ∧ n.kind o ≠ .sol .ret ∧ ∃ r, Pending m r ∧ m.kind r = .sol .ret
  provides : ∀ x, Provides m x → Provides n x

namespace Converts

/-- Nothing is rewritten. -/
theorem refl (h : Sealed env contexts [] [] m) : Converts env contexts m m :=
  ⟨h, Nat.le_refl _, fun _ ho => .inl ⟨ho, rfl⟩, fun _ hx => hx⟩

/-- Something is rewritten, and then something else. -/
theorem trans (h : Converts env contexts m n) (k : Converts env contexts n p) :
    Converts env contexts m p := by
  refine ⟨k.sealed, Nat.le_trans h.size k.size, fun o ho => ?_, fun x hx =>
    k.provides x (h.provides x hx)⟩
  -- a return that is left was one before, as new operations are none
  have hreturn : ∀ r, Pending n r → n.kind r = .sol .ret →
      ∃ r, Pending m r ∧ m.kind r = .sol .ret := by
    intro r hr hkind
    rcases h.pending r hr with ⟨hr, hsame⟩ | ⟨-, hne, -⟩
    · exact ⟨r, hr, hsame.symm.trans hkind⟩
    · exact absurd hkind hne
  rcases k.pending o ho with ⟨ho', hkind⟩ | ⟨hge, hne, r, hr, hkind⟩
  · rcases h.pending o ho' with ⟨hm, hkind'⟩ | ⟨hge, hne, hr⟩
    · exact .inl ⟨hm, hkind.trans hkind'⟩
    · exact .inr ⟨hge, hkind ▸ hne, hr⟩
  · exact .inr ⟨Nat.le_trans h.size hge, hne, hreturn r hr hkind⟩

/-- An operation that may stay goes on to stay. -/
theorem not_pending (h : Converts env contexts m n) {o : OpId} (hlt : o.index < m.ops.size)
    (ho : ¬Pending m o) : ¬Pending n o := by
  intro hn
  rcases h.pending o hn with ⟨hm, -⟩ | ⟨hge, -⟩
  · exact ho hm
  · omega

end Converts

/-! ## Rewriting one operation -/

/-- What serves goes on to serve while an operation that may not stay gets another kind of the same
low-level kind. -/
theorem Serves.of_rewrite {y : String} {j : OpId} (h : Serves m y j) (hx : Pending m x)
    (hop : ∀ id, id ≠ x → n.op id = m.op id) (hsignature : n.signature? x = m.signature? x)
    (hlow : (n.kind x).low = (m.kind x).low) : Serves n y j := by
  by_cases hjx : j = x
  · subst hjx
    refine ⟨fun s hs => ?_, fun g hg => absurd ?_ hx.2⟩
    · obtain ⟨hfunction, hs⟩ := h.signature s hs
      exact ⟨(OpKind.classes_of_low_eq hlow).2.1.trans hfunction, hsignature.trans hs⟩
    · rw [h.global g hg]
      rfl
  · exact h.congr (hop j hjx)

/-- One operation gets its low-level form, and everything else stays as it is.

**Proof sketch.** Kinds stay the same up to their level, so every class that the invariant speaks
of is kept, as are names and places.  Hence each field of the invariant carries over, and the
operation itself is no longer pending. -/
theorem converts_of_rewrite (h : Sealed env contexts [] [] m) (hx : Pending m x)
    (htyped : n.WellTyped env) (hops : n.ops.size = m.ops.size) (hblocks : n.blocks = m.blocks)
    (hregions : n.regions = m.regions) (hop : ∀ id, id ≠ x → n.op id = m.op id)
    (hparent : (n.op x).parent = (m.op x).parent) (hname : n.symName? x = m.symName? x)
    (hsignature : n.signature? x = m.signature? x) (hlow : (n.kind x).low = (m.kind x).low)
    (hdialect : (n.kind x).dialect = .llvm) : Converts env contexts m n ∧ ¬Pending n x := by
  have hblock : ∀ b, n.block b = m.block b := fun b => by rw [Module.block, hblocks]; rfl
  have hregion : ∀ r, n.region r = m.region r := fun r => by rw [Module.region, hregions]; rfl
  have hkind : ∀ o, (n.kind o).low = (m.kind o).low := fun o => by
    by_cases ho : o = x
    · rw [ho, hlow]
    · rw [Module.kind, hop o ho]
      rfl
  have hclasses := fun o => OpKind.classes_of_low_eq (hkind o)
  have hnames : ∀ o, n.symName? o = m.symName? o := fun o => by
    by_cases ho : o = x
    · rw [ho, hname]
    · rw [Module.symName?, Module.attr?, hop o ho]
      rfl
  have hparents : ∀ o, (n.op o).parent = (m.op o).parent := fun o => by
    by_cases ho : o = x
    · rw [ho, hparent]
    · rw [hop o ho]
  have hfree : ¬Pending n x := fun hn => hn.2 hdialect
  refine ⟨{
    sealed := {
      typed := htyped
      top := h.top.congr (hregion _) (by rw [hblock]) fun o _ => ⟨(hclasses o).2.2.2, hnames o⟩
      containers := ?_
      ended := ?_
      returning := fun f hf => ?_
      standing := by simp }
    size := Nat.le_of_eq hops.symm
    pending := fun o ho => .inl ?_
    provides := ?_ }, hfree⟩
  · rw [← h.containers, hblock]
    exact List.filter_congr fun o _ => (hclasses o).2.2.1
  · refine h.ended.congr (by rw [hblocks]) (fun b => ?_) hkind fun b _ => by rw [hblock]
    rw [Module.owner?, hblock, hregion]
    rfl
  · rw [hops, (hclasses f).2.2.1]
    exact h.returning f hf
  · have hox : o ≠ x := fun heq => hfree (heq ▸ ho)
    have hsame : n.kind o = m.kind o := by
      rw [Module.kind, hop o hox]
      rfl
    obtain ⟨b, hb⟩ := Module.exists_parent_of_isAttached ho.1
    refine ⟨⟨?_, hsame ▸ ho.2⟩, hsame⟩
    exact h.typed.toLinked.isAttached_of_isAttached htyped.toLinked
      (fun o b _ hb => (hparents o).symm.trans hb) (fun b _ => by rw [hblock])
      (fun r _ => by rw [hregion]) (hops ▸ Module.op_lt_of_parent hb) ho.1
  · rintro y ⟨j, hj, hcontainer, hserves⟩
    have hdeclares : n.Declares y j :=
      (Module.declares_congr (by rw [hblock]) fun o _ => hnames o).2 hj
    exact ⟨j, hdeclares, (hclasses j).2.2.1.trans hcontainer,
      hserves.of_rewrite hx hop hsignature hlow⟩

/-- What may not stay has a place and a type. -/
theorem Sealed.opTyped (h : Sealed env contexts [] [] m) (hx : Pending m x) :
    ∃ b, (m.op x).parent = some b ∧ m.OpTyped env x := by
  obtain ⟨b, hb⟩ := Module.exists_parent_of_isAttached hx.1
  exact ⟨b, hb, h.typed.typed x b hb⟩

/-! ## Changing kinds -/

section SetKind

variable {kind : OpKind}

/-- Changing the kind of an operation changes nothing else of it. -/
theorem op_setKind {b : BlockId} (hb : (m.op x).parent = some b) :
    (m.setKind x kind).op x = { m.op x with kind := kind } :=
  m.op_modifyOp_self _ (Module.op_lt_of_parent hb)

/-- The kind of the operation whose kind is changed. -/
theorem kind_setKind {b : BlockId} (hb : (m.op x).parent = some b) :
    (m.setKind x kind).kind x = kind := by
  rw [Module.kind, op_setKind hb]

/-- Attributes stay. -/
theorem attr?_setKind (o : OpId) (name : String) :
    (m.setKind x kind).attr? o name = m.attr? o name := by
  simp only [Module.attr?, Module.setKind, Module.op_modifyOp]
  split <;> rfl

/-- What is around operations stays. -/
theorem parentOp?_setKind (o : OpId) : (m.setKind x kind).parentOp? o = m.parentOp? o := by
  simp only [Module.parentOp?, Module.setKind, Module.op_modifyOp]
  split <;> rfl

/-- An operation that gets the low-level form of its kind leaves a module well-typed if it is
typed. -/
theorem wellTyped_setKind (h : m.WellTyped env) {b : BlockId} (hb : (m.op x).parent = some b)
    (hlow : kind.low = (m.kind x).low) (htyped : (m.setKind x kind).OpTyped env x) :
    (m.setKind x kind).WellTyped env := by
  have hlinked : (m.setKind x kind).Linked :=
    h.toLinked.modifyOp x (fun _ => rfl) (fun _ => rfl) (fun _ => rfl) (h.operands_lt x)
  refine h.of_rewrite hlinked (by simp [Module.setKind])
    (fun id hid => m.op_modifyOp_of_ne _ hid) ?_ ?_ ?_ (fun _ => rfl) (fun _ => rfl)
    (fun _ => .inl rfl) (fun _ _ => rfl) htyped
  · rw [op_setKind hb]
    exact ⟨rfl, rfl, rfl⟩
  · rw [kind_setKind hb, hlow]
  · rw [Module.signature?, attr?_setKind]
    rfl

/-- An operation gets the low-level form of its kind. -/
theorem converts_setKind (h : Sealed env contexts [] [] m) (hx : Pending m x)
    (hlow : kind.low = (m.kind x).low) (hdialect : kind.dialect = .llvm)
    (htyped : (m.setKind x kind).OpTyped env x) :
    Converts env contexts m (m.setKind x kind) ∧ ¬Pending (m.setKind x kind) x := by
  obtain ⟨b, hb, -⟩ := h.opTyped hx
  refine converts_of_rewrite h hx (wellTyped_setKind h.typed hb hlow htyped)
    (by simp [Module.setKind]) rfl rfl (fun id hid => m.op_modifyOp_of_ne _ hid)
    (by rw [op_setKind hb]) ?_ ?_ (by rw [kind_setKind hb, hlow])
    (by rw [kind_setKind hb, hdialect])
  · rw [Module.symName?, attr?_setKind]
    rfl
  · rw [Module.signature?, attr?_setKind]
    rfl

end SetKind

/-- Kinds that are renamed are those of code, and of no other pattern. -/
theorem ne_of_mem_renames : ∀ r ∈ renames, r.2.1.isSymbol = false ∧ r.2.1 ≠ .memref .alloca ∧
    r.2.1 ≠ .sol .ret ∧ r.2.1 ≠ .llvm .alloca ∧ r.2.2 ≠ .condBr := by
  decide

/-- An operation that only changes its kind stays typed.

**Proof sketch.** The operands and results are as before, and the typing rule of the kind is that
of its low form (`HasType.rename`).  A return still belongs to the function around it, which is
another operation. -/
theorem opTyped_rename (h : m.OpTyped env x) {b : BlockId} (hb : (m.op x).parent = some b)
    {r : String × OpKind × LlvmOp} (hr : r ∈ renames) (hkind : m.kind x = r.2.1) :
    (m.setKind x (.llvm r.2.2)).OpTyped env x := by
  obtain ⟨hsymbol, hcell, hsol, hslot, hbranch⟩ := ne_of_mem_renames r hr
  rw [← hkind] at hsymbol hcell hsol hslot
  obtain ⟨hregions, htype, hreturns, -, -⟩ := h.of_not_isSymbol hsymbol
  have hlow : (OpKind.llvm r.2.2).low = (m.kind x).low := by
    rw [hkind, low_of_mem_renames r hr, OpKind.low_llvm]
  have hk : (m.setKind x (.llvm r.2.2)).kind x = .llvm r.2.2 := kind_setKind hb
  refine .code ?_ ?_ (fun hret => ?_) (fun hcond => ?_) fun hsolRet => ?_
  · rw [op_setKind hb]
    exact hregions
  · rw [hk, op_setKind hb]
    exact htype.rename hcell hlow hsol hslot
  · rw [hk, hlow] at hret
    obtain ⟨f, signature, hup, hfunction, hsignature, htypes⟩ := hreturns hret
    have hfx : f ≠ x := by
      rintro rfl
      simp [OpKind.isSymbol, hfunction] at hsymbol
    refine ⟨f, signature, (parentOp?_setKind x).trans hup, ?_, ?_, ?_⟩
    · rw [Module.kind, Module.setKind, m.op_modifyOp_of_ne _ hfx]
      exact hfunction
    · rw [Module.signature?, attr?_setKind]
      exact hsignature
    · rw [op_setKind hb]
      exact htypes
  · rw [hk] at hcond
    exact absurd (OpKind.llvm.inj hcond) hbranch
  · rw [hk] at hsolRet
    cases hsolRet

/-- What only changes its kind is renamed. -/
theorem exists_rename (h : Sealed env contexts [] [] m) (hx : Pending m x)
    {r : String × OpKind × LlvmOp} (hr : r ∈ renames) (hkind : m.kind x = r.2.1) :
    ∃ n, ((renamePattern r.1 r.2.1 r.2.2).rewrite x).run m = .ok true n ∧
      Converts env contexts m n ∧ ¬Pending n x := by
  obtain ⟨b, hb, htyped⟩ := h.opTyped hx
  refine ⟨m.setKind x (.llvm r.2.2), rfl, converts_setKind h hx ?_ rfl
    (opTyped_rename htyped hb hr hkind)⟩
  rw [hkind, low_of_mem_renames r hr, OpKind.low_llvm]

/-! ## Functions and cells -/

/-- A function that becomes a low-level one stays typed.

**Proof sketch.** By the way the operation is typed, which must be that of a function.  Its name,
signature and entry block stay; what is around it is a container as before. -/
theorem opTyped_setKind_function (h : m.OpTyped env x) {b : BlockId}
    (hb : (m.op x).parent = some b) (hkind : m.kind x = .func .func) :
    (m.setKind x (.llvm .func)).OpTyped env x := by
  cases h with
  | code _ htype =>
    have hsymbol := htype.isSymbol_eq
    rw [hkind] at hsymbol
    cases hsymbol
  | @function r name signature _ hoperands hresults hregions hn hs hentry houter =>
    refine .function (by rw [kind_setKind hb]; rfl) (by rw [op_setKind hb]; exact hoperands)
      (by rw [op_setKind hb]; exact hresults) (by rw [op_setKind hb]; exact hregions)
      (by rw [Module.symName?, attr?_setKind]; exact hn)
      (by rw [Module.signature?, attr?_setKind]; exact hs) hentry fun c hc => ?_
    have hcontainer := houter c ((parentOp?_setKind x).symm.trans hc)
    have hcx : c ≠ x := by
      rintro rfl
      rw [hkind] at hcontainer
      cases hcontainer
    rw [Module.kind, Module.setKind, m.op_modifyOp_of_ne _ hcx]
    exact hcontainer
  | global hg => rw [hkind] at hg; cases hg
  | container hg => rw [hkind] at hg; cases hg

/-- A function becomes a low-level one.

**Proof sketch.** The kind is set, and the linkage if it is missing.  Both leave the module
typed, so the rest is `converts_of_rewrite`. -/
theorem exists_lowerFuncOp (h : Sealed env contexts [] [] m) (hx : Pending m x)
    (hkind : m.kind x = .func .func) :
    ∃ n, (lowerFuncOp x).run m = .ok true n ∧ Converts env contexts m n ∧ ¬Pending n x := by
  obtain ⟨b, hb, htyped⟩ := h.opTyped hx
  let q := m.setKind x (.llvm .func)
  have hlow : (OpKind.llvm .func).low = (m.kind x).low := by
    rw [hkind]
    rfl
  have hqx : q.OpTyped env x := opTyped_setKind_function htyped hb hkind
  refine ⟨_, run_lowerFuncOp m x, ?_⟩
  split
  · have hop : (q.setAttr x AttrName.linkage (.str "external")).op x = { q.op x with
        attrs := (q.op x).attrs.set AttrName.linkage (.str "external") } :=
      q.op_modifyOp_self _ (by simpa [q, Module.setKind] using Module.op_lt_of_parent hb)
    have hk : (q.setAttr x AttrName.linkage (.str "external")).kind x = .llvm .func := by
      rw [Module.kind, hop]
      exact kind_setKind hb
    have hparent : (q.op x).parent = some b := by
      rw [op_setKind hb]
      exact hb
    have hq : (q.setAttr x AttrName.linkage (.str "external")).WellTyped env :=
      (wellTyped_setKind h.typed hb hlow hqx).setAttr hparent (by rw [kind_setKind hb]; rfl)
        (by decide) (by decide) _
    refine converts_of_rewrite h hx hq (by simp [Module.setAttr, Module.setKind]) rfl rfl
      (fun id hid => ?_) (by rw [hop, hb]; exact hparent) ?_ ?_ (by rw [hk, hlow]) (by rw [hk]; rfl)
    · simp only [Module.setAttr, Module.setKind]
      rw [Module.op_modifyOp_of_ne _ _ hid, Module.op_modifyOp_of_ne _ _ hid]
    · rw [Module.symName?, Module.WellTyped.attr?_setAttr_of_ne (by decide), attr?_setKind]
      rfl
    · rw [Module.signature?, Module.WellTyped.attr?_setAttr_of_ne (by decide), attr?_setKind]
      rfl
  · exact converts_setKind h hx hlow rfl hqx

/-- The module in which a cell is a stack slot. -/
def asSlot (m : Module) (x : OpId) (v : ValueId) (elem : Ty) : Module :=
  ((m.setType v AddressSpace.stack.ptr).setAttr x AttrName.elemType (.type elem)).setKind x
    (.llvm .alloca)

section Slot

variable {v : ValueId} {elem : Ty}

/-- The operation of a stack slot. -/
theorem op_asSlot (hx : x.index < m.ops.size) :
    (asSlot m x v elem).op x = { m.op x with
      kind := .llvm .alloca
      attrs := (m.op x).attrs.set AttrName.elemType (.type elem) } := by
  have hsize : x.index < (m.setType v AddressSpace.stack.ptr).ops.size := hx
  simp only [asSlot, Module.setKind, Module.setAttr]
  rw [Module.op_modifyOp_self _ _ (by simpa using hsize), Module.op_modifyOp_self _ _ hsize]
  rfl

/-- Other operations stay. -/
theorem op_asSlot_of_ne {o : OpId} (ho : o ≠ x) : (asSlot m x v elem).op o = m.op o := by
  simp only [asSlot, Module.setKind, Module.setAttr]
  rw [Module.op_modifyOp_of_ne _ _ ho, Module.op_modifyOp_of_ne _ _ ho]
  rfl

/-- Other attributes stay. -/
theorem attr?_asSlot (hx : x.index < m.ops.size) {name : String}
    (hname : name ≠ AttrName.elemType) : (asSlot m x v elem).attr? x name = m.attr? x name := by
  rw [Module.attr?, op_asSlot hx, AttrDict.get?_set, if_neg hname]
  rfl

/-- The types of values. -/
theorem typeOf_asSlot (hv : v.index < m.values.size) (u : ValueId) :
    (asSlot m x v elem).typeOf u = if u = v then AddressSpace.stack.ptr else m.typeOf u := by
  have hvalue : (asSlot m x v elem).value u = (m.setType v AddressSpace.stack.ptr).value u := rfl
  rw [Module.typeOf, hvalue, Module.value_setType]
  by_cases hu : u = v
  · rw [if_pos ⟨hu, hv⟩, if_pos hu]
  · rw [if_neg fun h => hu h.1, if_neg hu]
    rfl

/-- The links stay consistent. -/
theorem linked_asSlot (h : m.Linked) (x : OpId) (v : ValueId) (elem : Ty) :
    (asSlot m x v elem).Linked := by
  have hset : ((m.setType v AddressSpace.stack.ptr).setAttr x AttrName.elemType
      (.type elem)).Linked :=
    (h.setType v _).modifyOp x (fun _ => rfl) (fun _ => rfl) (fun _ => rfl)
      (by simpa using h.operands_lt x)
  exact hset.modifyOp x (fun _ => rfl) (fun _ => rfl) (fun _ => rfl) (hset.operands_lt x)

/-- A module in which a cell becomes a stack slot stays well-typed.

**Proof sketch.** The value of the cell changes its type, and is the result of no other operation;
where it is read, a stack slot does as well as a cell. -/
theorem wellTyped_asSlot (h : m.WellTyped env) {b : BlockId} (hb : (m.op x).parent = some b)
    (hkind : m.kind x = .memref .alloca) (hresults : (m.op x).results = [v])
    (hv : m.typeOf v = .memref elem) : (asSlot m x v elem).WellTyped env := by
  have hx : x.index < m.ops.size := Module.op_lt_of_parent hb
  have hmem : v ∈ (m.op x).results := by rw [hresults]; exact List.mem_singleton_self v
  have hvlt : v.index < m.values.size := h.results_lt x v hmem
  have hop : (asSlot m x v elem).op x = _ := op_asSlot hx
  obtain ⟨hregions, htype, -, -, -⟩ := (h.typed x b hb).of_not_isSymbol (by rw [hkind]; rfl)
  obtain ⟨hins, -⟩ := htype.of_alloca hkind
  have hk : (asSlot m x v elem).kind x = .llvm .alloca := by rw [Module.kind, hop]
  have htyped : (asSlot m x v elem).OpTyped env x := by
    have houts : (asSlot m x v elem).typesOf ((asSlot m x v elem).op x).results =
        [AddressSpace.stack.ptr] := by
      rw [hop]
      simp [Module.typesOf, hresults, typeOf_asSlot hvlt]
    refine .code (by rw [hop]; exact hregions) ?_ ?_ ?_ ?_
    · have hoperands : (m.op x).operands = [] := List.map_eq_nil_iff.1 hins
      rw [houts, hk, hop]
      simp only [hoperands]
      exact .slot rfl (by rw [AttrDict.get?_set, if_pos rfl])
    all_goals
      rw [hk]
      intro heq
      cases heq
  refine h.of_rewrite (linked_asSlot h.toLinked x v elem) rfl (fun id hid => op_asSlot_of_ne hid)
    ?_ ?_ ?_ (fun _ => rfl) (fun _ => rfl) (fun u => ?_) (fun id hid => ?_) htyped
  · rw [hop]
    exact ⟨rfl, rfl, rfl⟩
  · rw [hk, hkind]
    rfl
  · rw [Module.signature?, attr?_asSlot hx (by decide)]
    rfl
  · rw [typeOf_asSlot hvlt]
    split
    · next hu => exact .inr ⟨by rw [hu, hv]; rfl, rfl⟩
    · exact .inl rfl
  · refine List.map_congr_left fun u hu => ?_
    rw [typeOf_asSlot hvlt, if_neg]
    rintro rfl
    exact hid (h.toLinked.eq_of_mem_results hu hmem)

end Slot

/-- A memory cell becomes a stack slot.

**Proof sketch.** Typing says that the cell has one value, which holds an integer, so the pattern
does not decline.  The slot is typed (`wellTyped_asSlot`), and the rest is `converts_of_rewrite`. -/
theorem exists_lowerAllocaOp (h : Sealed env contexts [] [] m) (hx : Pending m x)
    (hkind : m.kind x = .memref .alloca) :
    ∃ n, (lowerAllocaOp x).run m = .ok true n ∧ Converts env contexts m n ∧ ¬Pending n x := by
  obtain ⟨b, hb, htyped⟩ := h.opTyped hx
  have hlt : x.index < m.ops.size := Module.op_lt_of_parent hb
  obtain ⟨hregions, htype, -, -, -⟩ := htyped.of_not_isSymbol (by rw [hkind]; rfl)
  obtain ⟨-, w, houts⟩ := htype.of_alloca hkind
  obtain ⟨v, hresults, hv⟩ : ∃ v, (m.op x).results = [v] ∧ m.typeOf v = .memref (.int w) := by
    obtain ⟨v, rest, hcons, hv, hrest⟩ := List.map_eq_cons_iff.1 houts
    exact ⟨v, by rw [hcons, List.map_eq_nil_iff.1 hrest], hv⟩
  have hk : (asSlot m x v (.int w)).kind x = .llvm .alloca := by rw [Module.kind, op_asSlot hlt]
  refine ⟨asSlot m x v (.int w), ?_, converts_of_rewrite h hx
    (wellTyped_asSlot h.typed hb hkind hresults hv) ?_ rfl rfl (fun o ho => op_asSlot_of_ne ho)
    (by rw [op_asSlot hlt]) ?_ ?_ (by rw [hk, hkind]; rfl) (by rw [hk]; rfl)⟩
  · rw [lowerAllocaOp, Outcome.run_get_bind, Module.result?, hresults]
    simp only [List.getElem?_cons_zero, hv, Ty.element?]
    rfl
  · simp [asSlot, Module.setAttr, Module.setKind]
    rfl
  · rw [Module.symName?, attr?_asSlot hlt (by decide)]
    rfl
  · rw [Module.signature?, attr?_asSlot hlt (by decide)]
    rfl

/-! ## Returns from contract code -/

/-- Code of the tree belongs to a function of the tree.

**Proof sketch.** An operation with nothing around it stands in the body, where there are only
symbols.  What is around it otherwise has a region, so it is a function or a container, and no
container is left. -/
theorem Sealed.inFunction (h : Sealed env contexts [] [] m) (hx : m.isAttached x = true)
    (hsymbol : (m.kind x).isSymbol = false) :
    ∃ b f, (m.op x).parent = some b ∧ m.parentOp? x = some f ∧ m.isAttached f = true ∧
      m.InFunction b := by
  have hlinked := h.typed.toLinked
  obtain ⟨b, hb⟩ := Module.exists_parent_of_isAttached hx
  cases hup : m.parentOp? x with
  | none =>
    obtain ⟨y, hy, hxy⟩ := hlinked.standsIn_body hx hup
    rw [h.top.body, List.mem_singleton] at hy
    rw [h.top.symbols x (hy ▸ hxy)] at hsymbol
    cases hsymbol
  | some f =>
    have hf := hlinked.isAttached_of_up hx hup
    obtain ⟨y, hy⟩ := Module.exists_parent_of_isAttached hf
    obtain ⟨r, hr, -⟩ := hlinked.exists_standsIn_of_up hup
    have hfunction : (m.kind f).isFunction = true := by
      refine ((h.typed.typed f y hy).of_mem_regions hr).resolve_right ?_
      simp [h.isContainer_eq hf]
    exact ⟨b, f, hb, rfl, hf, hlinked.block_lt hb, f,
      (Module.parentOp?_eq_owner? hb).symm.trans hup, hfunction⟩

/-- Where a return from contract code stands, what it reads, and that its context is known.

**Proof sketch.** The block of the return is ended, and the return is a terminator, so it stands
last.  Typing gives its two operands, and the function around it returns, so that its context is
recorded. -/
theorem Sealed.exists_return (h : Sealed env contexts [] [] m) (hx : Pending m x)
    (hkind : m.kind x = .sol .ret) :
    ∃ b init offset length context, (m.op x).parent = some b ∧ m.InFunction b ∧
      (m.block b).ops = init ++ [x] ∧ (∀ o ∈ init, (m.kind o).isTerminator = false) ∧
      (m.op x).operands = [offset, length] ∧ m.typesOf [offset, length] = [Ty.word, Ty.word] ∧
      (m.op x).results = [] ∧ contexts.around? m x = some context ∧ env.symbols returnName := by
  obtain ⟨b, f, hb, hup, hf, hfunction⟩ := h.inFunction hx.1 (by rw [hkind]; rfl)
  obtain ⟨-, htype, -, -, hcontext⟩ :=
    (h.typed.typed x b hb).of_not_isSymbol (by rw [hkind]; rfl)
  obtain ⟨hins, houts⟩ := htype.of_solReturn hkind
  obtain ⟨init, hops, hinit⟩ := ((h.ended b hfunction).resolve_left id).eq_append
    ((h.typed.op_parent x b).1 hb) (by rw [hkind]; rfl)
  obtain ⟨offset, length, hoperands⟩ : ∃ v w, (m.op x).operands = [v, w] := by
    obtain ⟨v, rest, hv, -, hrest⟩ := List.map_eq_cons_iff.1 hins
    obtain ⟨w, rest, hw, -, hnil⟩ := List.map_eq_cons_iff.1 hrest
    exact ⟨v, w, by rw [hv, hw, List.map_eq_nil_iff.1 hnil]⟩
  obtain ⟨f', hup', hreturning⟩ := hcontext hkind
  obtain rfl := Option.some.inj (hup.symm.trans hup')
  obtain ⟨-, hreturn, hknown⟩ := h.returning f hreturning
  obtain ⟨context, hget⟩ : ∃ context, contexts.get? f = some context :=
    Option.isSome_iff_exists.1 (hknown.resolve_left (by simp [h.isContainer_eq hf]))
  refine ⟨b, init, offset, length, context, hb, hfunction, hops, hinit, hoperands, hoperands ▸ hins,
    List.map_eq_nil_iff.1 houts, ?_, hreturn⟩
  rw [Contexts.around?, h.typed.toLinked.ancestors_eq, hup, List.findSome?_cons, hget]

/-- The last operation of a block is dropped, and new code stands in the block instead.  Nothing
else of the module changes, and the code holds neither functions nor returns from contract code. -/
structure Replaces (m n : Module) (x : OpId) (b : BlockId) (ops : List OpId) : Prop where
  size : m.ops.size ≤ n.ops.size
  size_blocks : n.blocks.size = m.blocks.size
  op : ∀ o : OpId, o.index < m.ops.size → o ≠ x → n.op o = m.op o
  kind : n.kind x = m.kind x
  parent : (m.op x).parent = some b
  detached : (n.op x).parent = none
  block : ∀ y : BlockId, y.index < m.blocks.size → y ≠ b → n.block y = m.block y
  block_parent : (n.block b).parent = (m.block b).parent
  ops : (n.block b).ops = ops
  region : ∀ r : RegionId, r.index < m.regions.size → n.region r = m.region r
  new : ∀ o : OpId, m.ops.size ≤ o.index → (n.kind o).isFunction = false ∧ n.kind o ≠ .sol .ret

namespace Replaces

variable {b : BlockId} {ops : List OpId}

/-- Operations that were there have the kinds that they had. -/
theorem kind_eq (h : Replaces m n x b ops) {o : OpId} (ho : o.index < m.ops.size) :
    n.kind o = m.kind o := by
  by_cases hox : o = x
  · rw [hox, h.kind]
  · rw [Module.kind, h.op o ho hox]
    rfl

/-- Blocks that were there belong to the regions that they belonged to. -/
theorem block_parent_eq (h : Replaces m n x b ops) {y : BlockId} (hy : y.index < m.blocks.size) :
    (n.block y).parent = (m.block y).parent := by
  by_cases hyb : y = b
  · rw [hyb, h.block_parent]
  · rw [h.block y hy hyb]

/-- Blocks that were there have the owners that they had. -/
theorem owner?_eq (h : Replaces m n x b ops) (hm : m.Linked) {y : BlockId}
    (hy : y.index < m.blocks.size) : n.owner? y = m.owner? y := by
  rw [Module.owner?, h.block_parent_eq hy, h.region _ (hm.parent_lt hy)]
  rfl

/-- The operation that was dropped does not belong to the tree. -/
theorem not_isAttached (h : Replaces m n x b ops) : n.isAttached x ≠ true := by
  intro hx
  obtain ⟨y, hy⟩ := Module.exists_parent_of_isAttached hx
  rw [h.detached] at hy
  cases hy

/-- Operations that were there belong to the tree only if they did. -/
theorem isAttached_of_isAttached (h : Replaces m n x b ops) (hm : m.Linked) (hn : n.Linked)
    {o : OpId} (ho : o.index < m.ops.size) (hattached : n.isAttached o = true) :
    m.isAttached o = true := by
  refine hm.isAttached_of_isAttached hn (fun p y hp hy => ?_) (fun y hy => h.block_parent_eq hy)
    (fun r hr => by rw [h.region r hr]) ho hattached
  by_cases hpx : p = x
  · rw [hpx, h.detached] at hy
    cases hy
  · rw [← h.op p hp hpx, hy]

/-- A return from contract code is rewritten by replacing it with code that ends its block.

**Proof sketch.** The body is not the block that is written, so what stands there keeps its kind
and its name.  Blocks other than the written one stay ended, the written one is ended by the code,
and no operation becomes pending. -/
theorem converts (h : Replaces m n x b ops) (hm : Sealed env contexts [] [] m) (hx : Pending m x)
    (hkind : m.kind x = .sol .ret) (htyped : n.WellTyped env) (hb : m.InFunction b)
    (hended : n.Ended b) : Converts env contexts m n ∧ ¬Pending n x := by
  have hlinked := hm.typed.toLinked
  obtain ⟨hentry, howner⟩ := Module.owner?_body hlinked hm.top.body
  have hne : (⟨0⟩ : BlockId) ≠ b := by
    rintro rfl
    obtain ⟨-, f, hf, -⟩ := hb
    rw [howner] at hf
    cases hf
  have hbody : n.block ⟨0⟩ = m.block ⟨0⟩ := h.block _ hentry hne
  have hstands : ∀ o ∈ (m.block ⟨0⟩).ops, n.op o = m.op o := fun o ho => by
    refine h.op o (hlinked.ops_lt ho) ?_
    rintro rfl
    exact hne (Option.some.inj (((hlinked.op_parent o ⟨0⟩).2 ho).symm.trans h.parent))
  have hnames : ∀ o ∈ (m.block ⟨0⟩).ops, n.symName? o = m.symName? o := fun o ho => by
    rw [Module.symName?, Module.attr?, hstands o ho]
    rfl
  have hkinds : ∀ o ∈ (m.block ⟨0⟩).ops, n.kind o = m.kind o := fun o ho =>
    h.kind_eq (hlinked.ops_lt ho)
  refine ⟨{
    sealed := {
      typed := htyped
      top := hm.top.congr (h.region _ hlinked.body_lt) (by rw [hbody])
        fun o ho => ⟨by rw [hkinds o ho], hnames o ho⟩
      containers := ?_
      ended := fun y hy => .inr ?_
      returning := fun f hf => ?_
      standing := by simp }
    size := h.size
    pending := fun o ho => ?_
    provides := ?_ }, fun hn => h.not_isAttached hn.1⟩
  · rw [hbody, ← hm.containers]
    exact List.filter_congr fun o ho => by rw [hkinds o ho]
  · by_cases hyb : y = b
    · exact hyb ▸ hended
    · obtain ⟨hlt, f, hf, hfunction⟩ := hy
      rw [h.size_blocks] at hlt
      rw [h.owner?_eq hlinked hlt] at hf
      have hflt := hlinked.owner_lt hf
      have hy : m.InFunction y := ⟨hlt, f, hf, by rw [← h.kind_eq hflt]; exact hfunction⟩
      refine ((hm.ended y hy).resolve_left id).congr (by rw [h.block y hlt hyb]) fun o ho => ?_
      rw [h.kind_eq (hlinked.ops_lt ho)]
  · obtain ⟨hlt, hreturn, hknown⟩ := hm.returning f hf
    exact ⟨Nat.lt_of_lt_of_le hlt h.size, hreturn, by rw [h.kind_eq hlt]; exact hknown⟩
  · rcases Nat.lt_or_ge o.index m.ops.size with hlt | hge
    · have hsame := h.kind_eq hlt
      exact .inl
        ⟨⟨h.isAttached_of_isAttached hlinked htyped.toLinked hlt ho.1, hsame ▸ ho.2⟩, hsame⟩
    · exact .inr ⟨hge, (h.new o hge).2, x, hx, hkind⟩
  · rintro y ⟨j, hj, hcontainer, hserves⟩
    exact ⟨j, (Module.declares_congr (by rw [hbody]) hnames).2 hj,
      by rw [hkinds j hj.1, hcontainer], hserves.congr (hstands j hj.1)⟩

end Replaces

/-- Code is written before the last operation of a block, which is then dropped.

**Proof sketch.** The return stands last, so the code that a cursor in front of it writes comes
behind the rest of the block, and dropping the return leaves the code at the end.  The other
fields are those of writing and of dropping. -/
theorem replaces_of_leads {c d : Cursor env} {code : List OpId} {last : OpId}
    (hbehind : c.behind = [x]) (hlead : c.Leads d (code ++ [last]))
    (hplain : ∀ o ∈ code, (d.ir.kind o).isPlain = true)
    (hterminator : (d.ir.kind last).isTerminator = true) (hne : d.ir.kind last ≠ .sol .ret) :
    Replaces c.ir (d.ir.detachOp x) x c.block (c.before ++ code ++ [last]) := by
  have hext := hlead.extends_ir
  have hops : (c.ir.block c.block).ops = c.before ++ [x] := hbehind ▸ c.ops
  have hparent : (c.ir.op x).parent = some c.block :=
    (c.typed.op_parent x _).2 (by change x ∈ (c.ir.block c.block).ops; rw [hops]; simp)
  have hlt := Module.op_lt_of_parent hparent
  have hdparent : (d.ir.op x).parent = some c.block := by rw [hext.ops x hlt, hparent]
  have hdops : (d.ir.block c.block).ops = (c.before ++ code ++ [last]) ++ [x] := by
    have hops : (d.ir.block d.block).ops = d.before ++ d.behind := d.ops
    rw [hlead.block, hlead.before, hlead.behind, hbehind] at hops
    rw [hops]
    simp
  have hblock := Module.block_detachOp d.ir x
  refine ⟨by simpa using hext.size_ops, by simpa using hlead.size_blocks, fun o ho hox => ?_, ?_,
    hparent, by rw [Module.op_detachOp, if_pos rfl], fun y hy hyb => ?_, ?_, ?_, fun r hr => ?_,
    fun o hge => ?_⟩
  · rw [Module.op_detachOp, if_neg hox, hext.ops o ho]
  · rw [Module.kind_detachOp, Module.kind, hext.ops x hlt]
    rfl
  · rw [hblock, if_neg, hext.blocks y hy hyb]
    rintro ⟨heq, -⟩
    exact hyb (Option.some.inj (heq.symm.trans hdparent))
  · rw [hblock, if_pos ⟨hdparent, d.typed.block_lt hdparent⟩]
    exact (hext.grown _ c.block_lt).2.1
  · have hnodup : (d.ir.block c.block).ops.Nodup := d.typed.ops_nodup c.block
    rw [hdops] at hnodup
    have hnot : ∀ o ∈ c.before ++ code ++ [last], o ≠ x := fun o ho heq =>
      (List.nodup_append.1 hnodup).2.2 o ho x (by simp) heq
    rw [hblock, if_pos ⟨hdparent, d.typed.block_lt hdparent⟩]
    simp only [hdops]
    rw [List.filter_append, List.filter_eq_self.2 fun o ho => by simpa using hnot o ho]
    simp
  · rw [Module.region_detachOp, hext.regions r hr]
  · rw [Module.kind_detachOp]
    rcases Nat.lt_or_ge o.index d.ir.ops.size with hlt | hge'
    · rcases List.mem_append.1 ((hlead.new o).2 ⟨hge, hlt⟩) with ho | ho
      · exact ⟨OpKind.isFunction_of_isSymbol (OpKind.isSymbol_of_isPlain (hplain o ho)),
          OpKind.ne_solReturn (hplain o ho)⟩
      · rw [List.mem_singleton.1 ho]
        exact ⟨OpKind.isFunction_of_isSymbol (OpKind.isSymbol_of_isTerminator hterminator), hne⟩
    · rw [Module.kind, Module.op_of_le hge']
      exact ⟨rfl, by decide⟩

/-- A return from contract code is replaced by code that ends its block.

**Proof sketch.** The code is written (`replaces_of_leads`), the return without results may be
erased, and the block is ended by the last operation of the code, as the code in front of it is
plain (`Replaces.converts`). -/
theorem exists_replaceLast (h : Sealed env contexts [] [] m) (hx : Pending m x)
    (hkind : m.kind x = .sol .ret) (hresults : (m.op x).results = []) {c : Cursor env}
    (hc : c.ir = m) (hbehind : c.behind = [x]) (hfunction : m.InFunction c.block)
    (hbefore : ∀ o ∈ c.before, (m.kind o).isTerminator = false) {ε α : Type}
    {y : EStateM ε Builder α} {kind : OpKind} (hy : Cursor.Ends y c kind)
    (hterminator : kind.isTerminator = true) (hne : kind ≠ .sol .ret) :
    ∃ a d n, y.run c.builder = .ok a d ∧ (Module.eraseOp x).run d.ir = .ok () n ∧
      Converts env contexts m n ∧ ¬Pending n x := by
  subst hc
  obtain ⟨a, d, code, last, hrun, hlead, hplain, rfl⟩ := hy
  have hreplaces := replaces_of_leads hbehind hlead hplain hterminator hne
  have hdresults : (d.ir.op x).results = [] := by
    rw [hlead.extends_ir.ops x (Module.op_lt_of_parent hreplaces.parent), hresults]
  refine ⟨a, d.builder, _, hrun, d.typed.run_eraseOp hdresults,
    hreplaces.converts h hx hkind (d.typed.detachOp hdresults) hfunction
      ⟨c.before ++ code, last, hreplaces.ops, ?_, fun o ho => ?_⟩⟩
  · rw [Module.kind_detachOp]
    exact hterminator
  · rw [Module.kind_detachOp]
    rcases List.mem_append.1 ho with ho | ho
    · rw [Module.kind, hlead.op_eq ho]
      exact hbefore o ho
    · exact OpKind.isTerminator_of_isPlain (hplain o ho)

/-- What the last operation of a block reads is known before it. -/
theorem knows_of_reads {c : Cursor env} (hbehind : c.behind = [x]) {v : ValueId} {t : Ty}
    (hv : v ∈ (c.ir.op x).operands) (ht : c.ir.typeOf v = t) : c.Knows v t := by
  have hops : (c.ir.block c.block).ops = c.before ++ [x] := hbehind ▸ c.ops
  have hparent : (c.ir.op x).parent = some c.block :=
    (c.typed.op_parent x _).2 (by change x ∈ (c.ir.block c.block).ops; rw [hops]; simp)
  refine ⟨ht, (c.typed.reads x _ hparent v hv).imp id ?_⟩
  rintro ⟨p, hp, hsublist⟩
  have hnodup : (c.ir.block c.block).ops.Nodup := c.typed.ops_nodup c.block
  have hsublist : [p, x].Sublist (c.ir.block c.block).ops := hsublist
  have hne : p ≠ x := by
    rintro rfl
    simpa using hsublist.nodup hnodup
  have hmem : p ∈ c.before ++ [x] := hops ▸ hsublist.subset (.head _)
  refine ⟨p, (List.mem_append.1 hmem).resolve_right fun h => hne (List.mem_singleton.1 h), hp⟩

/-- The place before an operation. -/
theorem run_before {c : Builder} {b : BlockId} {i : Nat} (hparent : (c.ir.op x).parent = some b)
    (hindex : c.ir.indexOf? x = some i) :
    (Build.before x).run c = .ok () { c with point := some ⟨b, some i⟩ } := by
  have hposition : (Build.positionOf x).run c = .ok (b, i) c := by
    refine Outcome.run_bind_eq_ok.2 ⟨c.ir, c, rfl, ?_⟩
    simp only [hparent, hindex]
    rfl
  exact Outcome.run_bind_eq_ok.2 ⟨(b, i), c, hposition, rfl⟩

/-- A return from contract code becomes a call of the return function.

**Proof sketch.** A cursor in front of the return knows its two operands.  It writes the sequence
of the context, which ends the block, and `exists_replaceLast` does the rest. -/
theorem exists_lowerReturnOp (h : Sealed env contexts [] [] m) (hx : Pending m x)
    (hkind : m.kind x = .sol .ret) :
    ∃ n, (lowerReturnOp contexts x).run m = .ok true n ∧ Converts env contexts m n ∧
      ¬Pending n x := by
  obtain ⟨b, init, offset, length, context, hb, hfunction, hops, hinit, hoperands, htypes, hresults,
    hcontext, hreturn⟩ := h.exists_return hx hkind
  let c : Cursor env :=
    { builder := ⟨m, some ⟨b, some init.length⟩, (m.op x).location⟩
      block := b
      before := init
      behind := [x]
      typed := h.typed
      block_lt := hfunction.1
      ops := hops
      point := ⟨some init.length, rfl, .inl rfl⟩ }
  obtain ⟨hoffset, hlength⟩ : c.Knows offset Ty.word ∧ c.Knows length Ty.word := by
    simp only [Module.typesOf, List.map_cons, List.map_nil, List.cons.injEq, and_true] at htypes
    refine ⟨knows_of_reads rfl ?_ htypes.1, knows_of_reads rfl ?_ htypes.2⟩
    all_goals
      change _ ∈ (m.op x).operands
      simp [hoperands]
  have hends : Cursor.Ends (do
      returnBuild context offset length
      let _ ← Build.Llvm.unreachable : Lower Unit) c (.llvm .unreachable) := by
    cases context with
    | runtime =>
      refine (writes_runtimeReturn hreturn hoffset hlength).liftM.bind_ends fun _ d _ _ _ => ?_
      exact Cursor.ends_unreachable.liftM.bind_pure _
    | deploy =>
      refine (writes_deployReturn hreturn).liftM.bind_ends fun _ d _ _ _ => ?_
      exact Cursor.ends_unreachable.liftM.bind_pure _
  obtain ⟨_, d, n, hrun, herase, hconverts⟩ :=
    exists_replaceLast h hx hkind hresults rfl rfl hfunction hinit hends rfl (by decide)
  refine ⟨n, ?_, hconverts⟩
  have hposition : (liftM (Build.before x) : Lower Unit).run (Builder.new m) =
      .ok () ⟨m, some ⟨b, some init.length⟩, .unknown⟩ := by
    rw [run_liftM, run_before hb (h.typed.toLinked.indexOf?_eq hops)]
    rfl
  rw [lowerReturnOp, Outcome.run_get_bind, hcontext]
  refine Outcome.run_bind_eq_ok.2 ⟨context, m, rfl, ?_⟩
  simp only [hoperands]
  refine Outcome.run_bind_eq_ok.2 ⟨(), d.ir, ?_,
    Outcome.run_bind_eq_ok.2 ⟨(), n, run_liftM_eq_ok.2 herase, rfl⟩⟩
  have hlocated : (liftM (Build.setLocation (m.op x).location) : Lower Unit).run
      ⟨m, some ⟨b, some init.length⟩, .unknown⟩ = .ok () c.builder := rfl
  rw [run_build, Outcome.run_bind_eq_ok.2 ⟨(), _, hposition,
    Outcome.run_bind_eq_ok.2 ⟨(), _, hlocated, by cases context <;> exact hrun⟩⟩]

/-! ## The right pattern -/

/-- The patterns have different roots. -/
theorem nodup_roots (contexts : Contexts) : ((patterns contexts).map Pattern.root).Nodup := by
  simp only [patterns, renames, renamePattern, List.map_cons, List.map_nil, List.cons_append,
    List.nil_append]
  decide

/-- Among patterns with different roots, the one for a kind is the first one that rewrites. -/
theorem run_firstMatch {ps : List Pattern} (hnodup : (ps.map Pattern.root).Nodup) {p : Pattern}
    (hp : p ∈ ps) (hrun : (p.rewrite x).run m = .ok true n) :
    (firstMatch p.root x ps).run m = .ok (some p.name) n := by
  induction ps with
  | nil => cases hp
  | cons q ps ih =>
    obtain ⟨hq, hps⟩ := List.nodup_cons.1 hnodup
    rw [firstMatch]
    rcases List.mem_cons.1 hp with rfl | hp
    · rw [if_pos rfl]
      exact Outcome.run_bind_eq_ok.2 ⟨true, n, hrun, rfl⟩
    · have hne : q.root ≠ p.root := fun heq => hq (heq ▸ List.mem_map_of_mem hp)
      rw [if_neg hne]
      exact ih hps hp

/-- Kinds that are neither low-level nor containers have patterns. -/
theorem root_of_not_llvm (k : OpKind) (hdialect : k.dialect ≠ .llvm)
    (hcontainer : k.isContainer = false) :
    k = .sol .ret ∨ k = .func .func ∨ k = .memref .alloca ∨ ∃ r ∈ renames, k = r.2.1 := by
  cases k with
  | sol k =>
    cases k with
    | contract | object => cases hcontainer
    | ret => exact .inl rfl
  | llvm k => exact absurd rfl hdialect
  | func k | arith k | memref k => cases k <;> simp [renames]

/-- **Whatever may not stay is rewritten**, into something that may. -/
theorem exists_rewrite (h : Sealed env contexts [] [] m) (hx : Pending m x) :
    ∃ name n, (firstMatch (m.kind x) x (patterns contexts)).run m = .ok (some name) n ∧
      Converts env contexts m n ∧ ¬Pending n x := by
  have hmatch : ∀ p ∈ patterns contexts, m.kind x = p.root →
      (∃ n, (p.rewrite x).run m = .ok true n ∧ Converts env contexts m n ∧ ¬Pending n x) →
      ∃ name n, (firstMatch (m.kind x) x (patterns contexts)).run m = .ok (some name) n ∧
        Converts env contexts m n ∧ ¬Pending n x := by
    rintro p hp hroot ⟨n, hrun, hn⟩
    exact ⟨p.name, n, hroot ▸ run_firstMatch (nodup_roots contexts) hp hrun, hn⟩
  rcases root_of_not_llvm _ hx.2 (h.isContainer_eq hx.1) with hkind | hkind | hkind | ⟨r, hr, hkind⟩
  · exact hmatch _ (mem_patterns.2 (.inl rfl)) hkind (exists_lowerReturnOp h hx hkind)
  · exact hmatch _ (mem_patterns.2 (.inr (.inl rfl))) hkind (exists_lowerFuncOp h hx hkind)
  · exact hmatch _ (mem_patterns.2 (.inr (.inr (.inl rfl)))) hkind (exists_lowerAllocaOp h hx hkind)
  · exact hmatch _ (mem_patterns.2 (.inr (.inr (.inr ⟨r, hr, rfl⟩)))) hkind
      (exists_rename h hx hr hkind)

end EraVM

end ContractIR
