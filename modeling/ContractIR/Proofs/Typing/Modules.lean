import ContractIR.Proofs.Module.Placement
import ContractIR.Proofs.Typing.Ops

/-!
# Well-typed modules

Between lowering and the end of legalization a module is a mixture of both levels, and the verifier
does not accept it at every moment: a function may still lack its terminator, a name may be taken
twice.  What does hold at every moment is that links are consistent, that every operation in a
block has the types of its kind, and that it reads what stands before it in its own block.

## Main definitions

* `ContractIR.Module.OpTyped` — an operation is typed code, a function, a global or a container.
* `ContractIR.Module.Reads` — a value is an argument of a block, or a result before an operation.
* `ContractIR.Module.WellTyped` — every operation in a block is typed and reads known values.

## Main results

* `ContractIR.Module.WellTyped.of_extends` — building keeps modules well-typed.
* `ContractIR.Module.WellTyped.of_placement` — so does moving functions, and dropping operations.
* `ContractIR.Module.WellTyped.of_rewrite` — so does giving one operation its low-level form.
-/

set_option autoImplicit false

namespace ContractIR

namespace Module

/-! ## Owners of blocks -/

/-- The operation that owns the region of a block. -/
def owner? (m : Module) (b : BlockId) : Option OpId := (m.region (m.block b).parent).parent

/-- What stands around an operation owns its block. -/
theorem parentOp?_eq_owner? {m : Module} {id : OpId} {b : BlockId}
    (h : (m.op id).parent = some b) : m.parentOp? id = m.owner? b := by
  rw [parentOp?, h, Option.bind_some, owner?]

/-- The first block of the body belongs to no operation. -/
theorem owner?_body {m : Module} (h : m.Linked) (hbody : m.region body = ⟨[⟨0⟩], none⟩) :
    (0 : Nat) < m.blocks.size ∧ m.owner? ⟨0⟩ = none := by
  have hmem : (⟨0⟩ : BlockId) ∈ (m.region body).blocks := by rw [hbody]; exact .head _
  have hlt := h.blocks_lt body ⟨0⟩ hmem
  refine ⟨hlt, ?_⟩
  rw [owner?, (h.block_parent ⟨0⟩ body hlt).2 hmem, h.body_parent]

/-- An operation owns the block at which it is entered. -/
theorem owner?_of_entryBlock? {m : Module} (h : m.Linked) {id : OpId} {e : BlockId}
    (he : m.entryBlock? id = some e) : e.index < m.blocks.size ∧ m.owner? e = some id := by
  obtain ⟨r, hr, hhead⟩ := Option.bind_eq_some_iff.1 he
  have hmem : e ∈ (m.region r).blocks := List.mem_of_mem_head? hhead
  have hlt := h.blocks_lt r e hmem
  refine ⟨hlt, ?_⟩
  rw [owner?, (h.block_parent e r hlt).2 hmem]
  exact (h.region_parent r id).2 (List.mem_of_mem_head? hr)

/-- An operation is entered at the same block when a module grows. -/
theorem entryBlock?_of_extends {m n : Module} {B : BlockId → Prop} (h : m.Linked)
    (hext : Extends B m n) {id : OpId} (hid : id.index < m.ops.size) :
    n.entryBlock? id = m.entryBlock? id :=
  entryBlock?_congr (by rw [hext.ops id hid]) fun r hr => hext.regions r (h.regions_lt hr)

/-! ## Typed operations -/

/-- A return gives what the function around it promises. -/
def ReturnsWell (m : Module) (id : OpId) : Prop :=
  ∃ f signature, m.parentOp? id = some f ∧ (m.kind f).isFunction = true ∧
    m.signature? f = some signature ∧ m.typesOf (m.op id).operands = signature.results

/-- A conditional branch has two successors, both in the region that it stands in. -/
def BranchesWell (m : Module) (id : OpId) : Prop :=
  (m.op id).successors.length = 2 ∧
    ∃ x, (m.op id).parent = some x ∧ x.index < m.blocks.size ∧
      ∀ b ∈ (m.op id).successors, b.index < m.blocks.size ∧ (m.block b).parent = (m.block x).parent

/-- What an operation in a block is: code with types, or a function, a global or a container. -/
inductive OpTyped (env : Env) (m : Module) (id : OpId) : Prop
  | code (hregions : (m.op id).regions = [])
    (htype : (m.kind id).HasType env (m.op id).attrs (m.typesOf (m.op id).operands)
      (m.typesOf (m.op id).results))
    (hreturns : (m.kind id).low = .llvm .ret → m.ReturnsWell id)
    (hbranches : m.kind id = .llvm .condBr → m.BranchesWell id)
    (hcontext : m.kind id = .sol .ret → ∃ f, m.parentOp? id = some f ∧ env.returning f)
  | function {r : RegionId} {name : String} {signature : Signature}
    (hkind : (m.kind id).isFunction = true) (hoperands : (m.op id).operands = [])
    (hresults : (m.op id).results = []) (hregions : (m.op id).regions = [r])
    (hname : m.symName? id = some name) (hsignature : m.signature? id = some signature)
    (hentry : ∀ e, (m.region r).blocks.head? = some e →
      m.typesOf (m.block e).args = signature.inputs)
    (houter : ∀ c, m.parentOp? id = some c → (m.kind c).isContainer = true)
  | global {name : String} {ty : Ty} (hkind : m.kind id = .llvm .global)
    (hoperands : (m.op id).operands = []) (hresults : (m.op id).results = [])
    (hregions : (m.op id).regions = []) (hname : m.symName? id = some name)
    (hty : m.attr? id AttrName.globalType = some (.type ty))
    (hvalue : ∀ a, m.attr? id AttrName.value = some a → initializes ty a = true)
    (houter : m.parentOp? id = none)
  | container {name : String} (hkind : (m.kind id).isContainer = true)
    (hoperands : (m.op id).operands = []) (hresults : (m.op id).results = [])
    (hname : m.symName? id = some name) (houter : m.parentOp? id = none)

namespace OpTyped

variable {env : Env} {m : Module} {id : OpId}

/-- What declares a symbol reads nothing and gives nothing. -/
theorem of_isSymbol (h : m.OpTyped env id) (hsymbol : (m.kind id).isSymbol = true) :
    (m.op id).operands = [] ∧ (m.op id).results = [] := by
  cases h with
  | code _ htype => rw [htype.isSymbol_eq] at hsymbol; cases hsymbol
  | function _ hoperands hresults => exact ⟨hoperands, hresults⟩
  | global _ hoperands hresults => exact ⟨hoperands, hresults⟩
  | container _ hoperands hresults => exact ⟨hoperands, hresults⟩

/-- What declares no symbol is code. -/
theorem of_not_isSymbol (h : m.OpTyped env id) (hsymbol : (m.kind id).isSymbol = false) :
    (m.op id).regions = [] ∧
      (m.kind id).HasType env (m.op id).attrs (m.typesOf (m.op id).operands)
        (m.typesOf (m.op id).results) ∧
      ((m.kind id).low = .llvm .ret → m.ReturnsWell id) ∧
      (m.kind id = .llvm .condBr → m.BranchesWell id) ∧
      (m.kind id = .sol .ret → ∃ f, m.parentOp? id = some f ∧ env.returning f) := by
  cases h with
  | code hregions htype hreturns hbranches hcontext =>
    exact ⟨hregions, htype, hreturns, hbranches, hcontext⟩
  | function hkind => simp [OpKind.isSymbol, hkind] at hsymbol
  | global hkind => simp [OpKind.isSymbol, hkind] at hsymbol
  | container hkind => simp [OpKind.isSymbol, hkind] at hsymbol

/-- Only functions and containers own regions. -/
theorem of_mem_regions (h : m.OpTyped env id) {r : RegionId} (hr : r ∈ (m.op id).regions) :
    (m.kind id).isFunction = true ∨ (m.kind id).isContainer = true := by
  cases h with
  | code hregions => rw [hregions] at hr; cases hr
  | function hkind => exact .inl hkind
  | global _ _ _ hregions => rw [hregions] at hr; cases hr
  | container hkind => exact .inr hkind

/-- What declares a symbol has a name. -/
theorem exists_name (h : m.OpTyped env id) (hsymbol : (m.kind id).isSymbol = true) :
    ∃ name, m.symName? id = some name := by
  cases h with
  | code _ htype => rw [htype.isSymbol_eq] at hsymbol; cases hsymbol
  | function _ _ _ _ hname => exact ⟨_, hname⟩
  | global _ _ _ _ hname => exact ⟨_, hname⟩
  | container _ _ _ hname => exact ⟨_, hname⟩

/-- What is around a function is a container. -/
theorem isContainer_of_up (h : m.OpTyped env id) (hkind : (m.kind id).isFunction = true) {c : OpId}
    (hup : m.parentOp? id = some c) : (m.kind c).isContainer = true := by
  cases h with
  | code _ htype =>
    have hsymbol := htype.isSymbol_eq
    rw [OpKind.isSymbol, hkind] at hsymbol
    cases hsymbol
  | function _ _ _ _ _ _ _ houter => exact houter c hup
  | global hk => rw [hk] at hkind; cases hkind
  | container hk => rw [OpKind.isContainer_of_isFunction hkind] at hk; cases hk

/-- Nothing is around a container. -/
theorem parentOp?_of_isContainer (h : m.OpTyped env id) (hkind : (m.kind id).isContainer = true) :
    m.parentOp? id = none := by
  cases h with
  | code _ htype =>
    have hsymbol := htype.isSymbol_eq
    simp [OpKind.isSymbol, hkind] at hsymbol
  | function hk => rw [OpKind.isContainer_of_isFunction hk] at hkind; cases hkind
  | global hk => rw [hk] at hkind; cases hkind
  | container _ _ _ _ houter => exact houter

end OpTyped

end Module

/-- The types of what a function returns are types of integers. -/
theorem OpKind.HasType.isInt_of_ret {env : Env} {kind : OpKind} {attrs : AttrDict}
    {ins outs : List Ty} (h : kind.HasType env attrs ins outs) (hkind : kind.low = .llvm .ret) :
    ∀ t ∈ ins, t.isInt = true := by
  cases h with
  | ret _ htypes => exact htypes
  | @binary k w hk hbinary =>
    obtain rfl := OpKind.llvm.inj (hk.symm.trans hkind)
    cases hbinary
  | @extend k v w hk hextension =>
    obtain rfl := OpKind.llvm.inj (hk.symm.trans hkind)
    cases hextension
  | cell hk | slot hk | solReturn hk => rw [hk] at hkind; cases hkind
  | constant hk | icmp hk | load hk | store hk | addressOf hk | gep hk | ptrToInt hk | intToPtr hk
  | call hk | unreachable hk | condBr hk => cases hk.symm.trans hkind

namespace Module

/-- A return goes on to give what is promised while the function around it keeps its signature:
integers do not change when cells settle. -/
theorem ReturnsWell.congr {m n : Module} {id : OpId} (h : m.ReturnsWell id)
    (hoperands : (n.op id).operands = (m.op id).operands)
    (hins : List.Forall₂ Ty.Settles (m.typesOf (m.op id).operands)
      (n.typesOf (m.op id).operands))
    (hints : ∀ t ∈ m.typesOf (m.op id).operands, t.isInt = true)
    (hparent : n.parentOp? id = m.parentOp? id)
    (haround : ∀ f, m.parentOp? id = some f →
      (n.kind f).low = (m.kind f).low ∧ n.signature? f = m.signature? f) : n.ReturnsWell id := by
  obtain ⟨f, signature, hf, hfunction, hsignature, htypes⟩ := h
  obtain ⟨hlow, hsame⟩ := haround f hf
  refine ⟨f, signature, hparent.trans hf, ?_, hsame.trans hsignature, ?_⟩
  · rw [(OpKind.classes_of_low_eq hlow).2.1, hfunction]
  · rw [hoperands, Ty.Settles.eq_of_forall hins fun t ht => Ty.element?_of_isInt (hints t ht),
      htypes]

/-- A branch stays inside its region while it stands where it stood, and blocks keep their
regions. -/
theorem BranchesWell.congr {m n : Module} {id : OpId} (h : m.BranchesWell id)
    (hsuccessors : (n.op id).successors = (m.op id).successors)
    (hplace : (n.op id).parent = (m.op id).parent)
    (hblocks : ∀ b, b.index < m.blocks.size → b.index < n.blocks.size ∧
      (n.block b).parent = (m.block b).parent) : n.BranchesWell id := by
  obtain ⟨hlength, x, hx, hxlt, hregion⟩ := h
  refine ⟨hsuccessors ▸ hlength, x, hplace.trans hx, (hblocks x hxlt).1, fun b hb => ?_⟩
  obtain ⟨hblt, hparent⟩ := hregion b (hsuccessors ▸ hb)
  exact ⟨(hblocks b hblt).1, by rw [(hblocks b hblt).2, hparent, (hblocks x hxlt).2]⟩

/-- An operation stays typed while it stays as it is, what it reads settles, what stands around it
keeps its signature, and its entry block keeps its arguments.

**Proof sketch.** By how the operation is typed.  Code reads types that settle, which
`HasType.retype` allows, and stands where it stood; a function or container keeps its name,
signature and regions, and may have moved to the body. -/
theorem OpTyped.congr {env : Env} {m n : Module} {id : OpId} (h : m.OpTyped env id)
    (hop : n.op id = { m.op id with parent := (n.op id).parent })
    (hins : List.Forall₂ Ty.Settles (m.typesOf (m.op id).operands)
      (n.typesOf (m.op id).operands))
    (houts : n.typesOf (m.op id).results = m.typesOf (m.op id).results)
    (houter : (n.op id).parent = (m.op id).parent ∧ n.parentOp? id = m.parentOp? id ∨
      (m.kind id).isSymbol = true ∧ n.parentOp? id = none)
    (hblocks : ∀ b, b.index < m.blocks.size → b.index < n.blocks.size ∧
      (n.block b).parent = (m.block b).parent)
    (haround : ∀ f, m.parentOp? id = some f →
      (n.kind f).low = (m.kind f).low ∧ n.signature? f = m.signature? f)
    (hentry : ∀ r ∈ (m.op id).regions, ∀ e, (n.region r).blocks.head? = some e →
      (m.region r).blocks.head? = some e ∧
        n.typesOf (n.block e).args = m.typesOf (m.block e).args) : n.OpTyped env id := by
  have hkind : n.kind id = m.kind id := by rw [kind, hop]; rfl
  have hoperands : (n.op id).operands = (m.op id).operands := by rw [hop]
  have hresults : (n.op id).results = (m.op id).results := by rw [hop]
  have hregions : (n.op id).regions = (m.op id).regions := by rw [hop]
  have hattrs : (n.op id).attrs = (m.op id).attrs := by rw [hop]
  have hname : n.symName? id = m.symName? id := by rw [symName?, symName?, attr?, attr?, hattrs]
  have hsig : n.signature? id = m.signature? id := by
    rw [signature?, signature?, attr?, attr?, hattrs]
  have hnone : m.parentOp? id = none → n.parentOp? id = none := by
    intro hm
    rcases houter with ⟨-, he⟩ | ⟨-, he⟩
    · rw [he, hm]
    · exact he
  cases h with
  | code hr htype hreturns hbranches hcontext =>
    obtain ⟨hplace, hsame⟩ : (n.op id).parent = (m.op id).parent ∧
        n.parentOp? id = m.parentOp? id := by
      rcases houter with he | ⟨hsymbol, -⟩
      · exact he
      · rw [htype.isSymbol_eq] at hsymbol
        cases hsymbol
    refine .code (hregions.trans hr) ?_ (fun hret => ?_) (fun hbranch => ?_) fun hsol => ?_
    · rw [hkind, hattrs, hoperands, hresults, houts]
      exact htype.retype hins
    · rw [hkind] at hret
      exact (hreturns hret).congr hoperands hins (htype.isInt_of_ret hret) hsame haround
    · exact (hbranches (hkind ▸ hbranch)).congr (by rw [hop]) hplace hblocks
    · obtain ⟨f, hparent, hf⟩ := hcontext (hkind ▸ hsol)
      exact ⟨f, hsame.trans hparent, hf⟩
  | @function r name signature hk ho hr hreg hn hs he hout =>
    refine .function (hkind ▸ hk) (hoperands.trans ho) (hresults.trans hr) (hregions.trans hreg)
      (hname.trans hn) (hsig.trans hs) (fun e hhead => ?_) fun c hc => ?_
    · obtain ⟨hhead, htypes⟩ := hentry r (hreg ▸ List.mem_singleton_self r) e hhead
      rw [htypes, he e hhead]
    · rcases houter with ⟨-, hout'⟩ | ⟨-, hout'⟩
      · rw [hout'] at hc
        rw [(OpKind.classes_of_low_eq (haround c hc).1).2.2.1, hout c hc]
      · rw [hout'] at hc
        cases hc
  | global hk ho hr hreg hn hty hvalue hout =>
    have hattr : ∀ name, n.attr? id name = m.attr? id name := fun name => by
      rw [attr?, attr?, hattrs]
    exact .global (hkind.trans hk) (hoperands.trans ho) (hresults.trans hr) (hregions.trans hreg)
      (hname.trans hn) ((hattr _).trans hty) (fun a ha => hvalue a ((hattr _).symm.trans ha))
      (hnone hout)
  | container hk ho hr hn hout =>
    exact .container (hkind ▸ hk) (hoperands.trans ho) (hresults.trans hr) (hname.trans hn)
      (hnone hout)

/-! ## Well-typed modules -/

/-- An operation of a block may read a value: it is an argument of the block, or a result of an
operation that stands before. -/
def Reads (m : Module) (b : BlockId) (id : OpId) (v : ValueId) : Prop :=
  v ∈ (m.block b).args ∨ ∃ p, v ∈ (m.op p).results ∧ [p, id].Sublist (m.block b).ops

/-- Links are consistent, every operation in a block is typed and reads what it may read, and no
block takes cells. -/
structure WellTyped (env : Env) (m : Module) : Prop extends m.Linked where
  typed : ∀ id b, (m.op id).parent = some b → m.OpTyped env id
  reads : ∀ id b, (m.op id).parent = some b → ∀ v ∈ (m.op id).operands, m.Reads b id v
  args : ∀ b, ∀ v ∈ (m.block b).args, (m.typeOf v).element? = none

namespace WellTyped

variable {env : Env} {m n : Module}

/-- The owner of a block stays when a module grows. -/
theorem owner?_of_extends (h : m.Linked) {B : BlockId → Prop} (hext : Extends B m n) {b : BlockId}
    (hb : b.index < m.blocks.size) : n.owner? b = m.owner? b := by
  have hregion : (m.block b).parent.index < m.regions.size :=
    region_lt_of_mem_blocks ((h.block_parent b _ hb).1 rfl)
  rw [owner?, (hext.grown b hb).2.1, hext.regions _ hregion, owner?]

/-- What stands around an operation stays when a module grows. -/
theorem parentOp?_of_extends (h : m.Linked) {B : BlockId → Prop} (hext : Extends B m n)
    {id : OpId} {b : BlockId} (hb : (m.op id).parent = some b) :
    n.parentOp? id = m.parentOp? id := by
  have hop := hext.ops id (op_lt_of_parent hb)
  rw [parentOp?_eq_owner? (hop ▸ hb), owner?_of_extends h hext (h.block_lt hb),
    parentOp?_eq_owner? hb]

/-- Values that a module has keep their types when it grows. -/
theorem typesOf_of_extends {B : BlockId → Prop} (hext : Extends B m n) {vs : List ValueId}
    (hvs : ∀ v ∈ vs, v.index < m.values.size) : n.typesOf vs = m.typesOf vs :=
  List.map_congr_left fun v hv => by rw [typeOf, hext.values v (hvs v hv)]; rfl

/-- A module that grew is well-typed if what is new is typed and reads what it may read.

**Proof sketch.** An old operation is as it was, with the same values and places, so
`OpTyped.congr` applies and it reads what it read; a new one is typed by `hnew`. -/
theorem of_extends (h : m.WellTyped env) (hlinked : n.Linked) {B : BlockId → Prop}
    (hext : Extends B m n)
    (hops : ∀ b, b.index < m.blocks.size → (m.block b).ops.Sublist (n.block b).ops)
    (hnew : ∀ id b, m.ops.size ≤ id.index → (n.op id).parent = some b →
      n.OpTyped env id ∧ ∀ v ∈ (n.op id).operands, n.Reads b id v)
    (hargs : ∀ b, m.blocks.size ≤ b.index → ∀ v ∈ (n.block b).args,
      (n.typeOf v).element? = none) : n.WellTyped env where
  toLinked := hlinked
  typed id b hb := by
    rcases Nat.lt_or_ge id.index m.ops.size with hlt | hge
    · have hop := hext.ops id hlt
      have hb' : (m.op id).parent = some b := by rw [← hop, hb]
      refine (h.typed id b hb').congr (by rw [hop]) ?_ ?_
        (.inl ⟨hb.trans hb'.symm, parentOp?_of_extends h.toLinked hext hb'⟩) (fun x hx =>
          ⟨Nat.lt_of_lt_of_le hx hext.size_blocks, (hext.grown x hx).2.1⟩) ?_ ?_
      · rw [typesOf_of_extends hext (h.operands_lt id)]
        exact List.forall₂_same.2 fun t _ => .inl rfl
      · exact typesOf_of_extends hext (h.results_lt id)
      · intro f hf
        obtain ⟨b, -, hr⟩ := up_iff.1 hf
        have hflt : f.index < m.ops.size := h.owner_lt hr
        simp only [kind, signature?, attr?, hext.ops f hflt, and_self]
      · intro r hr e he
        rw [hext.regions r (h.regions_lt hr)] at he
        have helt : e.index < m.blocks.size := h.blocks_lt r e (List.mem_of_mem_head? he)
        rw [(hext.grown e helt).1, typesOf_of_extends hext (h.args_lt e)]
        exact ⟨he, rfl⟩
    · exact (hnew id b hge hb).1
  reads id b hb v hv := by
    rcases Nat.lt_or_ge id.index m.ops.size with hlt | hge
    · have hop := hext.ops id hlt
      rw [hop] at hb hv
      have hblt : b.index < m.blocks.size := h.block_lt hb
      rcases h.reads id b hb v hv with harg | ⟨p, hp, hsub⟩
      · exact .inl ((hext.grown b hblt).1 ▸ harg)
      · have hplt : p.index < m.ops.size := op_lt_of (v ∈ ·.results) (by simp) hp
        exact .inr ⟨p, by rw [hext.ops p hplt]; exact hp, hsub.trans (hops b hblt)⟩
    · exact (hnew id b hge hb).2 v hv
  args b v hv := by
    rcases Nat.lt_or_ge b.index m.blocks.size with hlt | hge
    · rw [(hext.grown b hlt).1] at hv
      rw [typeOf, hext.values v (h.args_lt b v hv)]
      exact h.args b v hv
    · exact hargs b hge v hv

/-- Moving functions to the body, and dropping operations without results, keeps a module
well-typed.

**Proof sketch.** `OpTyped.congr` for every operation: it stands where it stood, or is a symbol
that came to the body.  What an operation reads is by an operation with results, hence one that
was not dropped, and the order in the block is kept. -/
theorem of_placement (h : m.WellTyped env) (hlinked : n.Linked)
    (hsize : n.blocks.size = m.blocks.size)
    (hop : ∀ id, n.op id = { m.op id with parent := (n.op id).parent })
    (hregion : ∀ r, n.region r = m.region r) (hvalue : ∀ v, n.value v = m.value v)
    (hblock : ∀ b, (n.block b).args = (m.block b).args ∧
      (n.block b).parent = (m.block b).parent)
    (hplace : ∀ id b, (n.op id).parent = some b → (m.op id).parent = some b ∨
      (∃ b', (m.op id).parent = some b') ∧ (m.kind id).isSymbol = true ∧
        (m.block b).parent = body)
    (hops : ∀ p id b, (m.op p).results ≠ [] → (n.op id).parent = some b →
      [p, id].Sublist (m.block b).ops → [p, id].Sublist (n.block b).ops) : n.WellTyped env where
  toLinked := hlinked
  typed id b hb := by
    have htypes : ∀ vs, n.typesOf vs = m.typesOf vs := fun vs =>
      List.map_congr_left fun v _ => by rw [typeOf, hvalue v]; rfl
    have htyped : m.OpTyped env id := by
      rcases hplace id b hb with hb' | ⟨⟨b', hb'⟩, -⟩ <;> exact h.typed id _ hb'
    refine htyped.congr (hop id) ?_ (htypes _) ?_ (fun x hx => ⟨hsize ▸ hx, (hblock x).2⟩) ?_ ?_
    · rw [htypes]
      exact List.forall₂_same.2 fun t _ => .inl rfl
    · simp only [parentOp?, hb, Option.bind_some, (hblock b).2, hregion]
      rcases hplace id b hb with hb' | ⟨-, hsymbol, hbody⟩
      · exact .inl ⟨hb'.symm, by rw [hb', Option.bind_some]⟩
      · exact .inr ⟨hsymbol, by rw [hbody, h.body_parent]⟩
    · intro f _
      simp only [kind, signature?, attr?]
      rw [hop f]
      exact ⟨rfl, rfl⟩
    · intro r _ e he
      rw [hregion] at he
      exact ⟨he, by rw [htypes, (hblock e).1]⟩
  reads id b hb v hv := by
    have hv' : v ∈ (m.op id).operands := by rw [hop id] at hv; exact hv
    rcases hplace id b hb with hb' | ⟨⟨b', hb'⟩, hsymbol, -⟩
    · rcases h.reads id b hb' v hv' with harg | ⟨p, hp, hsub⟩
      · exact .inl ((hblock b).1 ▸ harg)
      · refine .inr ⟨p, by rw [hop p]; exact hp, ?_⟩
        exact hops p id b (List.ne_nil_of_mem hp) hb hsub
    · rw [((h.typed id b' hb').of_isSymbol hsymbol).1] at hv'
      cases hv'
  args b v hv := by
    rw [(hblock b).1] at hv
    rw [typeOf, hvalue v]
    exact h.args b v hv

/-- Giving one operation its low-level form keeps a module well-typed: kinds and signatures stay
what they are up to levels, and cells settle as stack slots.

**Proof sketch.** All operations but `x` are as they were and read values whose types have
settled (`OpTyped.congr`); places and owners stay, so what may be read stays too. -/
theorem of_rewrite (h : m.WellTyped env) (hlinked : n.Linked)
    (hsize : n.blocks.size = m.blocks.size) {x : OpId}
    (hop : ∀ id, id ≠ x → n.op id = m.op id)
    (hx : (n.op x).operands = (m.op x).operands ∧ (n.op x).results = (m.op x).results ∧
      (n.op x).parent = (m.op x).parent)
    (hlow : (n.kind x).low = (m.kind x).low) (hsig : n.signature? x = m.signature? x)
    (hregion : ∀ r, n.region r = m.region r) (hblock : ∀ b, n.block b = m.block b)
    (hsettle : ∀ v, (m.typeOf v).Settles (n.typeOf v))
    (hresults : ∀ id, id ≠ x → n.typesOf (m.op id).results = m.typesOf (m.op id).results)
    (htyped : n.OpTyped env x) : n.WellTyped env := by
  have hkept : ∀ id, (n.op id).operands = (m.op id).operands ∧
      (n.op id).results = (m.op id).results ∧ (n.op id).parent = (m.op id).parent := fun id => by
    by_cases hid : id = x
    · rw [hid]
      exact hx
    · rw [hop id hid]
      exact ⟨rfl, rfl, rfl⟩
  have hparent : ∀ id, (n.op id).parent = (m.op id).parent := fun id => (hkept id).2.2
  have houter : ∀ id, n.parentOp? id = m.parentOp? id := fun id => by
    simp only [parentOp?, hparent id, hblock, hregion]
  have hargs : ∀ b, n.typesOf (m.block b).args = m.typesOf (m.block b).args := fun b =>
    List.map_congr_left fun v hv => (hsettle v).eq_of_element? (h.args b v hv)
  refine { toLinked := hlinked, typed := ?_, reads := ?_, args := ?_ }
  · intro id b hb
    by_cases hid : id = x
    · rw [hid]
      exact htyped
    · rw [hparent] at hb
      refine (h.typed id b hb).congr (by rw [hop id hid]) ?_ (hresults id hid)
        (.inl ⟨hparent id, houter id⟩) (fun y hy => ⟨hsize ▸ hy, by rw [hblock y]⟩) ?_ ?_
      · simp only [typesOf, List.forall₂_map_left_iff, List.forall₂_map_right_iff]
        exact List.forall₂_same.2 fun v _ => hsettle v
      · intro f _
        by_cases hf : f = x
        · rw [hf]
          exact ⟨hlow, hsig⟩
        · simp only [kind, signature?, attr?, hop f hf, and_self]
      · intro r _ e he
        rw [hregion] at he
        exact ⟨he, by rw [hblock e, hargs e]⟩
  · intro id b hb v hv
    rw [(hkept id).1] at hv
    rw [hparent] at hb
    rcases h.reads id b hb v hv with harg | ⟨p, hp, hsub⟩
    · exact .inl (hblock b ▸ harg)
    · exact .inr ⟨p, (hkept p).2.1 ▸ hp, hblock b ▸ hsub⟩
  · intro b v hv
    rw [hblock b] at hv
    rw [(hsettle v).eq_of_element? (h.args b v hv)]
    exact h.args b v hv

/-- Attributes besides the one that is set. -/
theorem attr?_setAttr_of_ne {name other : String} (hne : other ≠ name) (f : OpId) (value : Attr)
    (id : OpId) : (m.setAttr f name value).attr? id other = m.attr? id other := by
  rw [attr?, setAttr, op_modifyOp]
  split
  · rw [AttrDict.get?_set, if_neg hne]
    rfl
  · rfl

/-- A function may get any attribute besides its name and its type.

**Proof sketch.** Kind, name, signature and regions of the function stay, so it is typed as it
was, and `of_rewrite` covers the other operations. -/
theorem setAttr (h : m.WellTyped env) {f : OpId} {b : BlockId} (hb : (m.op f).parent = some b)
    (hkind : (m.kind f).isFunction = true) {name : String} (hname : AttrName.symName ≠ name)
    (htype : AttrName.functionType ≠ name) (value : Attr) :
    (m.setAttr f name value).WellTyped env := by
  have hop : (m.setAttr f name value).op f =
      { m.op f with attrs := (m.op f).attrs.set name value } := by
    rw [Module.setAttr, op_modifyOp_self _ _ (op_lt_of_parent hb)]
  have hkinds : ∀ id, (m.setAttr f name value).kind id = m.kind id := by
    intro id
    simp only [kind, Module.setAttr, op_modifyOp]
    split <;> rfl
  have hparentOp : (m.setAttr f name value).parentOp? f = m.parentOp? f := by
    rw [parentOp?, hop]
    rfl
  have hlinked : (m.setAttr f name value).Linked :=
    h.toLinked.modifyOp f (fun _ => rfl) (fun _ => rfl) (fun _ => rfl) (h.operands_lt f)
  refine h.of_rewrite hlinked (size_blocks_modifyOp _ _ _) (x := f) ?_ ?_ ?_ ?_ (fun _ => rfl)
    (fun _ => rfl) (fun v => .inl rfl) (fun _ _ => rfl) ?_
  · exact fun id hid => op_modifyOp_of_ne _ _ hid
  · rw [hop]
    exact ⟨rfl, rfl, rfl⟩
  · rw [hkinds]
  · rw [signature?, attr?_setAttr_of_ne htype]
    rfl
  · cases h.typed f b hb with
    | code _ hhas =>
      have hsymbol := hhas.isSymbol_eq
      rw [OpKind.isSymbol, hkind] at hsymbol
      cases hsymbol
    | @function r x signature _ hoperands hresults hregions hn hs hentry houter =>
      have hn' : (m.setAttr f name value).symName? f = some x := by
        rw [symName?, attr?_setAttr_of_ne hname]
        exact hn
      refine .function (by rw [hkinds, hkind]) (by rw [hop]; exact hoperands)
        (by rw [hop]; exact hresults) (by rw [hop]; exact hregions) hn' ?_ hentry fun c hc => ?_
      · rw [signature?, attr?_setAttr_of_ne htype]
        exact hs
      · rw [hkinds]
        exact houter c (hparentOp ▸ hc)
    | global hk => rw [hk] at hkind; cases hkind
    | container hk => rw [OpKind.isContainer_of_isFunction hkind] at hk; cases hk

end WellTyped

end Module

end ContractIR
